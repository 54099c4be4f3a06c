import Markdown.Command

/-!
# The program

Runs the command on the arguments, the standard input and the files of the
process. Text passes through as its bytes, one character for each: every
character that the writer treats specially is a single byte in UTF-8, and no
byte of another character looks like one.
-/

namespace Markdown.Program

/-- Bytes as a text with one character for each. -/
def ofBytes (bytes : ByteArray) : Text :=
  bytes.toList.map fun b => Char.ofNat b.toNat

/-- The bytes of a text whose characters stand for bytes. -/
def toBytes (t : Text) : ByteArray :=
  ⟨(t.map fun c => c.toNat.toUInt8).toArray⟩

def readAll (read : IO ByteArray) : IO Text := do
  try
    return ofBytes (← read)
  catch _ =>
    return []

def readFile? (path : String) : IO (Option Text) := do
  try
    let handle ← IO.FS.Handle.mk path .read
    return some (← readAll handle.readBinToEnd)
  catch _ =>
    return none

/-- Does what a request asks for, reading only what it is about. -/
def perform (r : Command.Request) : IO Command.Outcome := do
  if r.path = [] then
    let stdin ← IO.getStdin
    let input ← readAll stdin.readBinToEnd
    return r.run input fun _ => none
  else
    let file ← readFile? ((String.fromUTF8? (toBytes r.path)).getD "")
    return r.run [] fun _ => file

def run (program : String) (args : List String) : IO UInt32 := do
  let outcome ← match Command.Request.read (args.map fun a => ofBytes a.toUTF8) with
    | .error stop => pure (Command.explain (ofBytes program.toUTF8) stop)
    | .ok r => perform r
  let out ← IO.getStdout
  out.write (toBytes outcome.stdout)
  out.flush
  let err ← IO.getStderr
  err.write (toBytes outcome.stderr)
  err.flush
  return outcome.exit.toUInt32

end Markdown.Program

def main (args : List String) : IO UInt32 := do
  Markdown.Program.run (← IO.appPath).toString args
