import Markdown.Command.Request
import Markdown.Writer.Span
import Markdown.Writer.Block

/-!
# The command

The command takes a text, gives it the form that its arguments ask for, and
ends its answer with one line feed. Line endings at the end of the text do not
count. What it does is a function of its arguments, its standard input and the
files that it can read.
-/

namespace Markdown.Command

/-- What a run of the command leaves behind. -/
structure Outcome where
  exit : Nat
  stdout : Text := []
  stderr : Text := []
deriving DecidableEq, Repr

/-- How to use the command, under the name it was called by. -/
def usage (program : Text) : Text :=
  "Usage: ".toList ++ program ++ (" [--file <path>] [--context <name>]"
    ++ " [--code-block] [--quote] [--heading <n>]\n"
    ++ "Reads text from stdin or --file and writes escaped Markdown to stdout.\n"
    ++ "Options:\n"
    ++ "  --file <path>       Read text from file instead of stdin\n"
    ++ "  --context <name>    Escaping context: "
    ++ "plain, url, table-cell, list-item, code\n"
    ++ "  --code-block        Wrap the text in a fenced code block\n"
    ++ "  --language <lang>   Info string of the code block\n"
    ++ "  --quote             Render the text as a blockquote\n"
    ++ "  --heading <1-6>     Render the text as a heading\n"
    ++ "  --safe-mode         Reject unescaped output\n"
    ++ "  --raw               Do not escape the text\n"
    ++ "  --help              Show this help\n").toList

namespace Request

/-- The text that a request is about, if it can be read. -/
def source (r : Request) (input : Text) (files : Text → Option Text) :
    Option Text :=
  if r.path = [] then some input else files r.path

def render (r : Request) (t : Text) : Except Fault Text :=
  let w : Writer := { safeMode := r.safeMode }
  let escape := !r.raw
  match r.form with
  | .codeBlock => (·.text) <$> w.codeBlock t r.language escape
  | .quote => (·.text) <$> w.blockquote (.literal t) escape
  | .heading level => (·.text) <$> w.heading level (.literal t) escape
  | .text =>
      if r.raw then (·.text) <$> w.text t false else .ok (r.context.escape t)

def run (r : Request) (input : Text) (files : Text → Option Text) : Outcome :=
  match r.source input files with
  | none =>
      { exit := 1, stderr := "Failed to open ".toList ++ r.path ++ ['\n'] }
  | some t =>
    match r.render t.chomp with
    | .ok output => { exit := 0, stdout := output.chomp ++ ['\n'] }
    | .error f => { exit := 1, stderr := "error: ".toList ++ f.message ++ ['\n'] }

end Request

/-- What comes of arguments that make no request: a call for help succeeds,
anything else fails, and both show how to use the command. -/
def explain (program : Text) : Stop → Outcome
  | .help => { exit := 0, stderr := usage program }
  | .misuse => { exit := 1, stderr := usage program }

def run (program : Text) (args : List Text) (input : Text)
    (files : Text → Option Text) : Outcome :=
  match Request.read args with
  | .error stop => explain program stop
  | .ok r => r.run input files

end Markdown.Command
