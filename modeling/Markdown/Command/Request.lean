import Markdown.Escape

/-!
# Requests

The arguments of a command are choices, each an option with its value if it
takes one. They are read from left to right; a call for help or anything that
is no choice ends the reading. The choices then make up a request. Of several
choices on one matter the last one counts.
-/

namespace Markdown.Command

inductive Form where
  | text
  | codeBlock
  | quote
  | heading (level : Int)
deriving DecidableEq, Repr

inductive Choice where
  | file (path : Text)
  | context (context : Context)
  | language (language : Text)
  | form (form : Form)
  | safeMode
  | raw
deriving DecidableEq, Repr

inductive Stop where
  | help
  | misuse
deriving DecidableEq, Repr

/-- The number that the digits at the start of a text make. -/
def leadingNat (t : Text) : Nat :=
  (t.takeWhile Char.isDigit).foldl (fun n c => 10 * n + (c.toNat - '0'.toNat)) 0

/-- The number that a text starts with, of any size. White space and one sign may
stand before its digits, and what follows them is of no account. No digits make zero. -/
def leadingNumber (t : Text) : Int :=
  match t.dropWhile isBlank with
  | '-' :: rest => -(leadingNat rest : Int)
  | '+' :: rest => leadingNat rest
  | rest => leadingNat rest

/-- The number that a text starts with, as a word of 32 bits: the nearest number that
64 bits hold is read, and the lower half of them is kept. -/
def leadingInt (t : Text) : Int :=
  (Int64.ofIntClamp (leadingNumber t)).toInt32.toInt

/-- A number that 64 bits hold is wrapped around 32 bits. -/
theorem leadingInt_eq_bmod {t : Text} (hlow : Int64.minValue.toInt ≤ leadingNumber t)
    (hhigh : leadingNumber t ≤ Int64.maxValue.toInt) :
    leadingInt t = (leadingNumber t).bmod Int32.size := by
  rw [Int64.toInt_minValue] at hlow
  rw [Int64.toInt_maxValue] at hhigh
  rw [leadingInt, Int64.toInt32_ofIntClamp hlow (by omega), Int32.toInt_ofInt]

example : leadingInt "4294967298".toList = 2 := by decide

/-- A number that 32 bits hold is read as it stands. -/
theorem leadingInt_of_fits {t : Text} (hlow : Int32.minValue.toInt ≤ leadingNumber t)
    (hhigh : leadingNumber t ≤ Int32.maxValue.toInt) : leadingInt t = leadingNumber t := by
  rw [Int32.toInt_minValue] at hlow
  rw [Int32.toInt_maxValue] at hhigh
  have hwide : leadingInt t = (leadingNumber t).bmod Int32.size := by
    apply leadingInt_eq_bmod
    · rw [Int64.toInt_minValue]
      omega
    · rw [Int64.toInt_maxValue]
      omega
  rw [hwide]
  exact Int.bmod_eq_of_le (by simp only [Int32.size]; omega) (by simp only [Int32.size]; omega)

example : leadingInt " -12x".toList = -12 := by decide

def contextOf? (name : Text) : Option Context :=
  if name = "plain".toList then some .plain
  else if name = "url".toList then some .url
  else if name = "table-cell".toList then some .tableCell
  else if name = "list-item".toList then some .listItem
  else if name = "code".toList then some .code
  else none

def Choice.plain? (name : Text) : Option Choice :=
  if name = "--code-block".toList then some (.form .codeBlock)
  else if name = "--quote".toList then some (.form .quote)
  else if name = "--safe-mode".toList then some .safeMode
  else if name = "--raw".toList then some .raw
  else none

def Choice.valued? (name value : Text) : Option Choice :=
  if name = "--file".toList then some (.file value)
  else if name = "--context".toList then (contextOf? value).map .context
  else if name = "--language".toList then some (.language value)
  else if name = "--heading".toList then some (.form (.heading (leadingInt value)))
  else none

def choices : List Text → Except Stop (List Choice)
  | [] => .ok []
  | [name] =>
      if name = "--help".toList then .error .help
      else match Choice.plain? name with
        | some c => .ok [c]
        | none => .error .misuse
  | name :: value :: rest =>
      if name = "--help".toList then .error .help
      else match Choice.plain? name with
        | some c => (c :: ·) <$> choices (value :: rest)
        | none =>
          match Choice.valued? name value with
          | some c => (c :: ·) <$> choices rest
          | none => .error .misuse

/-- What a command is asked to do. Without a path the text comes from standard input. -/
structure Request where
  path : Text := []
  language : Text := []
  context : Context := .plain
  form : Form := .text
  safeMode : Bool := false
  raw : Bool := false
deriving DecidableEq, Repr

namespace Request

def choose (r : Request) : Choice → Request
  | .file path => { r with path := path }
  | .context context => { r with context := context }
  | .language language => { r with language := language }
  | .form form => { r with form := form }
  | .safeMode => { r with safeMode := true }
  | .raw => { r with raw := true }

def ofChoices (cs : List Choice) : Request :=
  cs.foldl choose {}

def read (args : List Text) : Except Stop Request :=
  ofChoices <$> choices args

end Request

end Markdown.Command
