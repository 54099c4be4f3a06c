import Markdown.Kind

/-!
# Faults

Each way in which making a piece of Markdown can fail is a constructor that
holds its cause. `Fault.words` is the one place where a cause is put into
words, and `Fault.message` is what is shown of them.
-/

namespace Markdown

/-- Why something cannot be written. Rows and columns of a table count from
one, and the header is no row. -/
inductive Fault where
  | nesting (parent child : Kind)
  | unescaped
  | nestedSequence (owner : Kind)
  | headingLevel (level : Int)
  | codeLanguage (language : Text)
  | listStart (start : Int)
  | checkCount (flags items : Nat)
  | listNumber (start : Int) (items : Nat)
  | noColumns
  | alignmentCount (given columns : Nat)
  | alignment (word : Text)
  | rowWidth (row width columns : Nat)
  | cellBreak (row : Option Nat) (column : Nat)
  | strongMark (mark : Text)
  | emphasisMark (mark : Text)
  | bulletMark (mark : Text)
  | ruleMark (mark : Text)
  | noNode (name : Text)
  | noWriter (name : Text)
deriving DecidableEq, Repr

inductive Family where
  | nesting
  | safeMode
  | shape
  | argument
  | lookup
deriving DecidableEq, Repr

def Fault.family : Fault → Family
  | .nesting .. => .nesting
  | .unescaped => .safeMode
  | .nestedSequence _ => .shape
  | .noNode _ | .noWriter _ => .lookup
  | _ => .argument

/-- Passes if a condition holds, and fails with a fault if it does not. -/
def require (p : Prop) [Decidable p] (f : Fault) : Except Fault Unit :=
  if p then .ok () else .error f

theorem require_eq_ok_iff {p : Prop} [Decidable p] {f : Fault} {u : Unit} :
    require p f = .ok u ↔ p := by
  by_cases h : p <;> simp [require, h]

/-- What follows a condition succeeds only if the condition holds. -/
theorem require_bind_eq_ok_iff {α : Type} {p : Prop} [Decidable p] {f : Fault}
    {k : Unit → Except Fault α} {a : α} :
    (require p f >>= k) = .ok a ↔ p ∧ k () = .ok a := by
  by_cases h : p <;> simp [require, h, bind, Except.bind]

theorem require_eq_error_iff {p : Prop} [Decidable p] {f g : Fault} :
    require p f = .error g ↔ ¬p ∧ f = g := by
  by_cases h : p <;> simp [require, h]

def decimal (n : Nat) : Text :=
  Nat.toDigits 10 n

def decimalInt : Int → Text
  | .ofNat n => decimal n
  | .negSucc n => '-' :: decimal (n + 1)

theorem decimal_ne_nil (n : Nat) : decimal n ≠ [] :=
  Nat.toDigits_ne_nil

theorem isDigit_of_mem_decimal {n : Nat} {c : Char} (h : c ∈ decimal n) :
    c.isDigit = true :=
  Nat.isDigit_of_mem_toDigits (by decide) (by decide) h

namespace Fault

def quoted (t : Text) : Text :=
  '"' :: t ++ ['"']

/-- A cause in words, with the whole of each value that they quote. -/
def words : Fault → Text
  | .nesting parent child =>
      parent.name ++ " cannot contain node '".toList ++ child.name ++ "'".toList
  | .unescaped => "escape=false is disabled in safe mode".toList
  | .nestedSequence owner =>
      owner.name ++ " content cannot contain a nested sequence".toList
  | .headingLevel level =>
      "heading level must be between 1 and 6, got ".toList ++ decimalInt level
  | .codeLanguage language =>
      "code block language must not contain backticks or line breaks: ".toList
        ++ quoted language
  | .listStart start =>
      "ordered list start must be a positive integer, got ".toList
        ++ decimalInt start
  | .checkCount flags items =>
      "checked list length must match items length, got ".toList
        ++ decimal flags ++ " flags for ".toList ++ decimal items
        ++ " items".toList
  | .listNumber start items =>
      "ordered list numbers must not exceed 999999999, got start ".toList
        ++ decimalInt start ++ " for ".toList ++ decimal items
        ++ " items".toList
  | .noColumns => "table must have at least 1 header column".toList
  | .alignmentCount given columns =>
      "alignment list must match number of columns, got ".toList
        ++ decimal given ++ " for ".toList ++ decimal columns
  | .alignment word =>
      "Invalid alignment value '".toList ++ word
        ++ "', must be left|center|right".toList
  | .rowWidth row width columns =>
      "table row ".toList ++ decimal row ++ " has ".toList ++ decimal width
        ++ " columns but headers have ".toList ++ decimal columns
  | .cellBreak none column =>
      "table header column ".toList ++ decimal column
        ++ " contains a line break".toList
  | .cellBreak (some row) column =>
      "table row ".toList ++ decimal row ++ " column ".toList ++ decimal column
        ++ " contains a line break".toList
  | .strongMark mark =>
      "strongDelimiter must be \"**\" or \"__\", got ".toList ++ quoted mark
  | .emphasisMark mark =>
      "emDelimiter must be \"*\" or \"_\", got ".toList ++ quoted mark
  | .bulletMark mark =>
      "bulletListMarker must be one of -, *, +, got ".toList ++ quoted mark
  | .ruleMark mark =>
      "hr is not a valid thematic break: ".toList ++ quoted mark
  | .noNode name => "no node is stored as ".toList ++ quoted name
  | .noWriter name => "no writer is stored as ".toList ++ quoted name

/-- The message of a fault. A message is read up to its first null character,
so a value that holds one is quoted no further, and nothing follows it. -/
def message (f : Fault) : Text :=
  f.words.takeWhile (· != '\x00')

theorem message_eq_words {f : Fault} (h : '\x00' ∉ f.words) :
    f.message = f.words := by
  have hall : ∀ c ∈ f.words, (c != '\x00') = true := by
    intro c hc
    have hne : c ≠ '\x00' := fun e => h (e ▸ hc)
    simpa using hne
  have happ := @List.takeWhile_append_of_pos _ (· != '\x00') f.words [] hall
  rw [List.append_nil, List.takeWhile_nil, List.append_nil] at happ
  exact happ

end Fault

end Markdown
