/-!
# Text

A text is the list of its characters. This file has the character classes
that the writer distinguishes, all of them within ASCII, and the operations on
lines and ends of a text:

- `lines` cuts at line feeds. A carriage return directly before a line feed
  belongs to the line ending; any other one stays in its line.
- `trim`, `trimEnd` and `chomp` drop white space, or line endings, at the ends.
- `longestRun` measures the longest unbroken run of one character.
-/

namespace Markdown

abbrev Text := List Char

/-- The six white-space characters of ASCII. A character outside ASCII is
never blank, whatever it looks like. -/
def isBlank (c : Char) : Bool :=
  c == ' ' || c == '\t' || c == '\n' || c == '\x0b' || c == '\x0c' || c == '\r'

def isBreak (c : Char) : Bool :=
  c == '\n' || c == '\r'

namespace Text

/-- The lines of a text, without their endings. A text always has at least one
line, and exactly one more than it has line feeds. -/
def lines : Text → List Text
  | [] => [[]]
  | '\r' :: '\n' :: rest => [] :: lines rest
  | '\n' :: rest => [] :: lines rest
  | c :: rest => (lines rest).modifyHead (c :: ·)

/-- The text of some lines, with a line feed between neighbours. -/
def unlines (ls : List Text) : Text :=
  ['\n'].intercalate ls

theorem lines_ne_nil (t : Text) : t.lines ≠ [] := by
  fun_induction lines t with
  | case1 => simp
  | case2 => simp
  | case3 => simp
  | case4 c rest _ _ ih => simpa [List.modifyHead_eq_nil_iff] using ih

/-- A text without the longest end whose characters all satisfy `p`. -/
def dropEndWhile (p : Char → Bool) (t : Text) : Text :=
  (t.reverse.dropWhile p).reverse

def trimEnd (t : Text) : Text :=
  t.dropEndWhile isBlank

def trim (t : Text) : Text :=
  trimEnd (t.dropWhile isBlank)

def chomp (t : Text) : Text :=
  t.dropEndWhile isBreak

/-- The length of the longest run of `c` in a text that follows `run` copies
of `c`, where `best` is the longest run seen earlier. -/
def longestRunFrom (c : Char) (run best : Nat) : Text → Nat
  | [] => max run best
  | d :: rest =>
    if d = c then longestRunFrom c (run + 1) best rest
    else longestRunFrom c 0 (max run best) rest

def longestRun (c : Char) (t : Text) : Nat :=
  longestRunFrom c 0 0 t

end Text

end Markdown
