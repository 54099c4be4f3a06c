import Markdown.Text

/-!
# Escaping

Literal text is written so that a Markdown reader shows it as it is.

- **Characters.** The eleven markup characters get a backslash, wherever they
  stand. The context then has a say: a table cell also hides its bars, and a
  link destination percent-encodes its spaces and parentheses.
- **Line starts.** A line that would open a heading, a bullet item or a
  numbered item gets one backslash more (`guardLine`).
- **Code** is shown as it stands, so nothing in it is escaped.
-/

namespace Markdown

inductive Context where
  | plain
  | url
  | tableCell
  | listItem
  | code
deriving DecidableEq, Repr

/-- The characters that can open or close a piece of markup within a line, and
the backslash itself. -/
def isMarkup (c : Char) : Bool :=
  ['\\', '*', '_', '\x60', '~', '[', ']', '(', ')', '<', '>', '&'].contains c

/-- A character as running text spells it: a markup character follows a
backslash. -/
def spellMarkup (c : Char) : Text :=
  if isMarkup c then ['\\', c] else [c]

/-- What a context writes for a character on top of the rule for running
text. -/
def Context.replace : Context → Char → Text
  | .tableCell, '|' => ['\\', '|']
  | .url, ' ' => ['%', '2', '0']
  | .url, '(' => ['%', '2', '8']
  | .url, ')' => ['%', '2', '9']
  | _, c => [c]

def escapeMarkup (t : Text) : Text :=
  t.flatMap spellMarkup

def startsMarked : Text → Bool
  | '#' :: _ => true
  | '-' :: ' ' :: _ => true
  | '+' :: ' ' :: _ => true
  | _ => false

/-- Whether a text goes on as a numbered item does after its digits: with a
full stop and white space. -/
def startsStop : Text → Bool
  | '.' :: c :: _ => isBlank c
  | _ => false

/-- Whether a line starts as a numbered item does, whatever the number of its
digits. -/
def startsNumbered (line : Text) : Bool :=
  !(line.takeWhile Char.isDigit).isEmpty
    && startsStop (line.dropWhile Char.isDigit)

/-- A line with a backslash where it would open a block: before the mark of a
heading or bullet item, and before the full stop of a numbered item. -/
def guardLine (line : Text) : Text :=
  if startsMarked line then
    '\\' :: line
  else if startsNumbered line then
    line.takeWhile Char.isDigit ++ '\\' :: line.dropWhile Char.isDigit
  else
    line

/-- The characters of a text as a context spells them, before any line start is
guarded. -/
def Context.spell (ctx : Context) (t : Text) : Text :=
  (escapeMarkup t).flatMap ctx.replace

/-- A literal text as it is written in a context. Line starts are guarded in
the text as spelled, whose lines come out with plain line feeds. -/
def Context.escape (ctx : Context) (t : Text) : Text :=
  match ctx with
  | .code => t
  | ctx => Text.unlines ((ctx.spell t).lines.map guardLine)

end Markdown
