import Markdown.Frame
import Markdown.Writer

/-!
# Lists

The content of a list is its items in order. A sequence among them is a list
within the list: it belongs to the item before it, stands one step further in,
and is marked afresh.

- `Marking` is the state of the marks of one level. It says what the next item
  is marked with and what comes after it.
- `levelPieces` walks the items in reading order and gives one piece for each,
  so a sublist without items leaves no trace.
- The faults of a list as a whole come before those of its items.
-/

namespace Markdown

/-- How the items of one level are marked from some item on. A box without a flag is
not checked. -/
inductive Marking where
  | bullets (mark : Text)
  | numbers (next : Nat)
  | boxes (mark : Text) (checks : List Bool)
deriving DecidableEq, Repr

namespace Marking

def marker : Marking → Text
  | .bullets mark => mark ++ [' ']
  | .numbers next => decimal next ++ ['.', ' ']
  | .boxes mark checks =>
      mark ++ (if checks.headD false then " [x] " else " [ ] ").toList

/-- The marking after an element. Every element takes up a flag, but only an
item takes up a number. -/
def after (m : Marking) (c : Content) : Marking :=
  match m with
  | .bullets mark => .bullets mark
  | .numbers next => .numbers (if c.isItem then next + 1 else next)
  | .boxes mark checks => .boxes mark checks.tail

/-- The marking of a sublist: numbers start at one, and nothing is checked. -/
def sublist : Marking → Marking
  | .bullets mark => .bullets mark
  | .numbers _ => .numbers 1
  | .boxes mark _ => .boxes mark []

end Marking

def levelIndent (depth : Nat) : Text :=
  List.replicate (2 * depth) ' '

def hang (indent t : Text) : Text :=
  t.flatMap fun c => if c = '\n' then c :: indent else [c]

/-- The text of an item. White space around a node is dropped; a literal keeps
its own. -/
def itemBody (i : Item) (p : Piece) : Text :=
  match i with
  | .literal _ => p.text
  | .node _ => Text.trim p.text

/-- An item after its mark. Its further lines stand under its first. -/
def itemBlock (depth : Nat) (marker body : Text) : Text :=
  levelIndent depth ++ marker
    ++ hang (levelIndent depth ++ List.replicate marker.length ' ') body

mutual

/-- An element of a level: an item behind its mark, or a sublist one level
further in. -/
def elementPieces (slot : Slot) (escape : Bool) (depth : Nat) (m : Marking) :
    Content → Except Fault (List Piece)
  | .item i => do
      let p ← slot.item escape i
      return [⟨itemBlock depth m.marker (itemBody i p), p.escaped⟩]
  | .sequence inner => levelPieces slot escape (depth + 1) m.sublist inner

/-- The items of a level and of the levels within it, in reading order. -/
def levelPieces (slot : Slot) (escape : Bool) (depth : Nat) (m : Marking) :
    List Content → Except Fault (List Piece)
  | [] => .ok []
  | c :: rest => do
      let here ← elementPieces slot escape depth m c
      let later ← levelPieces slot escape depth (m.after c) rest
      return here ++ later

end

def writeList (kind : Kind) (m : Marking) (items : List Content) (escape : Bool) :
    Except Fault Node := do
  let slot : Slot := { owner := kind, context := .listItem }
  let body := Piece.join ['\n'] (← levelPieces slot escape 0 m items)
  return ⟨kind, body.text ++ blankLine, escape && body.escaped⟩

def maxNumber : Int := 999999999

namespace Writer

def bulletList (w : Writer) (c : Content) (escape : Bool) :
    Except Fault Node := do
  requireEscape w.safeMode escape
  writeList .bulletList (.bullets w.bullet) c.elements escape

/-- A numbered list. The top level counts from `start`. -/
def orderedList (w : Writer) (c : Content) (start : Int) (escape : Bool) :
    Except Fault Node := do
  require (1 ≤ start) (.listStart start)
  requireEscape w.safeMode escape
  let numbered := c.elements.countP (·.isItem)
  require (start + numbered - 1 ≤ maxNumber) (.listNumber start numbered)
  writeList .orderedList (.numbers start.toNat) c.elements escape

/-- A list of boxes. Flags, if there are any, go to the elements of the top
level one by one. -/
def checklist (w : Writer) (c : Content) (checks : Option (List Bool))
    (escape : Bool) : Except Fault Node := do
  requireEscape w.safeMode escape
  match checks with
  | none => writeList .checklist (.boxes w.bullet []) c.elements escape
  | some flags => do
      require (flags.length = c.elements.length)
        (.checkCount flags.length c.elements.length)
      writeList .checklist (.boxes w.bullet flags) c.elements escape

end Writer

end Markdown
