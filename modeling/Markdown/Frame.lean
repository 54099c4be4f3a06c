import Markdown.Escape
import Markdown.Fault
import Markdown.Nesting
import Markdown.Node

/-!
# Frames

Most nodes are made by one recipe: write each item of the content, put the
pieces one after the other, and set the result between an opening and a
closing text.

- A `Slot` is a place that content is written to. It knows the kind that is
  being made, the kinds of node it accepts, and the context of its literals.
- A `Frame` is a slot with the texts around it, and with a last step on the
  body for the nodes whose delimiters depend on it.
- A `Piece` is what an item turns into.

The first fault decides. Safe mode comes before the shape of the content, and
the shape of the whole content before any of its nodes.
-/

namespace Markdown

/-- Written text, and whether everything in it was escaped. -/
structure Piece where
  text : Text
  escaped : Bool
deriving DecidableEq, Repr

/-- Several pieces as one, with a text between neighbours. It is escaped if
all of them are. -/
def Piece.join (separator : Text) (ps : List Piece) : Piece where
  text := separator.intercalate (ps.map (·.text))
  escaped := ps.all (·.escaped)

/-- The end of a block: the end of its last line, and a blank line. -/
def blankLine : Text := ['\n', '\n']

structure Slot where
  owner : Kind
  accepts : Kinds := owner.accepts
  context : Context := .plain

def Content.items (owner : Kind) (c : Content) : Except Fault (List Item) :=
  c.elements.mapM fun
    | .item i => .ok i
    | .sequence _ => .error (.nestedSequence owner)

namespace Slot

def allow (slot : Slot) (child : Kind) : Except Fault Unit :=
  require (child ∈ slot.accepts) (.nesting slot.owner child)

/-- Writes one item. A literal is escaped on demand and says so; a node brings
its text and its own flag along. -/
def item (slot : Slot) (escape : Bool) : Item → Except Fault Piece
  | .literal t => .ok ⟨if escape then slot.context.escape t else t, escape⟩
  | .node n => do
      slot.allow n.kind
      return ⟨n.text, n.escaped⟩

def element (slot : Slot) (escape : Bool) : Content → Except Fault Piece
  | .item i => slot.item escape i
  | .sequence _ => .error (.nestedSequence slot.owner)

/-- Writes a content, its pieces one after the other. Without any piece the
demand itself decides whether the result counts as escaped. -/
def fill (slot : Slot) (escape : Bool) (c : Content) : Except Fault Piece := do
  let items ← c.items slot.owner
  let pieces ← items.mapM (slot.item escape)
  let body := Piece.join [] pieces
  return { body with escaped := escape && body.escaped }

end Slot

/-- In safe mode everything has to be escaped. -/
def requireEscape (safe escape : Bool) : Except Fault Unit :=
  require (escape = true ∨ safe = false) .unescaped

/-- How a kind of node is made from its content. -/
structure Frame extends Slot where
  opening : Text
  closing : Text
  finish : Text → Text := id

def Frame.build (f : Frame) (safe : Bool) (c : Content) (escape : Bool) :
    Except Fault Node := do
  requireEscape safe escape
  let body ← f.fill escape c
  return {
    kind := f.owner
    text := f.opening ++ f.finish body.text ++ f.closing
    escaped := body.escaped
  }

end Markdown
