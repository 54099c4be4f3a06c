import Markdown.Expr
import Markdown.Writer.Block
import Markdown.Writer.Span
import Markdown.Writer.Listing
import Markdown.Writer.Table

/-!
# Evaluation

A writer makes the node that an expression describes. Arguments come before
the constructor that takes them, from left to right, so the first fault on that
way is the fault of the whole. In a table the header comes before the rows.
-/

namespace Markdown

def Fixed.make (w : Writer) : Fixed → Node
  | .lineBreak => Node.lineBreak
  | .empty => Node.empty
  | .horizontalRule => w.horizontalRule
  | .linkReference label url => Node.linkReference label url

def Leaf.make (w : Writer) (escape : Bool) : Leaf → Except Fault Node
  | .text t => w.text t escape
  | .code t => w.code t escape
  | .image alt url => w.image alt url escape
  | .codeBlock t language => w.codeBlock t language escape

def Wrap.make (w : Writer) (c : Content) (escape : Bool) :
    Wrap → Except Fault Node
  | .bold => w.bold c escape
  | .italic => w.italic c escape
  | .strikethrough => w.strikethrough c escape
  | .link url => w.link c url escape
  | .referenceLink label => w.referenceLink c label escape
  | .paragraph => w.paragraph c escape
  | .heading level => w.heading level c escape
  | .blockquote => w.blockquote c escape

def ListStyle.make (w : Writer) (c : Content) (escape : Bool) :
    ListStyle → Except Fault Node
  | .bullets => w.bulletList c escape
  | .numbers start => w.orderedList c start escape
  | .boxes checks => w.checklist c checks escape

/-- The nodes that expressions may refer to by name. -/
abbrev Shelf := Text → Option Node

mutual

def Expr.eval (w : Writer) (shelf : Shelf) : Expr → Except Fault Node
  | .fixed node => .ok (node.make w)
  | .leaf leaf escape => leaf.make w escape
  | .wrap wrap content escape => do
      wrap.make w (← content.eval w shelf) escape
  | .list style items escape => do
      style.make w (← items.eval w shelf) escape
  | .table headers rows alignments escape => do
      let header ← evalOperands w shelf headers
      let body ← evalRows w shelf rows
      w.table header body alignments escape
  | .document children => do
      Node.document (← evalNodes w shelf children)
  | .stored name =>
      match shelf name with
      | some node => .ok node
      | none => .error (.noNode name)

def Operand.eval (w : Writer) (shelf : Shelf) : Operand → Except Fault Content
  | .literal t => .ok (.literal t)
  | .node e => Content.node <$> e.eval w shelf
  | .sequence elements => Content.sequence <$> evalOperands w shelf elements

def evalOperands (w : Writer) (shelf : Shelf) :
    List Operand → Except Fault (List Content)
  | [] => .ok []
  | o :: rest => do
      let c ← o.eval w shelf
      return c :: (← evalOperands w shelf rest)

def evalRows (w : Writer) (shelf : Shelf) :
    List (List Operand) → Except Fault (List (List Content))
  | [] => .ok []
  | row :: rest => do
      let cells ← evalOperands w shelf row
      return cells :: (← evalRows w shelf rest)

def evalNodes (w : Writer) (shelf : Shelf) :
    List Expr → Except Fault (List Node)
  | [] => .ok []
  | e :: rest => do
      let n ← e.eval w shelf
      return n :: (← evalNodes w shelf rest)

end

end Markdown
