import Markdown.Node

/-!
# Expressions

An expression describes a node before a writer has made it: which constructor,
with which arguments, each of them an expression in turn. The constructors fall
into groups by what they take.

- `Fixed` nodes take no content and no demand for escaping.
- A `Leaf` takes literal text.
- A `Wrap` takes content and surrounds it.
- A `ListStyle` takes the items of a list.
- Tables, documents, and nodes stored under a name stand by themselves.
-/

namespace Markdown

inductive Fixed where
  | lineBreak
  | empty
  | horizontalRule
  | linkReference (label url : Text)
deriving DecidableEq, Repr

inductive Leaf where
  | text (t : Text)
  | code (t : Text)
  | image (alt url : Text)
  | codeBlock (code language : Text)
deriving DecidableEq, Repr

inductive Wrap where
  | bold
  | italic
  | strikethrough
  | link (url : Text)
  | referenceLink (label : Text)
  | paragraph
  | heading (level : Int)
  | blockquote
deriving DecidableEq, Repr

inductive ListStyle where
  | bullets
  | numbers (start : Int)
  | boxes (checks : Option (List Bool))
deriving DecidableEq, Repr

mutual

/-- A node that is still to be made. -/
inductive Expr where
  | fixed (node : Fixed)
  | leaf (leaf : Leaf) (escape : Bool)
  | wrap (wrap : Wrap) (content : Operand) (escape : Bool)
  | list (style : ListStyle) (items : Operand) (escape : Bool)
  | table (headers : List Operand) (rows : List (List Operand))
      (alignments : List Text) (escape : Bool)
  | document (children : List Expr)
  | stored (name : Text)

/-- Content that is still to be made. -/
inductive Operand where
  | literal (text : Text)
  | node (expr : Expr)
  | sequence (elements : List Operand)

end

def Fixed.kind : Fixed → Kind
  | .lineBreak => .lineBreak
  | .empty => .empty
  | .horizontalRule => .horizontalRule
  | .linkReference .. => .linkReference

def Leaf.kind : Leaf → Kind
  | .text _ => .text
  | .code _ => .code
  | .image .. => .image
  | .codeBlock .. => .codeBlock

def Wrap.kind : Wrap → Kind
  | .bold => .bold
  | .italic => .italic
  | .strikethrough => .strikethrough
  | .link _ => .link
  | .referenceLink _ => .referenceLink
  | .paragraph => .paragraph
  | .heading _ => .heading
  | .blockquote => .blockquote

def ListStyle.kind : ListStyle → Kind
  | .bullets => .bulletList
  | .numbers _ => .orderedList
  | .boxes _ => .checklist

end Markdown
