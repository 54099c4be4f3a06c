import Markdown.Kind

/-!
# Nodes and content

A node is a finished piece of Markdown: its kind, its text, and whether every
literal in it was escaped. Content is what a node is made from. It is one item,
which is literal text or a node, or a sequence of contents; only lists give a
meaning to a sequence inside a sequence.
-/

namespace Markdown

structure Node where
  kind : Kind
  text : Text
  escaped : Bool
deriving DecidableEq, Repr

inductive Item where
  | literal (text : Text)
  | node (node : Node)
deriving DecidableEq, Repr

inductive Content where
  | item (item : Item)
  | sequence (elements : List Content)
deriving Repr

namespace Content

def literal (t : Text) : Content := .item (.literal t)

def node (n : Node) : Content := .item (.node n)

/-- The elements of a sequence. Any other content is its own only element. -/
def elements : Content → List Content
  | .sequence es => es
  | c => [c]

def isItem : Content → Bool
  | .item _ => true
  | .sequence _ => false

end Content

/-- A character as the description of a node shows it: line endings, tabs and
quotation marks by an escape, and everything else, a backslash too, as it
is. -/
def visible : Char → Text
  | '\n' => ['\\', 'n']
  | '\r' => ['\\', 'r']
  | '\t' => ['\\', 't']
  | '"' => ['\\', '"']
  | c => [c]

def Node.describe (n : Node) : Text :=
  "Node(kind=".toList ++ n.kind.name
    ++ ", escaped=".toList ++ (if n.escaped then "true" else "false").toList
    ++ ", text=\"".toList ++ n.text.flatMap visible ++ "\")".toList

end Markdown
