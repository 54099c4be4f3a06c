import Markdown.Kinds

/-!
# Nesting

Which kinds of node may stand directly inside which. A kind that takes no
nodes accepts the empty set.
-/

namespace Markdown

namespace Kinds

/-- What the text of a link may hold. There is no link in it. -/
def linkText : Kinds :=
  ofList [.text, .bold, .italic, .code, .strikethrough]

def paragraph : Kinds :=
  linkText ∪ ofList [.image, .lineBreak]

/-- The kinds that stand on lines of their own. -/
def blocks : Kinds :=
  ofList [.paragraph, .heading, .bulletList, .orderedList, .checklist, .table,
    .blockquote, .codeBlock, .horizontalRule, .linkReference]

def listItem : Kinds :=
  paragraph ∪ ofList [.link, .referenceLink, .paragraph]

def tableCell : Kinds :=
  linkText ∪ ofList [.link, .referenceLink, .image]

end Kinds

namespace Kind

def accepts : Kind → Kinds
  | .bold => Kinds.ofList [.text, .italic, .code, .strikethrough, .link, .bold]
  | .italic => Kinds.ofList [.text, .bold, .code, .strikethrough, .link, .italic]
  | .strikethrough => Kinds.ofList [.text, .bold, .italic, .code, .link]
  | .link | .referenceLink | .heading => Kinds.linkText
  | .paragraph | .blockquote => Kinds.paragraph
  | .bulletList | .orderedList | .checklist => Kinds.listItem
  | .table => Kinds.tableCell
  | .document => Kinds.blocks ∪ Kinds.ofList [.empty]
  | .text | .code | .image | .lineBreak | .codeBlock | .horizontalRule
  | .linkReference | .empty => ∅

def isBlock (k : Kind) : Bool :=
  k ∈ Kinds.blocks

/-- What the kind of a given number accepts. A number without a kind accepts
nothing. -/
def acceptsAt (i : Int) : Kinds :=
  match ofIndex? i with
  | some k => k.accepts
  | none => ∅

end Kind

end Markdown
