import Markdown.Fence
import Markdown.Frame
import Markdown.Writer

/-!
# Blocks

The nodes that stand on lines of their own, apart from lists and tables. All
of them but the definition of a label end with a blank line.
-/

namespace Markdown

/-- A line within a quotation. A blank line is a bare mark, so that it does not
end the quotation. -/
def quoteLine (line : Text) : Text :=
  if line.all isBlank then ['>'] else '>' :: ' ' :: line

/-- A text as a quotation, line by line. White space at its end is dropped. -/
def quote (t : Text) : Text :=
  Text.unlines (t.trimEnd.lines.map quoteLine)

namespace Writer

def paragraph (w : Writer) (c : Content) (escape : Bool) : Except Fault Node :=
  Frame.build { owner := .paragraph, opening := [], closing := blankLine }
    w.safeMode c escape

def heading (w : Writer) (level : Int) (c : Content) (escape : Bool) :
    Except Fault Node := do
  require (1 ≤ level ∧ level ≤ 6) (.headingLevel level)
  Frame.build
    { owner := .heading, opening := List.replicate level.toNat '#' ++ [' '],
      closing := blankLine }
    w.safeMode c escape

/-- A quotation. It holds what a paragraph holds. -/
def blockquote (w : Writer) (c : Content) (escape : Bool) : Except Fault Node :=
  Frame.build
    { owner := .blockquote, opening := [], closing := blankLine,
      finish := quote }
    w.safeMode c escape

def codeBlock (w : Writer) (code language : Text) (escape : Bool) :
    Except Fault Node := do
  require (fitsFence language) (.codeLanguage language)
  Frame.build
    { owner := .codeBlock, context := .code, opening := [],
      closing := blankLine, finish := codeFence language }
    w.safeMode (.literal code) escape

def horizontalRule (w : Writer) : Node :=
  ⟨.horizontalRule, w.rule ++ blankLine, true⟩

end Writer

def Node.linkReference (label url : Text) : Node where
  kind := .linkReference
  text := ['['] ++ Context.url.escape label ++ [']', ':', ' ']
    ++ Context.url.escape url ++ ['\n']
  escaped := true

/-- A document of blocks and empty nodes, each without the line endings at its
end and on lines of its own. -/
def Node.document (children : List Node) : Except Fault Node := do
  let slot : Slot := { owner := .document }
  let pieces ← children.mapM fun n => do
    slot.allow n.kind
    return { text := n.text.chomp, escaped := n.escaped : Piece }
  let body := Piece.join ['\n'] pieces
  return ⟨.document, body.text, body.escaped⟩

end Markdown
