import Markdown.Writer.Block
import Markdown.Writer.Span
import Markdown.Writer.Listing
import Markdown.Writer.Table

/-!
# A showcase

Release notes that use most constructors at once, written by several writers,
and two short demonstrations of content that is not escaped.
-/

namespace Markdown.Showcase

def lit (s : String) : Content := .literal s.toList

def notes (w : Writer) : Except Fault Node := do
  let title ← w.heading 1 (lit "Release notes for v2.0_rc1") true
  let many ← w.bold (lit "*many*") true
  let summary ← w.paragraph
    (.sequence [lit "Fixed ", .node many, lit " bugs.", .node Node.lineBreak,
      lit "Details below."])
    true
  let cell ← w.code "a|b".toList true
  let tables ← w.italic
    (.sequence [lit "Tables with ", .node cell, lit " cells"]) true
  let tracker ← w.referenceLink (lit "see the tracker") "issues".toList true
  let changes ← w.bulletList
    (.sequence [lit "Escaping of [brackets] & <angles>", .node tables,
      .sequence [lit "nested under the previous item", .node tracker]])
    true
  let tasks ← w.checklist (.sequence [lit "write docs", lit "ship it"])
    (some [true, false]) true
  let rules ← w.link (lit "hr") "https://spec.commonmark.org/".toList true
  let options ← w.table [lit "Option", lit "Values"]
    [[lit "bulletListMarker", lit "- * +"], [.node rules, lit "--- *** ___"]]
    ["left".toList, "center".toList] true
  let image ← w.image "image".toList "https://example.com/a (b).png".toList true
  let quotation ← w.blockquote
    (.sequence [lit "Quoted with an ", .node image]) true
  let program ← w.codeBlock
    "int main() \x7b\n    return 0;\n\x7d".toList "cpp".toList true
  Node.document
    [title, summary, changes, tasks, options, quotation, program,
      w.horizontalRule,
      Node.linkReference "issues".toList "https://example.com/issues".toList]

def demonstration (title : String) (w : Writer) : Except Fault Text := do
  let body ← notes (← w.check)
  return title.toList ++ '\n' :: body.text ++ ['\n', '\n']

/-- Content that is not escaped, and what becomes of its node. -/
def unescaped : Except Fault Text := do
  let w : Writer := {}
  let key ← w.text "<kbd>Ctrl</kbd>".toList false
  let node ← w.paragraph (.sequence [lit "Trusted ", .node key]) true
  return "**Unescaped fragment**\n".toList ++ node.text
    ++ "escaped: ".toList ++ (if node.escaped then "true" else "false").toList
    ++ ['\n', '\n']

/-- Content that is not escaped, in safe mode. Only a refusal is shown. -/
def refusal : Text :=
  match Writer.paragraph { safeMode := true } (lit "<kbd>Ctrl</kbd>") false with
  | .ok _ => []
  | .error f => "**Safe mode**\n".toList ++ f.message ++ ['\n']

def transcript : Except Fault Text := do
  let plain ← demonstration "**Defaults**" {}
  let rule ← demonstration "**HR Option: * * ***" { rule := "* * *".toList }
  let bullet ← demonstration "**Bullet List Marker: +**" { bullet := ['+'] }
  let marks ← demonstration "**Em/Strong Delimiters: _ and __**"
    { emphasis := ['_'], strong := ['_', '_'] }
  let fragment ← unescaped
  return plain ++ rule ++ bullet ++ marks ++ fragment ++ refusal

end Markdown.Showcase
