import Markdown.Proofs.Frames
import Markdown.Proofs.Lines

/-!
# Quotations, read back

A reader takes the mark off each line of a quotation: a mark by itself leaves an empty
line, and a mark with a space leaves what stands behind the space (`unquoteLine`). A
quotation shows every line of its body in one of these two ways, so a reader gets the
lines of the body back, apart from white space that has a line to itself or stands at the
end of the body (`blockquote_readable`).
-/

namespace Markdown

/-- A line of a quotation without its mark. A line without a mark is none. -/
def unquoteLine : Text → Option Text
  | ['>'] => some []
  | '>' :: ' ' :: line => some line
  | _ => none

theorem quoteLine_cases (l : Text) :
    l.all isBlank = true ∧ quoteLine l = ['>'] ∨
      l.all isBlank = false ∧ quoteLine l = '>' :: ' ' :: l := by
  cases h : l.all isBlank with
  | true => exact Or.inl ⟨rfl, if_pos h⟩
  | false => exact Or.inr ⟨rfl, if_neg (by simp [h])⟩

theorem unquoteLine_quoteLine (l : Text) :
    unquoteLine (quoteLine l) = some (if l.all isBlank then [] else l) := by
  rcases quoteLine_cases l with ⟨h, hquoted⟩ | ⟨h, hquoted⟩
  · rw [hquoted, if_pos h]
    rfl
  · rw [hquoted, if_neg (by simp [h])]
    rfl

theorem feed_notMem_quoteLine {l : Text} (h : '\n' ∉ l) : '\n' ∉ quoteLine l := by
  rcases quoteLine_cases l with ⟨-, hquoted⟩ | ⟨-, hquoted⟩
  · rw [hquoted]
    decide
  · rw [hquoted]
    simpa using h

theorem feed_notMem_of_mem_quoted {t line : Text} (h : line ∈ t.lines.map quoteLine) :
    '\n' ∉ line := by
  obtain ⟨l, hl, rfl⟩ := List.mem_map.mp h
  exact feed_notMem_quoteLine (Text.feed_notMem_of_mem_lines hl)

theorem splitOn_quote (t : Text) :
    (quote t).splitOn '\n' = t.trimEnd.lines.map quoteLine := by
  have hne : t.trimEnd.lines.map quoteLine ≠ [] := by
    simpa using Text.lines_ne_nil t.trimEnd
  exact List.splitOn_intercalate '\n' (fun _ => feed_notMem_of_mem_quoted) hne

/-- **A quotation is read back.** Each of its lines is a mark by itself, or a mark, a space
and a line that is not blank. Without the marks these are the lines of its body, from which
the white space at the end is dropped, with nothing in the place of a blank line. -/
theorem blockquote_readable {w : Writer} {c : Content} {escape : Bool} {n : Node}
    (h : w.blockquote c escape = .ok n) :
    ∃ body quoted,
      Slot.fill { owner := .blockquote } escape c = .ok body ∧
      n.text = quoted ++ ['\n', '\n'] ∧
      (∀ line ∈ quoted.splitOn '\n', line = ['>'] ∨
        ∃ rest, line = '>' :: ' ' :: rest ∧ rest.all isBlank = false) ∧
      (quoted.splitOn '\n').map unquoteLine =
        body.text.trimEnd.lines.map fun l => some (if l.all isBlank then [] else l) := by
  obtain ⟨-, hbuild⟩ := require_bind_eq_ok_iff.mp h
  obtain ⟨body, hbody, hnode⟩ := bind_eq_ok_iff.mp hbuild
  obtain rfl := pure_eq_ok_iff.mp hnode
  refine ⟨body, quote body.text, hbody, rfl, ?_, ?_⟩
  · rw [splitOn_quote, List.forall_mem_map]
    intro l _
    exact (quoteLine_cases l).imp And.right fun ⟨hblank, hquoted⟩ => ⟨l, hquoted, hblank⟩
  · rw [splitOn_quote, List.map_map]
    exact List.map_congr_left fun l _ => unquoteLine_quoteLine l

/-- A body with blank lines from a literal and from a line break. The carriage return that
escaping leaves at the end of a line goes with the ending of that line. -/
theorem blockquote_readable_blanks :
    let c : Content := .sequence [.literal "*a*\r\n \n".toList, .node Node.lineBreak,
      .literal "b\r\r\n> c".toList, .node ⟨.text, " \n\t".toList, true⟩]
    let body : Text := "\\*a\\*\n \n  \nb\r\n\\> c \n\t".toList
    let quoted : Text := "> \\*a\\*\n>\n>\n> b\n> \\> c".toList
    Writer.blockquote {} c true = .ok ⟨.blockquote, quoted ++ ['\n', '\n'], true⟩ ∧
      Slot.fill { owner := .blockquote } true c = .ok ⟨body, true⟩ ∧
      (∀ line ∈ quoted.splitOn '\n', line = ['>'] ∨
        ∃ rest, line = '>' :: ' ' :: rest ∧ rest.all isBlank = false) ∧
      (quoted.splitOn '\n').map unquoteLine =
        ["\\*a\\*".toList, [], [], "b".toList, "\\> c".toList].map some := by
  intro c body quoted
  have hquote : Writer.blockquote {} c true =
      .ok ⟨.blockquote, quoted ++ ['\n', '\n'], true⟩ := rfl
  have hfill : Slot.fill { owner := .blockquote } true c = .ok ⟨body, true⟩ := rfl
  obtain ⟨body', quoted', hbody, htext, hlines, hread⟩ := blockquote_readable hquote
  obtain rfl : quoted = quoted' := List.append_cancel_right htext
  obtain rfl : (⟨body, true⟩ : Piece) = body' := Except.ok.inj (hfill.symm.trans hbody)
  exact ⟨hquote, hfill, hlines, hread⟩

end Markdown
