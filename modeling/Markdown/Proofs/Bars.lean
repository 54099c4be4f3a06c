import Mathlib.Algebra.Ring.Parity
import Mathlib.Data.List.DropRight
import Markdown.Proofs.Columns

/-!
# Bars, hidden once

A bar parts two cells if an even number of backslashes stands directly before it.
`escapeBars` keeps count of the backslashes in the text that it reads, and puts others
into the text that it writes. The two counts agree, since the run before a bar is odd
exactly if a backslash at its end waits for the bar (`closed_iff_even_endRun`).

So a text whose bars are hidden is a fixed point of `escapeBars` (`escapeBars_eq_self`).
What `escapeBars` makes is such a text, and so is what is escaped for a cell, whether
it stands by itself or between others of its kind (`bars_hidden_once`).
-/

namespace Markdown

namespace Text

/-- The number of backslashes that stand at the end of a text, without any other
character between or after them. -/
def endRun (t : Text) : Nat :=
  (t.rtakeWhile (· == '\\')).length

theorem endRun_concat_backslash (t : Text) : endRun (t ++ ['\\']) = t.endRun + 1 := by
  rw [endRun, List.rtakeWhile_concat_pos _ _ _ rfl, List.length_append]
  rfl

theorem endRun_concat_of_ne {c : Char} (hc : c ≠ '\\') (t : Text) : endRun (t ++ [c]) = 0 := by
  rw [endRun, List.rtakeWhile_concat_neg _ _ _ (by simpa using hc)]
  rfl

/-- A backslash at the end waits for a character, unless it is one that another has
waited for. -/
theorem closed_concat_backslash_iff (t : Text) : Closed (t ++ ['\\']) ↔ ¬t.Closed := by
  fun_induction glyphs t with
  | case1 => decide
  | case2 => decide
  | case3 c rest ih => simpa [Closed] using ih
  | case4 c rest hlast hpair ih =>
      simpa [Closed, glyphs_cons (ne_backslash hlast hpair)] using ih

/-- **A text is closed if the run of backslashes at its end is even.** -/
theorem closed_iff_even_endRun (t : Text) : t.Closed ↔ Even t.endRun := by
  induction t using List.reverseRecOn with
  | nil => exact iff_of_true closed_nil Even.zero
  | append_singleton t c ih =>
      by_cases hc : c = '\\'
      · subst hc
        rw [closed_concat_backslash_iff, endRun_concat_backslash, ih, Nat.even_add_one]
      · exact iff_of_true (closed_concat hc t) (by simp [endRun_concat_of_ne hc])

theorem BarsHidden.odd_endRun {before after : Text}
    (h : BarsHidden (before ++ '|' :: after)) : Odd before.endRun := by
  rw [← Nat.not_even_iff_odd, ← closed_iff_even_endRun]
  intro hclosed
  apply h
  rw [glyphs_append hclosed, glyphs_cons (by decide)]
  exact List.mem_append_right _ List.mem_cons_self

theorem Inert.barsHidden {t : Text} (h : t.Inert .tableCell) : t.BarsHidden :=
  fun hmem => (h (.bare '|') hmem).2 rfl rfl

/-- One text is another with a backslash put directly before some of its bars, at most
one before each. -/
inductive GuardsBars : Text → Text → Prop
  | nil : GuardsBars [] []
  | keep (c : Char) {s t : Text} (h : GuardsBars s t) : GuardsBars (c :: s) (c :: t)
  | guard {s t : Text} (h : GuardsBars s t) : GuardsBars ('|' :: s) ('\\' :: '|' :: t)

end Text

theorem guardsBars_escapeBarsFrom (escaped : Bool) (t : Text) :
    t.GuardsBars (escapeBarsFrom escaped t) := by
  fun_induction escapeBarsFrom escaped t with
  | case1 => exact .nil
  | case2 escaped c rest hbar ih =>
      obtain ⟨rfl, -⟩ := hbar
      exact .guard ih
  | case3 escaped c rest hbar ih => exact .keep c ih

/-- **Hidden bars are left as they are.** -/
theorem escapeBars_eq_self {t : Text} (h : t.BarsHidden) : escapeBars t = t := by
  fun_induction Text.glyphs t with
  | case1 => rfl
  | case2 => rfl
  | case3 c rest ih =>
      rw [escapeBars_backslash, ih fun hmem => h (List.mem_cons_of_mem _ hmem)]
  | case4 c rest hlast hpair ih =>
      have hc : c ≠ '\\' := Text.ne_backslash hlast hpair
      rw [Text.BarsHidden, Text.glyphs_cons hc, List.mem_cons, not_or] at h
      obtain ⟨hfirst, hrest⟩ := h
      have hbar : c ≠ '|' := by
        rintro rfl
        exact hfirst rfl
      rw [escapeBars_cons hc hbar, ih hrest]

/-- **Every bar of a cell is hidden, and only once.** In a text whose bars have been
escaped, an odd number of backslashes stands directly before each bar. It is the text
itself with backslashes put directly before some of its bars. A second time changes
nothing, and neither does the first if the text is made of texts that were escaped for a
cell. -/
theorem bars_hidden_once (t : Text) :
    (∀ before after, escapeBars t = before ++ '|' :: after → Odd before.endRun) ∧
      t.GuardsBars (escapeBars t) ∧ escapeBars (escapeBars t) = escapeBars t ∧
      ∀ ts : List Text, t = ts.flatMap Context.tableCell.escape → escapeBars t = t := by
  have hhidden := barsHidden_escapeBars t
  refine ⟨fun before after heq => ?_, guardsBars_escapeBarsFrom false t,
    escapeBars_eq_self hhidden, ?_⟩
  · rw [heq] at hhidden
    exact hhidden.odd_endRun
  · rintro ts rfl
    have hinert : Text.Inert .tableCell (ts.flatMap Context.tableCell.escape) :=
      Text.inert_flatMap fun u _ => Context.inert_escape (by decide) u
    exact escapeBars_eq_self hinert.barsHidden

/-- The first bar is hidden already, the second one stands after a pair of backslashes,
and the last one gets the first backslash before it. The two literals bring a bar and the
start of an item along. -/
theorem bars_hidden_once_runs :
    let t : Text := "a\\|b\\\\|c|".toList
    let ts : List Text := ["1. |\\".toList, "|".toList]
    escapeBars t = "a\\|b\\\\\\|c\\|".toList ∧
      ts.flatMap Context.tableCell.escape = "1\\. \\|\\\\\\|".toList ∧
      Odd (Text.endRun "a\\|b\\\\\\".toList) ∧
      escapeBars "1\\. \\|\\\\\\|".toList = "1\\. \\|\\\\\\|".toList := by
  intro t ts
  have hescape : escapeBars t = "a\\|b\\\\\\".toList ++ '|' :: "c\\|".toList := rfl
  have hcells : "1\\. \\|\\\\\\|".toList = ts.flatMap Context.tableCell.escape := rfl
  exact ⟨hescape, hcells.symm, (bars_hidden_once t).1 _ _ hescape,
    (bars_hidden_once _).2.2.2 ts hcells⟩

end Markdown
