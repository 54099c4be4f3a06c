import Markdown.Proofs.Escaping

/-!
# Block starts, read

A reader ends a line at a carriage return as well, takes up to three spaces before
the mark of a heading or a list item, and a tab after it (`StartsBlock`). The guard
knows lines that end with a line feed, and marks at their very start. So a reader
meets a block in an escaped text at the lines that start one and that the guard does
not see, and nowhere else (`startsBlock_escape_iff`): behind spaces, at a bullet
before a tab, and after a carriage return.
-/

namespace Markdown

/-- The lines of a text for a reader, to whom a carriage return by itself is a line
ending too. -/
def Text.readerLines (t : Text) : List Text :=
  t.lines.flatMap (·.splitOn '\r')

def Spaced (t : Text) : Prop :=
  [' '] <+: t ∨ ['\t'] <+: t

/-- From one to six number signs. -/
def HeadingMark (mark : Text) : Prop :=
  ∃ level, 1 ≤ level ∧ level ≤ 6 ∧ mark = List.replicate level '#'

/-- A dash, a plus sign, or up to nine digits and a full stop. -/
def ItemMark (mark : Text) : Prop :=
  mark = ['-'] ∨ mark = ['+'] ∨
    ∃ digits, digits ≠ [] ∧ digits.length ≤ 9 ∧ (∀ d ∈ digits, d.isDigit = true) ∧
      mark = digits ++ ['.']

/-- A line starts a heading or a list item: up to three spaces, a mark, and white
space after it. A heading may also end with its mark. -/
def StartsBlock (line : Text) : Prop :=
  ∃ indent mark rest, indent ≤ 3 ∧ line = (List.replicate indent ' ' ++ mark) ++ rest ∧
    (HeadingMark mark ∧ (rest = [] ∨ Spaced rest) ∨ ItemMark mark ∧ Spaced rest)

/-- The starts that the guard does not know: a space, and a bullet before a tab. -/
def PassesGuard (line : Text) : Prop :=
  [' '] <+: line ∨ ['-', '\t'] <+: line ∨ ['+', '\t'] <+: line

instance : DecidablePred PassesGuard := fun _ =>
  inferInstanceAs (Decidable (_ ∨ _ ∨ _))

theorem PassesGuard.append {line : Text} (h : PassesGuard line) (t : Text) :
    PassesGuard (line ++ t) :=
  h.imp (·.trans (List.prefix_append line t))
    (Or.imp (·.trans (List.prefix_append line t)) (·.trans (List.prefix_append line t)))

theorem mark_isOpening {mark : Text} (h : HeadingMark mark ∨ ItemMark mark) :
    (∀ c ∈ mark, isOpening c = true) ∧ ∃ c ∈ mark, c.isDigit = false := by
  rcases h with ⟨level, hlevel, -, rfl⟩ | rfl | rfl | ⟨digits, -, -, hdigits, rfl⟩
  · constructor
    · intro c hc
      obtain rfl := List.eq_of_mem_replicate hc
      decide
    · exact ⟨'#', List.mem_replicate.mpr ⟨by omega, rfl⟩, by decide⟩
  · exact ⟨List.all_eq_true.mp rfl, '-', List.mem_cons_self, by decide⟩
  · exact ⟨List.all_eq_true.mp rfl, '+', List.mem_cons_self, by decide⟩
  · constructor
    · intro c hc
      rcases List.mem_append.mp hc with hc | hc
      · simp [isOpening, hdigits c hc]
      · obtain rfl := List.mem_singleton.mp hc
        decide
    · exact ⟨'.', List.mem_append_right _ List.mem_cons_self, by decide⟩

theorem indent_isOpening (indent : Nat) {mark : Text}
    (h : HeadingMark mark ∨ ItemMark mark) :
    ∀ c ∈ List.replicate indent ' ' ++ mark, isOpening c = true := by
  intro c hc
  rcases List.mem_append.mp hc with hc | hc
  · obtain rfl := List.eq_of_mem_replicate hc
    decide
  · exact (mark_isOpening h).1 c hc

/-! ## Against the guard -/

theorem not_opensBlock_of_passesGuard {line : Text} (h : PassesGuard line) :
    ¬OpensBlock line := by
  rw [opensBlock_iff]
  rcases h with ⟨t, rfl⟩ | ⟨t, rfl⟩ | ⟨t, rfl⟩ <;>
    simp [startsMarked, startsNumbered]

theorem opensBlock_of_startsBlock {line : Text} (h : StartsBlock line)
    (hguard : ¬PassesGuard line) : OpensBlock line := by
  obtain ⟨indent, mark, rest, -, rfl, hmark⟩ := h
  cases indent with
  | succ indent => exact absurd (Or.inl ⟨_, rfl⟩) hguard
  | zero =>
      rw [List.replicate_zero, List.nil_append] at hguard ⊢
      rcases hmark with ⟨⟨level, hlevel, -, rfl⟩, -⟩ | ⟨hitem, hspaced⟩
      · obtain ⟨level, rfl⟩ := Nat.exists_eq_add_of_le' hlevel
        exact Or.inl ⟨_, rfl⟩
      · obtain ⟨c, t, hc, rfl⟩ : ∃ c t, (c = ' ' ∨ c = '\t') ∧ rest = c :: t := by
          rcases hspaced with ⟨t, rfl⟩ | ⟨t, rfl⟩
          · exact ⟨' ', t, Or.inl rfl, rfl⟩
          · exact ⟨'\t', t, Or.inr rfl, rfl⟩
        rcases hitem with rfl | rfl | ⟨digits, hne, -, hdigits, rfl⟩
        · rcases hc with rfl | rfl
          · exact Or.inr (Or.inl ⟨t, rfl⟩)
          · exact absurd (Or.inr (Or.inl ⟨t, rfl⟩)) hguard
        · rcases hc with rfl | rfl
          · exact Or.inr (Or.inr (Or.inl ⟨t, rfl⟩))
          · exact absurd (Or.inr (Or.inr ⟨t, rfl⟩)) hguard
        · refine Or.inr (Or.inr (Or.inr ⟨digits, c, hne, hdigits, ?_, t, by simp⟩))
          rcases hc with rfl | rfl <;> decide

theorem not_startsBlock_of_backslash {digits : Text}
    (h : ∀ d ∈ digits, d.isDigit = true) (t : Text) :
    ¬StartsBlock (digits ++ '\\' :: t) := by
  rintro ⟨indent, mark, rest, -, heq, hcases⟩
  have hmark : HeadingMark mark ∨ ItemMark mark := hcases.imp And.left And.left
  have hbackslash : '\\' ∉ List.replicate indent ' ' ++ mark := fun hmem =>
    absurd (indent_isOpening indent hmark _ hmem) (by decide)
  have hwithin : List.replicate indent ' ' ++ mark <+: digits :=
    prefix_of_prefix_append_cons hbackslash ⟨rest, heq.symm⟩
  obtain ⟨c, hc, hdigit⟩ := (mark_isOpening hmark).2
  rw [h c (hwithin.subset (List.mem_append_right _ hc))] at hdigit
  exact absurd hdigit (by decide)

theorem splitOn_guardLine {l : Text} (h : OpensBlock l) :
    ∃ guarded, (guardLine l).splitOn '\r' = guarded :: (l.splitOn '\r').tail ∧
      ¬StartsBlock guarded := by
  obtain ⟨digits, c, after, rfl, hguard, hdigits, hc⟩ := digits_of_opensBlock h
  have hbefore : '\r' ∉ digits := fun hmem => absurd (hdigits _ hmem) (by decide)
  have hreturn : '\r' ∉ [c] := by
    rw [List.mem_singleton]
    rintro rfl
    exact absurd hc (by decide)
  obtain ⟨first, rest, hsplit⟩ :=
    List.exists_cons_of_ne_nil (List.splitOn_ne_nil '\r' after)
  have hplain : (c :: after).splitOn '\r' = (c :: first) :: rest := by
    rw [← List.singleton_append, Text.splitOn_append_of_notMem hreturn, hsplit]
    rfl
  refine ⟨digits ++ '\\' :: c :: first, ?_, not_startsBlock_of_backslash hdigits _⟩
  have hbackslash : '\r' ∉ ['\\'] := by decide
  rw [hguard, Text.splitOn_append_of_notMem hbefore, Text.splitOn_append_of_notMem hbefore,
    ← List.singleton_append, Text.splitOn_append_of_notMem hbackslash, hplain]
  rfl

/-- **What passes the guard.** Of the starts in a line of the writer, the guard stops
the one at the start of the line, if it knows it. -/
theorem startsBlock_guardLine_iff {l k : Text} :
    k ∈ (guardLine l).splitOn '\r' ∧ StartsBlock k ↔
      StartsBlock k ∧ (k ∈ (l.splitOn '\r').tail ∨
        k ∈ (l.splitOn '\r').head? ∧ PassesGuard k) := by
  by_cases hopens : OpensBlock l
  · obtain ⟨guarded, hsplit, hguarded⟩ := splitOn_guardLine hopens
    rw [hsplit, List.mem_cons]
    constructor
    · rintro ⟨rfl | hk, hstarts⟩
      · exact absurd hstarts hguarded
      · exact ⟨hstarts, Or.inl hk⟩
    · rintro ⟨hstarts, hk | ⟨hk, hpasses⟩⟩
      · exact ⟨Or.inr hk, hstarts⟩
      · obtain ⟨t, rfl⟩ := Text.prefix_of_mem_head?_splitOn hk
        exact absurd hopens (not_opensBlock_of_passesGuard (hpasses.append t))
  · rw [guardLine_of_not_opensBlock hopens]
    obtain ⟨first, rest, hsplit⟩ :=
      List.exists_cons_of_ne_nil (List.splitOn_ne_nil '\r' l)
    rw [hsplit, List.mem_cons, List.tail_cons, List.head?_cons]
    constructor
    · rintro ⟨rfl | hk, hstarts⟩
      · refine ⟨hstarts, Or.inr ⟨rfl, ?_⟩⟩
        refine Decidable.by_contra fun hguard => hopens ?_
        obtain ⟨t, rfl⟩ := Text.prefix_of_mem_head?_splitOn (by rw [hsplit]; rfl)
        exact (opensBlock_of_startsBlock hstarts hguard).append t
      · exact ⟨hstarts, Or.inl hk⟩
    · rintro ⟨hstarts, hk | ⟨hk, -⟩⟩
      · exact ⟨Or.inr hk, hstarts⟩
      · exact ⟨Or.inl (Option.mem_some_iff.mp hk).symm, hstarts⟩

section Spelled

variable {ctx : Context} (hurl : ctx ≠ .url) {t : Text}
include hurl

theorem spaced_spell_iff : Spaced (ctx.spell t) ↔ Spaced t :=
  or_congr (Context.prefix_spell_iff hurl (by decide))
    (Context.prefix_spell_iff hurl (by decide))

theorem passesGuard_spell_iff : PassesGuard (ctx.spell t) ↔ PassesGuard t :=
  or_congr (Context.prefix_spell_iff hurl (by decide))
    (or_congr (Context.prefix_spell_iff hurl (by decide))
      (Context.prefix_spell_iff hurl (by decide)))

theorem startsBlock_spell_iff : StartsBlock (ctx.spell t) ↔ StartsBlock t := by
  constructor
  · rintro ⟨indent, mark, rest, hindent, heq, hcases⟩
    have hmark : HeadingMark mark ∨ ItemMark mark := hcases.imp And.left And.left
    obtain ⟨r, rfl, rfl⟩ :=
      (Context.spell_eq_append_iff hurl (indent_isOpening indent hmark)).mp heq
    rw [Context.spell_eq_nil_iff, spaced_spell_iff hurl] at hcases
    exact ⟨indent, mark, r, hindent, rfl, hcases⟩
  · rintro ⟨indent, mark, rest, hindent, rfl, hcases⟩
    have hmark : HeadingMark mark ∨ ItemMark mark := hcases.imp And.left And.left
    have heq : ctx.spell (List.replicate indent ' ' ++ mark ++ rest) =
        List.replicate indent ' ' ++ mark ++ ctx.spell rest :=
      (Context.spell_eq_append_iff hurl (indent_isOpening indent hmark)).mpr
        ⟨rest, rfl, rfl⟩
    rw [← @Context.spell_eq_nil_iff ctx, ← spaced_spell_iff hurl] at hcases
    exact ⟨indent, mark, ctx.spell rest, hindent, heq, hcases⟩

theorem startsBlock_escapeLine_iff {l line : Text} :
    line ∈ (ctx.escapeLine l).splitOn '\r' ∧ StartsBlock line ↔
      ∃ k, line = ctx.spell k ∧ StartsBlock k ∧
        (k ∈ (l.splitOn '\r').tail ∨ k ∈ (l.splitOn '\r').head? ∧ PassesGuard k) := by
  rw [Context.escapeLine, startsBlock_guardLine_iff, Context.splitOn_spell_return,
    ← List.map_tail, List.head?_map]
  constructor
  · rintro ⟨hstarts, hline | ⟨hline, hpasses⟩⟩
    · obtain ⟨k, hk, rfl⟩ := List.mem_map.mp hline
      exact ⟨k, rfl, (startsBlock_spell_iff hurl).mp hstarts, Or.inl hk⟩
    · obtain ⟨k, hk, rfl⟩ := Option.map_eq_some_iff.mp hline
      exact ⟨k, rfl, (startsBlock_spell_iff hurl).mp hstarts,
        Or.inr ⟨hk, (passesGuard_spell_iff hurl).mp hpasses⟩⟩
  · rintro ⟨k, rfl, hstarts, hk | ⟨hk, hpasses⟩⟩
    · exact ⟨(startsBlock_spell_iff hurl).mpr hstarts, Or.inl (List.mem_map_of_mem hk)⟩
    · exact ⟨(startsBlock_spell_iff hurl).mpr hstarts,
        Or.inr ⟨Option.mem_map_of_mem _ hk, (passesGuard_spell_iff hurl).mpr hpasses⟩⟩

end Spelled

/-! ## Escaped texts -/

theorem StartsBlock.ne_nil {line : Text} (h : StartsBlock line) : line ≠ [] := by
  obtain ⟨indent, mark, rest, -, rfl, hcases⟩ := h
  obtain ⟨c, hc, -⟩ := (mark_isOpening (hcases.imp And.left And.left)).2
  exact List.ne_nil_of_mem (List.mem_append_left rest (List.mem_append_right _ hc))

/-- A reader finds a line in joined lines where the writer has put it, unless there is
nothing in it. -/
theorem mem_readerLines_unlines_iff {ls : List Text} (hls : ls ≠ [])
    (hfeed : ∀ l ∈ ls, '\n' ∉ l) {k : Text} (hk : k ≠ []) :
    k ∈ (Text.unlines ls).readerLines ↔ ∃ l ∈ ls, k ∈ l.splitOn '\r' := by
  obtain ⟨ls, last, rfl⟩ : ∃ init last, ls = init ++ [last] :=
    ⟨ls.dropLast, ls.getLast hls, (List.dropLast_concat_getLast hls).symm⟩
  obtain ⟨hinit, hlast⟩ := List.forall_mem_append.mp hfeed
  rw [Text.readerLines, Text.lines_unlines hinit (hlast last List.mem_cons_self),
    List.flatMap_append, List.flatMap_map, List.mem_append]
  simp only [List.mem_flatMap, Text.mem_splitOn_dropReturn hk, List.mem_append,
    or_and_right, exists_or]

/-- **What escaping leaves to a reader.** A line of an escaped text starts a block for
a reader exactly if a line of the text does that comes after a carriage return, or that
starts with a space or is a bullet before a tab. -/
theorem startsBlock_escape_iff {ctx : Context}
    (h : ctx ∈ [Context.plain, .listItem, .tableCell]) (t line : Text) :
    line ∈ (ctx.escape t).readerLines ∧ StartsBlock line ↔
      ∃ l ∈ t.lines, ∃ k, line = ctx.spell k ∧ StartsBlock k ∧
        (k ∈ (l.splitOn '\r').tail ∨ k ∈ (l.splitOn '\r').head? ∧ PassesGuard k) := by
  obtain ⟨hcode, hurl⟩ : ctx ≠ .code ∧ ctx ≠ .url := by
    revert ctx
    decide
  have hne : t.lines.map ctx.escapeLine ≠ [] := by
    simpa using Text.lines_ne_nil t
  have hfeed : ∀ l ∈ t.lines.map ctx.escapeLine, '\n' ∉ l := fun _ =>
    Context.feed_notMem_of_mem_escapedLines
  rw [Context.escape_eq_unlines hcode]
  constructor
  · rintro ⟨hline, hstarts⟩
    obtain ⟨_, hescaped, hmem⟩ :=
      (mem_readerLines_unlines_iff hne hfeed hstarts.ne_nil).mp hline
    obtain ⟨l, hl, rfl⟩ := List.mem_map.mp hescaped
    exact ⟨l, hl, (startsBlock_escapeLine_iff hurl).mp ⟨hmem, hstarts⟩⟩
  · rintro ⟨l, hl, hk⟩
    obtain ⟨hmem, hstarts⟩ := (startsBlock_escapeLine_iff hurl).mpr hk
    exact ⟨(mem_readerLines_unlines_iff hne hfeed hstarts.ne_nil).mpr
      ⟨_, List.mem_map_of_mem hl, hmem⟩, hstarts⟩

/-- A heading after a carriage return, in a cell: the line before it is guarded. -/
theorem startsBlock_escape_return :
    let t := "1. a\r# b|".toList
    Context.tableCell ∈ [Context.plain, .listItem, .tableCell] ∧
    Context.tableCell.escape t = "1\\. a\r# b\\|".toList ∧
    "# b\\|".toList ∈ (Context.tableCell.escape t).readerLines ∧
    StartsBlock "# b\\|".toList := by
  refine ⟨by decide, rfl, (startsBlock_escape_iff (by decide) _ _).mpr ?_⟩
  refine ⟨"1. a\r# b|".toList, by decide, "# b|".toList, rfl, ?_, Or.inl (by decide)⟩
  exact ⟨0, ['#'], " b|".toList, by decide, rfl,
    Or.inl ⟨⟨1, by decide, by decide, rfl⟩, Or.inr (Or.inl ⟨_, rfl⟩)⟩⟩

/-- Escaped text does open headings and list items for a reader. -/
theorem escape_misses_starts :
    ¬∀ ctx ∈ [Context.plain, .listItem, .tableCell], ∀ t,
      ∀ line ∈ (ctx.escape t).readerLines, ¬StartsBlock line := by
  intro h
  apply h .plain (by decide) " # a".toList " # a".toList (by decide)
  exact ⟨1, ['#'], " a".toList, by decide, rfl,
    Or.inl ⟨⟨1, by decide, by decide, rfl⟩, Or.inr (Or.inl ⟨_, rfl⟩)⟩⟩

end Markdown
