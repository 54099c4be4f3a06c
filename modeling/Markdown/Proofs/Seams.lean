import Markdown.Proofs.Escaping
import Markdown.Proofs.Quotations

/-!
# Literals put together

The literals of a paragraph are escaped one by one, and a line of the paragraph can
have pieces of several of them (`Text.pieceLines`). Each piece is guarded by what it
starts with itself, wherever it comes to stand. So a line of a paragraph opens a block
exactly if pieces of it open one together and none of them opens one alone
(`paragraph_opensBlock_iff`): the first of them that does brings its own backslash
along.
-/

namespace Markdown

/-- Pieces of a line open a block together: the line opens one once its ending is off,
and its first pieces do so without a piece that opens one alone. -/
def OpensTogether (pieces : List Text) : Prop :=
  OpensBlock (Text.dropReturn pieces.flatten) ∧
    ∃ lead, lead <+: pieces ∧ OpensBlock lead.flatten ∧ ∀ piece ∈ lead, ¬OpensBlock piece

theorem flatMap_guardLine_of_not_opensBlock {pieces : List Text}
    (h : ∀ piece ∈ pieces, ¬OpensBlock piece) :
    pieces.flatMap guardLine = pieces.flatten := by
  rw [List.flatMap_def, List.map_congr_left fun piece hpiece =>
    guardLine_of_not_opensBlock (h piece hpiece), List.map_id']

theorem eq_nil_of_prefix_guardLine {piece t q : Text} (hopens : OpensBlock piece)
    (hbackslash : '\\' ∉ q) (hlast : ∀ c ∈ q.getLast?, c.isDigit = false)
    (h : q <+: guardLine piece ++ t) : q = [] := by
  obtain ⟨digits, c, after, -, hguard, hdigits, -⟩ := digits_of_opensBlock hopens
  rw [hguard, List.append_assoc, List.cons_append] at h
  have hwithin : q <+: digits := prefix_of_prefix_append_cons hbackslash h
  refine List.getLast?_eq_none_iff.mp (Option.eq_none_iff_forall_not_mem.mpr ?_)
  intro d hd
  have hdigit : d.isDigit = true := hdigits d (hwithin.subset (List.mem_of_getLast? hd))
  rw [hlast d hd] at hdigit
  exact Bool.false_ne_true hdigit

/-- What comes before the first guard, and does not end in the number that the guard
follows, has come from pieces without one. -/
theorem exists_lead {pieces : List Text} {q : Text} (hbackslash : '\\' ∉ q)
    (hlast : ∀ c ∈ q.getLast?, c.isDigit = false)
    (h : q <+: pieces.flatMap guardLine) :
    ∃ lead, lead <+: pieces ∧ q <+: lead.flatten ∧ ∀ piece ∈ lead, ¬OpensBlock piece := by
  induction pieces generalizing q with
  | nil => exact ⟨[], List.nil_prefix, h, fun _ hpiece => absurd hpiece List.not_mem_nil⟩
  | cons piece pieces ih =>
      rw [List.flatMap_cons] at h
      by_cases hopens : OpensBlock piece
      · obtain rfl := eq_nil_of_prefix_guardLine hopens hbackslash hlast h
        exact ⟨[], List.nil_prefix, List.nil_prefix,
          fun _ hpiece => absurd hpiece List.not_mem_nil⟩
      · rw [guardLine_of_not_opensBlock hopens] at h
        obtain ⟨t, ht⟩ := h
        rcases List.append_eq_append_iff.mp ht with ⟨r, hpiece, -⟩ | ⟨r, rfl, hr⟩
        · refine ⟨[piece], ⟨pieces, rfl⟩, ⟨r, ?_⟩, List.forall_mem_singleton.mpr hopens⟩
          rw [List.flatten_singleton, hpiece]
        · have hrest : ∀ c ∈ r.getLast?, c.isDigit = false := by
            intro c hc
            apply hlast
            rw [List.getLast?_append, Option.mem_def.mp hc]
            rfl
          obtain ⟨lead, hlead, hwithin, hnone⟩ :=
            ih (fun hmem => hbackslash (List.mem_append_right _ hmem)) hrest ⟨t, hr.symm⟩
          exact ⟨piece :: lead, List.cons_prefix_cons.mpr ⟨rfl, hlead⟩,
            (List.prefix_append_right_inj piece).mpr hwithin,
            List.forall_mem_cons.mpr ⟨hopens, hnone⟩⟩

theorem opensBlock_flatMap_guardLine_iff {pieces : List Text} :
    OpensBlock (pieces.flatMap guardLine) ↔
      ∃ lead, lead <+: pieces ∧ OpensBlock lead.flatten ∧
        ∀ piece ∈ lead, ¬OpensBlock piece := by
  constructor
  · intro h
    obtain ⟨q, hq, hwithin⟩ := opensBlock_iff_opener.mp h
    have hbackslash : '\\' ∉ q := fun hmem => absurd (hq.isOpening _ hmem) (by decide)
    have hlast : ∀ c ∈ q.getLast?, c.isDigit = false := by
      obtain ⟨d, hd, hdigit⟩ := hq.getLast?_not_digit
      intro c hc
      obtain rfl : d = c := Option.some.inj (hd.symm.trans hc)
      exact hdigit
    obtain ⟨lead, hlead, hflatten, hnone⟩ := exists_lead hbackslash hlast hwithin
    exact ⟨lead, hlead, opensBlock_iff_opener.mpr ⟨q, hq, hflatten⟩, hnone⟩
  · rintro ⟨lead, ⟨rest, rfl⟩, hopens, hnone⟩
    rw [List.flatMap_append, flatMap_guardLine_of_not_opensBlock hnone]
    exact hopens.append _

theorem guardLine_eq_nil_iff {line : Text} : guardLine line = [] ↔ line = [] := by
  by_cases h : OpensBlock line
  · obtain ⟨digits, c, after, hline, hguard, -⟩ := digits_of_opensBlock h
    rw [hguard]
    simp [hline]
  · rw [guardLine_of_not_opensBlock h]

theorem OpensBlock.dropReturn_append {line t : Text} (h : OpensBlock line) (ht : t ≠ []) :
    OpensBlock (Text.dropReturn (line ++ t)) := by
  obtain ⟨r, hr⟩ := Text.prefix_dropReturn_append (a := line) ht
  rw [← hr]
  exact h.append r

/-- Once some first pieces open a block, the guards behind them make no difference, also
if the line loses a carriage return at its end. -/
theorem opensBlock_dropReturn_congr {pieces lead : List Text} (hlead : lead <+: pieces)
    (hopens : OpensBlock lead.flatten) (hnone : ∀ piece ∈ lead, ¬OpensBlock piece) :
    OpensBlock (Text.dropReturn (pieces.flatMap guardLine)) ↔
      OpensBlock (Text.dropReturn pieces.flatten) := by
  obtain ⟨rest, rfl⟩ := hlead
  rw [List.flatMap_append, flatMap_guardLine_of_not_opensBlock hnone, List.flatten_append]
  by_cases hrest : ∀ piece ∈ rest, piece = []
  · have hguarded : rest.flatMap guardLine = [] := List.flatMap_eq_nil_iff.mpr
      fun piece hpiece => guardLine_eq_nil_iff.mpr (hrest piece hpiece)
    rw [hguarded, List.flatten_eq_nil_iff.mpr hrest]
  · -- the line goes on after the pieces that open the block, so both sides hold
    have hguarded : rest.flatMap guardLine ≠ [] := fun h => hrest fun piece hpiece =>
      guardLine_eq_nil_iff.mp (List.flatMap_eq_nil_iff.mp h piece hpiece)
    exact iff_of_true (hopens.dropReturn_append hguarded)
      (hopens.dropReturn_append (mt List.flatten_eq_nil_iff.mp hrest))

/-- **When guarded pieces open a block.** It takes some first pieces that open it before
any of them is guarded. -/
theorem opensBlock_dropReturn_guarded_iff {pieces : List Text} :
    OpensBlock (Text.dropReturn (pieces.flatMap guardLine)) ↔ OpensTogether pieces := by
  constructor
  · intro h
    obtain ⟨r, hr⟩ := Text.dropReturn_prefix (pieces.flatMap guardLine)
    obtain ⟨lead, hlead, hopens, hnone⟩ :=
      opensBlock_flatMap_guardLine_iff.mp (hr ▸ h.append r)
    exact ⟨(opensBlock_dropReturn_congr hlead hopens hnone).mp h,
      lead, hlead, hopens, hnone⟩
  · rintro ⟨h, lead, hlead, hopens, hnone⟩
    exact (opensBlock_dropReturn_congr hlead hopens hnone).mpr h

namespace Context

variable {ctx : Context}

theorem spell_flatten (pieces : List Text) :
    ctx.spell pieces.flatten = (pieces.map ctx.spell).flatten := by
  induction pieces with
  | nil => rfl
  | cons piece pieces ih =>
      rw [List.flatten_cons, spell_append, ih, List.map_cons, List.flatten_cons]

theorem getLast?_spell_ne_return {t : Text} (h : t.getLast? ≠ some '\r') :
    (ctx.spell t).getLast? ≠ some '\r' := by
  rcases List.eq_nil_or_concat' t with rfl | ⟨t, c, rfl⟩
  · exact h
  · intro hlast
    obtain ⟨d, hd⟩ := Option.ne_none_iff_exists'.mp
      (mt List.getLast?_eq_none_iff.mp (@write_ne_nil ctx c))
    have hspell : ctx.spell [c] = ctx.write c := by
      rw [spell_cons]
      exact List.append_nil _
    rw [spell_append, List.getLast?_append, hspell, hd] at hlast
    obtain rfl : d = '\r' := Option.some.inj hlast
    obtain rfl : '\r' = c := mem_write_of_isBreak (List.mem_of_getLast? hd) (by decide)
    exact h List.getLast?_concat

theorem dropReturn_spell (t : Text) :
    Text.dropReturn (ctx.spell t) = ctx.spell (Text.dropReturn t) := by
  by_cases h : t.getLast? = some '\r'
  · obtain ⟨t, rfl⟩ := List.getLast?_eq_some_iff.mp h
    have hreturn : ctx.spell ['\r'] = ['\r'] := by
      rw [spell_cons, write_of_isBreak (by decide)]
      rfl
    rw [spell_append, hreturn, Text.dropReturn_append_return, Text.dropReturn_append_return]
  · rw [Text.dropReturn_of_getLast? h,
      Text.dropReturn_of_getLast? (getLast?_spell_ne_return h)]

end Context

theorem opensTogether_spell_iff {ctx : Context} (h : ctx ≠ .url) {pieces : List Text} :
    OpensTogether (pieces.map ctx.spell) ↔ OpensTogether pieces := by
  rw [OpensTogether, ← Context.spell_flatten, Context.dropReturn_spell,
    Context.opensBlock_spell_iff h]
  refine and_congr_right fun _ => ?_
  have hflatten : ∀ lead : List Text,
      OpensBlock (lead.map ctx.spell).flatten ↔ OpensBlock lead.flatten := by
    intro lead
    rw [← Context.spell_flatten, Context.opensBlock_spell_iff h]
  have hpieces : ∀ lead : List Text,
      (∀ piece ∈ lead.map ctx.spell, ¬OpensBlock piece) ↔
        ∀ piece ∈ lead, ¬OpensBlock piece := by
    intro lead
    rw [List.forall_mem_map]
    simp only [Context.opensBlock_spell_iff h]
  constructor
  · rintro ⟨_, hlead, hopens, hnone⟩
    obtain ⟨lead, hwithin, rfl⟩ := List.prefix_map_iff.mp hlead
    exact ⟨lead, hwithin, (hflatten lead).mp hopens, (hpieces lead).mp hnone⟩
  · rintro ⟨lead, hlead, hopens, hnone⟩
    exact ⟨lead.map ctx.spell, hlead.map ctx.spell, (hflatten lead).mpr hopens,
      (hpieces lead).mpr hnone⟩

/-! ## Lines of pieces -/

namespace Text

/-- Some lines before lines of pieces. The last of them goes on in the first of those. -/
def weave : List Text → List (List Text) → List (List Text)
  | [], rest => rest
  | [l], rest => rest.modifyHead (l :: ·)
  | l :: m :: ls, rest => [l] :: weave (m :: ls) rest

/-- The lines of some texts put together, each as the pieces that it has of them. -/
def pieceLines : List Text → List (List Text)
  | [] => [[]]
  | t :: ts => weave t.lines (pieceLines ts)

theorem weave_ne_nil (ls : List Text) {rest : List (List Text)} (h : rest ≠ []) :
    weave ls rest ≠ [] := by
  fun_cases weave ls rest with
  | case1 => exact h
  | case2 l => simpa [List.modifyHead_eq_nil_iff] using h
  | case3 l m ls => exact List.cons_ne_nil _ _

theorem pieceLines_ne_nil (ts : List Text) : pieceLines ts ≠ [] := by
  induction ts with
  | nil => exact List.cons_ne_nil _ _
  | cons t ts ih => exact weave_ne_nil t.lines ih

/-- What is made of the pieces, line by line, is what is made of the texts. -/
theorem unlines_weave (f : Text → Text) {ls : List Text} (hls : ls ≠ [])
    {rest : List (List Text)} (hrest : rest ≠ []) :
    unlines ((weave ls rest).map (·.flatMap f)) =
      unlines (ls.map f) ++ unlines (rest.map (·.flatMap f)) := by
  fun_induction weave ls rest with
  | case1 => exact absurd rfl hls
  | case2 l rest =>
      obtain ⟨pieces, rest, rfl⟩ := List.exists_cons_of_ne_nil hrest
      rw [List.map_singleton, unlines_singleton, List.modifyHead_cons, List.map_cons,
        List.map_cons, List.flatMap_cons, unlines_cons, unlines_cons, List.append_assoc]
  | case3 l m ls rest ih =>
      have hwoven : (weave (m :: ls) rest).map (·.flatMap f) ≠ [] := by
        simpa using weave_ne_nil (m :: ls) hrest
      rw [List.map_cons, List.flatMap_singleton, ← List.singleton_append,
        unlines_append (by simp) hwoven, ih (List.cons_ne_nil m ls) hrest,
        unlines_singleton, List.map_cons, List.map_cons, List.map_cons, unlines_cons_cons,
        List.append_assoc, List.cons_append]

theorem unlines_pieceLines (f : Text → Text) (ts : List Text) :
    unlines ((pieceLines ts).map (·.flatMap f)) =
      ts.flatMap fun t => unlines (t.lines.map f) := by
  induction ts with
  | nil => rfl
  | cons t ts ih =>
      rw [pieceLines, unlines_weave f (lines_ne_nil t) (pieceLines_ne_nil ts), ih,
        List.flatMap_cons]

theorem forall_mem_weave {P : Text → Prop} {ls : List Text} {rest : List (List Text)}
    (hls : ∀ l ∈ ls, P l) (hrest : ∀ pieces ∈ rest, ∀ piece ∈ pieces, P piece) :
    ∀ pieces ∈ weave ls rest, ∀ piece ∈ pieces, P piece := by
  fun_induction weave ls rest with
  | case1 => exact hrest
  | case2 l rest =>
      cases rest with
      | nil => exact hrest
      | cons pieces rest =>
          obtain ⟨hpieces, hlater⟩ := List.forall_mem_cons.mp hrest
          refine List.forall_mem_cons.mpr ⟨?_, hlater⟩
          exact List.forall_mem_cons.mpr ⟨hls l List.mem_cons_self, hpieces⟩
  | case3 l m ls rest ih =>
      obtain ⟨hl, hlater⟩ := List.forall_mem_cons.mp hls
      exact List.forall_mem_cons.mpr
        ⟨List.forall_mem_singleton.mpr hl, ih hlater hrest⟩

theorem feed_notMem_of_mem_pieceLines (ts : List Text) :
    ∀ pieces ∈ pieceLines ts, ∀ piece ∈ pieces, '\n' ∉ piece := by
  induction ts with
  | nil =>
      rw [pieceLines, List.forall_mem_singleton]
      exact fun _ hpiece => absurd hpiece List.not_mem_nil
  | cons t ts ih => exact forall_mem_weave (fun _ => feed_notMem_of_mem_lines) ih

end Text

/-- Lines before a blank line are read again like lines that all have an ending. -/
theorem lines_unlines_blankLine {ls : List Text} (hls : ls ≠ [])
    (hfeed : ∀ l ∈ ls, '\n' ∉ l) :
    (Text.unlines ls ++ blankLine).lines = ls.map Text.dropReturn ++ [[], []] := by
  have hblank : Text.unlines ls ++ blankLine = Text.unlines (ls ++ [[]] ++ [[]]) := by
    rw [List.append_assoc, List.singleton_append, Text.unlines_append hls (by simp)]
    rfl
  have hall : ∀ l ∈ ls ++ [[]], '\n' ∉ l :=
    List.forall_mem_append.mpr ⟨hfeed, List.forall_mem_singleton.mpr List.not_mem_nil⟩
  rw [hblank, Text.lines_unlines hall List.not_mem_nil, List.map_append, List.append_assoc]
  rfl

/-- A line of escaped literals is its pieces, each spelled and guarded for itself. -/
theorem lines_escaped_literals {ctx : Context} (h : ctx ≠ .code) (ts : List Text) :
    Text.lines (ts.flatMap ctx.escape ++ blankLine) =
      (Text.pieceLines ts).map (fun pieces =>
        Text.dropReturn ((pieces.map ctx.spell).flatMap guardLine)) ++ [[], []] := by
  have hbody : ts.flatMap ctx.escape =
      Text.unlines ((Text.pieceLines ts).map (·.flatMap ctx.escapeLine)) := by
    rw [Text.unlines_pieceLines, List.flatMap_def, List.flatMap_def]
    exact congrArg List.flatten (List.map_congr_left fun t _ =>
      Context.escape_eq_unlines h t)
  have hne : (Text.pieceLines ts).map (·.flatMap ctx.escapeLine) ≠ [] := by
    simpa using Text.pieceLines_ne_nil ts
  have hfeed : ∀ l ∈ (Text.pieceLines ts).map (·.flatMap ctx.escapeLine), '\n' ∉ l := by
    rw [List.forall_mem_map]
    intro pieces hpieces hmem
    obtain ⟨piece, hpiece, hfeed⟩ := List.mem_flatMap.mp hmem
    exact Context.feed_notMem_escapeLine
      (Text.feed_notMem_of_mem_pieceLines ts pieces hpieces piece hpiece) hfeed
  rw [hbody, lines_unlines_blankLine hne hfeed, List.map_map]
  simp only [List.flatMap_map]
  rfl

/-! ## Lines of quotations -/

theorem lines_quote (t : Text) :
    Text.lines (quote t ++ blankLine) =
      t.trimEnd.lines.map (fun l => Text.dropReturn (quoteLine l)) ++ [[], []] := by
  have hne : t.trimEnd.lines.map quoteLine ≠ [] := by
    simpa using Text.lines_ne_nil t.trimEnd
  rw [quote, lines_unlines_blankLine hne fun _ => feed_notMem_of_mem_quoted, List.map_map]
  rfl

theorem getLast?_trimEnd_ne_return (t : Text) : t.trimEnd.getLast? ≠ some '\r' :=
  fun hlast => absurd (Text.getLast?_dropEndWhile hlast) (by decide)

theorem prefix_of_prefix_quoteLine {line l : Text}
    (h : '>' :: ' ' :: line <+: quoteLine l) : line <+: l := by
  rw [quoteLine] at h
  split at h
  · exact absurd h (by simp)
  · exact (List.cons_prefix_cons.mp (List.cons_prefix_cons.mp h).2).2

theorem exists_of_mem_lines_quote {t line : Text}
    (h : '>' :: ' ' :: line ∈ Text.lines (quote t ++ blankLine)) (b : Text) :
    ∃ k ∈ (t ++ b).lines, line <+: k := by
  rw [lines_quote, List.mem_append, List.mem_map] at h
  obtain ⟨l, hl, hquoted⟩ := h.resolve_right (by simp)
  have hline : line <+: l := by
    apply prefix_of_prefix_quoteLine
    rw [← hquoted]
    exact Text.dropReturn_prefix (quoteLine l)
  obtain ⟨w, hw, -⟩ := Text.exists_dropEndWhile_append isBlank t
  obtain ⟨k, hk, hwithin⟩ :=
    Text.exists_mem_lines_append (getLast?_trimEnd_ne_return t) (w ++ b) hl
  have happend : t.trimEnd ++ (w ++ b) = t ++ b := by
    rw [← List.append_assoc]
    exact congrArg (· ++ b) hw
  exact ⟨k, happend ▸ hk, hline.trans hwithin⟩

theorem mem_lines_of_visible {a b line : Text} {c : Char} (ha : a.getLast? ≠ some '\r')
    (hb : ∀ d ∈ b, isBlank d = true) (hline : line ∈ (a ++ b).lines)
    (hlast : line.getLast? = some c) (hc : isBlank c = false) : line ∈ a.lines := by
  have hvisible : ∀ k ∈ b.lines, c ∉ k := by
    intro k hk hmem
    rw [hb c (Text.mem_of_mem_lines hk hmem)] at hc
    exact Bool.false_ne_true hc.symm
  obtain ⟨init, last, first, later, hlines, hlater, happend⟩ := Text.lines_append ha b
  rw [happend, List.mem_append, List.mem_cons] at hline
  rw [hlines]
  rcases hline with hline | rfl | hline
  · exact List.mem_append_left _ hline
  · cases hfirst : first.getLast? with
    | none =>
        rw [List.getLast?_eq_none_iff.mp hfirst, List.append_nil]
        exact List.mem_append_right _ List.mem_cons_self
    | some d =>
        rw [List.getLast?_append, hfirst] at hlast
        obtain rfl : d = c := Option.some.inj hlast
        exact absurd (List.mem_of_getLast? hfirst)
          (hvisible first (hlater ▸ List.mem_cons_self))
  · have hmem : line ∈ b.lines := hlater ▸ List.mem_cons_of_mem first hline
    exact absurd (List.mem_of_getLast? hlast) (hvisible line hmem)

/-- A line that ends in a visible character stands behind the mark as it is. -/
theorem mem_lines_quote_of_visible {t b line : Text} {c : Char}
    (hb : ∀ d ∈ b, isBlank d = true) (hline : line ∈ (t ++ b).lines)
    (hlast : line.getLast? = some c) (hc : isBlank c = false) :
    '>' :: ' ' :: line ∈ Text.lines (quote t ++ blankLine) := by
  obtain ⟨w, hw, hblank⟩ := Text.exists_dropEndWhile_append isBlank t
  have happend : t ++ b = t.trimEnd ++ (w ++ b) := by
    rw [← List.append_assoc]
    exact congrArg (· ++ b) hw.symm
  have hmem : line ∈ t.trimEnd.lines :=
    mem_lines_of_visible (getLast?_trimEnd_ne_return t)
      (List.forall_mem_append.mpr ⟨hblank, hb⟩) (happend ▸ hline) hlast hc
  have hquoted : quoteLine line = '>' :: ' ' :: line := by
    rw [quoteLine, if_neg]
    intro hall
    rw [List.all_eq_true.mp hall c (List.mem_of_getLast? hlast)] at hc
    exact Bool.false_ne_true hc.symm
  have hreturn : ('>' :: ' ' :: line).getLast? ≠ some '\r' := by
    rw [List.getLast?_cons_cons, List.getLast?_cons, hlast]
    rintro ⟨rfl⟩
    exact absurd hc (by decide)
  rw [lines_quote, List.mem_append, List.mem_map]
  exact Or.inl ⟨line, hmem, by rw [hquoted, Text.dropReturn_of_getLast? hreturn]⟩

/-! ## Paragraphs and quotations -/

theorem not_opensBlock_nil : ¬OpensBlock [] := by
  rw [opensBlock_iff]
  decide

theorem exists_opensBlock_literals_iff {ctx : Context} (hcode : ctx ≠ .code)
    (hurl : ctx ≠ .url) (ts : List Text) :
    (∃ line ∈ Text.lines (ts.flatMap ctx.escape ++ blankLine), OpensBlock line) ↔
      ∃ pieces ∈ Text.pieceLines ts, OpensTogether pieces := by
  rw [lines_escaped_literals hcode]
  constructor
  · rintro ⟨line, hline, hopens⟩
    rcases List.mem_append.mp hline with hline | hline
    · obtain ⟨pieces, hpieces, rfl⟩ := List.mem_map.mp hline
      exact ⟨pieces, hpieces,
        (opensTogether_spell_iff hurl).mp (opensBlock_dropReturn_guarded_iff.mp hopens)⟩
    · obtain rfl : line = [] := by simpa using hline
      exact absurd hopens not_opensBlock_nil
  · rintro ⟨pieces, hpieces, hopens⟩
    exact ⟨_, List.mem_append_left _ (List.mem_map_of_mem hpieces),
      opensBlock_dropReturn_guarded_iff.mpr ((opensTogether_spell_iff hurl).mpr hopens)⟩

/-- **Line starts across literals.** A paragraph of escaped literals has a line that
opens a block exactly if pieces of a line open one together that none of them opens
alone. A quotation of them has such a line, after its mark, only if the paragraph has,
and it has every line of the paragraph that ends in a visible character. -/
theorem paragraph_opensBlock_iff (w : Writer) (ts : List Text) :
    ∃ p q, w.paragraph (.sequence (ts.map Content.literal)) true = .ok p ∧
      w.blockquote (.sequence (ts.map Content.literal)) true = .ok q ∧
      ((∃ line ∈ p.text.lines, OpensBlock line) ↔
        ∃ pieces ∈ Text.pieceLines ts, OpensTogether pieces) ∧
      (∀ line, '>' :: ' ' :: line ∈ q.text.lines → OpensBlock line →
        ∃ pieces ∈ Text.pieceLines ts, OpensTogether pieces) ∧
      ∀ line ∈ p.text.lines, ∀ c, line.getLast? = some c → isBlank c = false →
        '>' :: ' ' :: line ∈ q.text.lines := by
  have hparagraph := @exists_opensBlock_literals_iff .plain (by decide) (by decide) ts
  refine ⟨_, _, Frame.build_literals _ _ ts, Frame.build_literals _ _ ts, hparagraph,
    ?_, ?_⟩
  · intro line hline hopens
    obtain ⟨k, hk, r, rfl⟩ := exists_of_mem_lines_quote hline blankLine
    exact hparagraph.mp ⟨_, hk, hopens.append r⟩
  · intro line hline c hlast hc
    exact mem_lines_quote_of_visible (List.all_eq_true.mp rfl) hline hlast hc

/-- A second line whose number and full stop come from two literals, in a paragraph and
in a quotation. -/
theorem paragraph_opensBlock_number :
    let ts := ["a\n1".toList, ". b".toList]
    let c := Content.sequence (ts.map Content.literal)
    let plain : Node := ⟨.paragraph, "a\n1. b\n\n".toList, true⟩
    let quoted : Node := ⟨.blockquote, "> a\n> 1. b\n\n".toList, true⟩
    Writer.paragraph {} c true = .ok plain ∧ Writer.blockquote {} c true = .ok quoted ∧
    "1. b".toList ∈ plain.text.lines ∧ OpensBlock "1. b".toList ∧
    "1. b".toList.getLast? = some 'b' ∧ isBlank 'b' = false ∧
    '>' :: ' ' :: "1. b".toList ∈ quoted.text.lines ∧
    ∃ pieces ∈ Text.pieceLines ts, OpensTogether pieces := by
  intro ts c plain quoted
  have hplain : Writer.paragraph {} c true = .ok plain := by decide
  have hquoted : Writer.blockquote {} c true = .ok quoted := by decide
  have hmem : "1. b".toList ∈ plain.text.lines := by decide
  have hopens : OpensBlock "1. b".toList := by
    rw [opensBlock_iff]
    decide
  obtain ⟨p, q, hp, hq, -, hfrom, hto⟩ := paragraph_opensBlock_iff {} ts
  obtain rfl : plain = p := Except.ok.inj (hplain.symm.trans hp)
  obtain rfl : quoted = q := Except.ok.inj (hquoted.symm.trans hq)
  have hquote : '>' :: ' ' :: "1. b".toList ∈ quoted.text.lines :=
    hto _ hmem 'b' (by decide) (by decide)
  exact ⟨hplain, hquoted, hmem, hopens, by decide, by decide, hquote,
    hfrom _ hquote hopens⟩

/-- A dash and a space from two literals open an item, in a paragraph and in a
quotation. -/
theorem paragraph_opens_item :
    let c := Content.sequence (["-".toList, " a".toList].map Content.literal)
    Writer.paragraph {} c true = .ok ⟨.paragraph, "- a\n\n".toList, true⟩ ∧
    Writer.blockquote {} c true = .ok ⟨.blockquote, "> - a\n\n".toList, true⟩ ∧
    "- a".toList ∈ Text.lines "- a\n\n".toList ∧
    '>' :: ' ' :: "- a".toList ∈ Text.lines "> - a\n\n".toList ∧
    OpensBlock "- a".toList :=
  ⟨by decide, by decide, by decide, by decide, Or.inr (Or.inl ⟨['a'], rfl⟩)⟩

end Markdown
