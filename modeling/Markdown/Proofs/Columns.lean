import Markdown.Proofs.Escaping
import Markdown.Proofs.Tables

/-!
# Tables, read back

A reader takes a table apart in two steps: at its line feeds into rows, and at
the bars of a row into cells. A bar parts two cells if an even number of
backslashes stands directly before it (`splitBars`).

A text without such a bar is one piece. `escapeBars` makes a text so, and no
reader shows the backslashes that it puts in (`glyphs_escapeBars`). A cell may
still end on a backslash that waits for a character. What it takes up is the
space of the separator, never the bar behind it, so the pieces of a row are its
cells (`splitBars_intercalate`).
-/

namespace Markdown

namespace Text

/-- Every bar of a text stands after a backslash of its own. -/
def BarsHidden (t : Text) : Prop :=
  .bare '|' ∉ t.glyphs

theorem barsHidden_of_notMem {t : Text} (h : '\\' ∉ t) (hbar : '|' ∉ t) : t.BarsHidden := by
  rw [BarsHidden, glyphs_eq_map h, List.mem_map]
  rintro ⟨c, hc, hglyph⟩
  obtain rfl : c = '|' := Glyph.bare.inj hglyph
  exact hbar hc

theorem BarsHidden.append {a b : Text} (hclosed : a.Closed) (ha : a.BarsHidden)
    (hb : b.BarsHidden) : BarsHidden (a ++ b) := by
  rw [BarsHidden, glyphs_append hclosed, List.mem_append]
  exact not_or.mpr ⟨ha, hb⟩

theorem BarsHidden.concat_space {t : Text} (h : t.BarsHidden) :
    BarsHidden (t ++ [' ']) := by
  intro hmem
  rcases mem_glyphs_concat (by decide) hmem with hg | hg | ⟨hg, -⟩
  · exact absurd hg (by decide)
  · exact absurd hg nofun
  · exact h hg

end Text

def Glyph.hideBar : Glyph → Glyph
  | .bare '|' => .escaped '|'
  | g => g

theorem Glyph.shown?_hideBar (g : Glyph) : g.hideBar.shown? = g.shown? := by
  fun_cases Glyph.hideBar g <;> rfl

theorem Glyph.hideBar_ne_bar (g : Glyph) : g.hideBar ≠ .bare '|' := by
  fun_cases Glyph.hideBar g with
  | case1 => exact nofun
  | case2 _ h => exact h

/-- A backslash and the character after it stay as they are, and what follows is
escaped afresh. -/
theorem escapeBars_backslash (c : Char) (t : Text) :
    escapeBars ('\\' :: c :: t) = '\\' :: c :: escapeBars t := by
  simp [escapeBars, escapeBarsFrom]

theorem escapeBars_bar (t : Text) : escapeBars ('|' :: t) = '\\' :: '|' :: escapeBars t := by
  simp [escapeBars, escapeBarsFrom]

theorem escapeBars_cons {c : Char} (hc : c ≠ '\\') (hbar : c ≠ '|') (t : Text) :
    escapeBars (c :: t) = c :: escapeBars t := by
  simp [escapeBars, escapeBarsFrom, hc, hbar]

/-- **Escaping the bars of a text hides them**, and changes nothing else that a
reader meets. -/
theorem glyphs_escapeBars (t : Text) :
    (escapeBars t).glyphs = t.glyphs.map Glyph.hideBar := by
  fun_induction Text.glyphs t with
  | case1 => rfl
  | case2 => rfl
  | case3 c rest ih =>
      rw [escapeBars_backslash, Text.glyphs_backslash, ih]
      rfl
  | case4 c rest hlast hpair ih =>
      have hc : c ≠ '\\' := Text.ne_backslash hlast hpair
      by_cases hbar : c = '|'
      · subst hbar
        rw [escapeBars_bar, Text.glyphs_backslash, ih]
        rfl
      · have hglyph : Glyph.hideBar (.bare c) = .bare c := by simp [Glyph.hideBar, hbar]
        rw [escapeBars_cons hc hbar, Text.glyphs_cons hc, ih, List.map_cons, hglyph]

theorem barsHidden_escapeBars (t : Text) : (escapeBars t).BarsHidden := by
  rw [Text.BarsHidden, glyphs_escapeBars, List.mem_map]
  rintro ⟨g, -, hg⟩
  exact g.hideBar_ne_bar hg

theorem unescape_escapeBars (t : Text) : (escapeBars t).unescape = t.unescape := by
  rw [Text.unescape, glyphs_escapeBars, List.filterMap_map]
  exact List.filterMap_congr fun g _ => g.shown?_hideBar

theorem mem_escapeBarsFrom {escaped : Bool} {t : Text} {c : Char}
    (h : c ∈ escapeBarsFrom escaped t) : c = '\\' ∨ c ∈ t := by
  fun_induction escapeBarsFrom escaped t with
  | case1 => exact Or.inr h
  | case2 escaped d rest hbar ih =>
      rcases List.mem_cons.mp h with rfl | h
      · exact Or.inl rfl
      · rcases List.mem_cons.mp h with rfl | h
        · exact Or.inr List.mem_cons_self
        · exact (ih h).imp_right (List.mem_cons_of_mem d)
  | case3 escaped d rest hbar ih =>
      rcases List.mem_cons.mp h with rfl | h
      · exact Or.inr List.mem_cons_self
      · exact (ih h).imp_right (List.mem_cons_of_mem d)

/-! ## Splitting at bars -/

/-- The pieces of a text between its bars, where `run` backslashes stand directly
before the text. A bar after an odd number of backslashes does not part
anything. -/
def splitBarsFrom (run : Nat) : Text → List Text
  | [] => [[]]
  | c :: rest =>
    if c = '|' ∧ run % 2 = 0 then
      [] :: splitBarsFrom 0 rest
    else
      (splitBarsFrom (if c = '\\' then run + 1 else 0) rest).modifyHead (c :: ·)

/-- The pieces of a text between the bars that an even number of backslashes
directly precedes. -/
def splitBars (t : Text) : List Text :=
  splitBarsFrom 0 t

theorem splitBarsFrom_bar {run : Nat} (h : run % 2 = 0) (t : Text) :
    splitBarsFrom run ('|' :: t) = [] :: splitBarsFrom 0 t :=
  if_pos ⟨rfl, h⟩

theorem splitBarsFrom_cons {run : Nat} {c : Char} (h : ¬(c = '|' ∧ run % 2 = 0))
    (t : Text) :
    splitBarsFrom run (c :: t) =
      (splitBarsFrom (if c = '\\' then run + 1 else 0) t).modifyHead (c :: ·) :=
  if_neg h

/-- A text whose bars are hidden is not split. If it is closed, an even number of
backslashes stands at its end, so that a bar behind it parts it from what
follows. -/
theorem splitBarsFrom_append {a : Text} (h : a.BarsHidden) (b : Text) {run : Nat}
    (hrun : run % 2 = 0) :
    ∃ run', (a.Closed → run' % 2 = 0) ∧
      splitBarsFrom run (a ++ b) = (splitBarsFrom run' b).modifyHead (a ++ ·) := by
  fun_induction Text.glyphs a generalizing run with
  | case1 =>
      refine ⟨run, fun _ => hrun, ?_⟩
      show splitBarsFrom run b = (splitBarsFrom run b).modifyHead id
      rw [List.modifyHead_id, id]
  | case2 => exact ⟨run + 1, fun hclosed => absurd List.mem_cons_self hclosed, rfl⟩
  | case3 c rest ih =>
      have hrest : Text.BarsHidden rest := fun hmem => h (List.mem_cons_of_mem _ hmem)
      have hodd : ¬(run + 1) % 2 = 0 := by omega
      have heven : (if c = '\\' then run + 1 + 1 else 0) % 2 = 0 := by
        split <;> omega
      obtain ⟨run', hclosed, hsplit⟩ := ih hrest heven
      refine ⟨run', fun hpair => hclosed fun hmem => hpair (List.mem_cons_of_mem _ hmem), ?_⟩
      rw [List.cons_append, List.cons_append,
        splitBarsFrom_cons fun hbar => absurd hbar.1 (by decide), if_pos rfl,
        splitBarsFrom_cons fun hbar => hodd hbar.2, hsplit, List.modifyHead_modifyHead,
        List.modifyHead_modifyHead]
      rfl
  | case4 c rest hlast hpair ih =>
      have hc : c ≠ '\\' := Text.ne_backslash hlast hpair
      rw [Text.BarsHidden, Text.glyphs_cons hc, List.mem_cons, not_or] at h
      obtain ⟨run', hclosed, hsplit⟩ := ih h.2 (Nat.zero_mod 2)
      refine ⟨run', fun hcons => hclosed fun hmem => hcons ?_, ?_⟩
      · rw [Text.glyphs_cons hc]
        exact List.mem_cons_of_mem _ hmem
      · rw [List.cons_append, splitBarsFrom_cons, if_neg hc, hsplit,
          List.modifyHead_modifyHead]
        · rfl
        · rintro ⟨rfl, -⟩
          exact h.1 rfl

theorem splitBarsFrom_of_barsHidden {a : Text} (h : a.BarsHidden) {run : Nat}
    (hrun : run % 2 = 0) : splitBarsFrom run a = [a] := by
  obtain ⟨run', -, hsplit⟩ := splitBarsFrom_append h [] hrun
  rwa [List.append_nil, splitBarsFrom, List.modifyHead_cons, List.append_nil] at hsplit

theorem splitBarsFrom_append_bar {a : Text} (h : a.BarsHidden) (hclosed : a.Closed)
    (b : Text) {run : Nat} (hrun : run % 2 = 0) :
    splitBarsFrom run (a ++ '|' :: b) = a :: splitBarsFrom 0 b := by
  obtain ⟨run', heven, hsplit⟩ := splitBarsFrom_append h ('|' :: b) hrun
  rw [hsplit, splitBarsFrom_bar (heven hclosed), List.modifyHead_cons, List.append_nil]

/-- Cells with the space that parts each from the bar beside it. The first one
stands after `lead`. -/
def spacedFrom (lead : Text) : List Text → List Text
  | [] => []
  | [cell] => [lead ++ cell]
  | cell :: next :: rest => (lead ++ cell ++ [' ']) :: spacedFrom [' '] (next :: rest)

/-- The cells of a row with one space on each inner side: none before the first
cell and none after the last. -/
def spaced (cells : List Text) : List Text :=
  spacedFrom [] cells

theorem length_spacedFrom (lead : Text) (cells : List Text) :
    (spacedFrom lead cells).length = cells.length := by
  fun_induction spacedFrom lead cells with
  | case1 => rfl
  | case2 lead cell => rfl
  | case3 lead cell next rest ih => rw [List.length_cons, List.length_cons, ih]

theorem splitBarsFrom_lead {lead : Text} (hlead : ∀ c ∈ lead, c = ' ') {cells : List Text}
    (hcells : cells ≠ []) (h : ∀ cell ∈ cells, cell.BarsHidden) :
    splitBarsFrom 0 (lead ++ cellSeparator.intercalate cells) = spacedFrom lead cells := by
  induction cells generalizing lead with
  | nil => exact absurd rfl hcells
  | cons cell rest ih =>
      have hbackslash : '\\' ∉ lead := fun hmem => absurd (hlead _ hmem) (by decide)
      have hbar : '|' ∉ lead := fun hmem => absurd (hlead _ hmem) (by decide)
      have hpiece : Text.BarsHidden (lead ++ cell) :=
        (Text.barsHidden_of_notMem hbackslash hbar).append
          (Text.closed_of_backslash_notMem hbackslash) (h cell List.mem_cons_self)
      cases rest with
      | nil =>
          rw [List.intercalate_singleton, spacedFrom,
            splitBarsFrom_of_barsHidden hpiece (Nat.zero_mod 2)]
      | cons next rest =>
          have hclosed : Text.Closed (lead ++ cell ++ [' ']) :=
            Text.closed_concat (by decide) _
          have hrow : lead ++ cellSeparator.intercalate (cell :: next :: rest) =
              (lead ++ cell ++ [' ']) ++
                '|' :: ([' '] ++ cellSeparator.intercalate (next :: rest)) := by
            simp [List.intercalate_cons_cons, cellSeparator]
          rw [hrow, splitBarsFrom_append_bar hpiece.concat_space hclosed _ (Nat.zero_mod 2),
            ih (by simp) (by simp) fun c hc => h c (List.mem_cons_of_mem cell hc)]
          rfl

/-- **A row is split into its cells.** -/
theorem splitBars_intercalate {cells : List Text} (hcells : cells ≠ [])
    (h : ∀ cell ∈ cells, cell.BarsHidden) :
    splitBars (cellSeparator.intercalate cells) = spaced cells :=
  @splitBarsFrom_lead [] (by simp) _ hcells h

/-! ## Cells -/

/-- A text is what a cell of a row reads: its content written in its place, and
then with all bars escaped. -/
def CellText (escape : Bool) (c : Content) (cell : Text) : Prop :=
  ∃ p, cellSlot.fill escape c = .ok p ∧ escapeBars p.text = cell

theorem cellText_of_fits {escape : Bool} {c : Content} (h : CellFits escape c) :
    CellText escape c (cellOf escape c).text :=
  ⟨_, Slot.fill_eq_ok_iff.mpr ⟨h.flat, h.admits, rfl⟩, rfl⟩

theorem CellFits.unbroken_text {escape : Bool} {c : Content} (h : CellFits escape c) :
    ∀ d ∈ (cellOf escape c).text, isBreak d = false := by
  intro d hd
  rcases mem_escapeBarsFrom hd with rfl | hd
  · decide
  · simpa using List.any_eq_false.mp h.unbroken d hd

theorem unescape_cell_literal {t : Text} (h : CellFits true (.literal t)) :
    (cellOf true (.literal t)).text.unescape = t := by
  have hbody : cellBody true (.literal t) = Context.tableCell.escape t :=
    List.flatMap_singleton _ _
  have hshown : (Context.tableCell.escape t).unescape = t.plainEndings := by
    rw [unescape_escape (by decide)]
    simp only [@Context.unescape_write .tableCell (by decide),
      List.flatMap_singleton']
  have hfeed : '\n' ∉ t := by
    intro hmem
    have hbreak : '\n' ∈ Context.tableCell.escape t :=
      Text.mem_of_mem_unescape (hshown ▸ Text.feed_mem_plainEndings hmem)
    exact List.any_eq_false.mp h.unbroken '\n' (hbody ▸ hbreak) (by decide)
  rw [cellOf, unescape_escapeBars, hbody, hshown, ← Text.unlines_lines,
    Text.lines_of_feed_notMem hfeed, Text.unlines, List.intercalate_singleton]

/-! ## Whole tables -/

/-- A line shows a row: it is split into the cells of the row, and from cells that
are escaped literals a reader gets the literals. -/
def ShowsRow (escape : Bool) (row : List Content) (line : Text) : Prop :=
  ∃ cells, splitBars line = spaced cells ∧ List.Forall₂ (CellText escape) row cells ∧
    (escape = true →
      ∀ texts, row = texts.map Content.literal → cells.map Text.unescape = texts)

theorem showsRow_rowOf {escape : Bool} {row : List Content} (hrow : row ≠ [])
    (h : ∀ c ∈ row, CellFits escape c) : ShowsRow escape row (rowOf escape row).text := by
  have htext : (rowOf escape row).text =
      cellSeparator.intercalate (row.map fun c => (cellOf escape c).text) := by
    rw [rowOf, Piece.join, List.map_map]
    rfl
  refine ⟨row.map fun c => (cellOf escape c).text, ?_, ?_, ?_⟩
  · rw [htext]
    apply splitBars_intercalate (by simpa using hrow)
    intro cell hcell
    obtain ⟨c, -, rfl⟩ := List.mem_map.mp hcell
    exact barsHidden_escapeBars _
  · rw [List.forall₂_map_right_iff, List.forall₂_same]
    exact fun c hc => cellText_of_fits (h c hc)
  · rintro rfl texts rfl
    rw [List.map_map, List.map_map]
    conv_rhs => rw [← List.map_id texts]
    apply List.map_congr_left
    intro t ht
    exact unescape_cell_literal (h _ (List.mem_map_of_mem ht))

theorem ShowsRow.length {escape : Bool} {row : List Content} {line : Text}
    (h : ShowsRow escape row line) : (splitBars line).length = row.length := by
  obtain ⟨cells, hsplit, hcells, -⟩ := h
  rw [hsplit, spaced, length_spacedFrom, hcells.length_eq]

theorem alignmentCells_unbroken {columns : Nat} {words aligned : List Text}
    (h : alignmentCells columns words = .ok aligned) :
    ∀ cell ∈ aligned, ∀ d ∈ cell, isBreak d = false := by
  rw [alignmentCells] at h
  split at h
  · obtain rfl := Except.ok.inj h
    intro cell hcell
    obtain rfl := List.eq_of_mem_replicate hcell
    decide
  · obtain ⟨-, hwords⟩ := require_bind_eq_ok_iff.mp h
    have hdashes : ∀ word cell, Alignment.dashes <$> Alignment.parse word = .ok cell →
        ((∀ d ∈ cell, isBreak d = false) ↔ True) := by
      intro word cell hcell
      obtain ⟨alignment, -, rfl⟩ := map_eq_ok_iff.mp hcell
      cases alignment <;> decide
    have hcells := (mapM_eq_ok_iff fun _ _ => Iff.rfl).mp hwords
    exact (forall_mem_iff_of_forall₂ (hcells.imp hdashes)).mpr fun _ _ => trivial

theorem tableLines_unbroken {escape : Bool} {headers : List Content}
    {rows : List (List Content)} {aligned : List Text}
    (haligned : ∀ cell ∈ aligned, ∀ d ∈ cell, isBreak d = false)
    (h : ∀ row ∈ headers :: rows, ∀ c ∈ row, CellFits escape c) :
    ∀ line ∈ tableLines escape headers aligned rows, ∀ d ∈ line, isBreak d = false := by
  have hseparator : ∀ d ∈ cellSeparator, isBreak d = false := by decide
  have hrow : ∀ row ∈ headers :: rows, ∀ d ∈ (rowOf escape row).text, isBreak d = false := by
    intro row hrow d hd
    rcases Text.mem_intercalate hd with hd | ⟨cell, hcell, hd⟩
    · exact hseparator d hd
    · obtain ⟨p, hp, rfl⟩ := List.mem_map.mp hcell
      obtain ⟨c, hc, rfl⟩ := List.mem_map.mp hp
      exact (h row hrow c hc).unbroken_text d hd
  intro line hline
  rcases List.mem_cons.mp hline with rfl | hline
  · exact hrow headers List.mem_cons_self
  · rcases List.mem_cons.mp hline with rfl | hline
    · intro d hd
      rcases Text.mem_intercalate hd with hd | ⟨cell, hcell, hd⟩
      · exact hseparator d hd
      · exact haligned cell hcell d hd
    · obtain ⟨row, hmem, rfl⟩ := List.mem_map.mp hline
      exact hrow row (List.mem_cons_of_mem _ hmem)

/-- **A table is read back row by row and cell by cell.** Up to the blank line
after it, it has one line for the header, one for the alignments and one for each
row. The header and every row are split into as many pieces as there are columns,
and these are its cells. -/
theorem table_readable {w : Writer} {headers : List Content}
    {rows : List (List Content)} {alignments : List Text} {escape : Bool} {n : Node}
    (h : w.table headers rows alignments escape = .ok n) :
    ∃ (body header second : Text) (data : List Text),
      n.text = body ++ ['\n', '\n'] ∧ body.splitOn '\n' = header :: second :: data ∧
        (body.splitOn '\n').length = rows.length + 2 ∧
        (∀ line ∈ body.splitOn '\n', '\r' ∉ line) ∧
        List.Forall₂ (fun row line =>
            (splitBars line).length = headers.length ∧ ShowsRow escape row line)
          (headers :: rows) (header :: data) := by
  obtain ⟨-, hcolumns, aligned, haligned, hwidth, hfits, rfl⟩ := table_eq_ok_iff.mp h
  have hunbroken := tableLines_unbroken (alignmentCells_unbroken haligned) hfits
  have hlines : (Text.unlines (tableLines escape headers aligned rows)).splitOn '\n' =
      tableLines escape headers aligned rows := by
    apply List.splitOn_intercalate
    · intro line hline hmem
      exact absurd (hunbroken line hline _ hmem) (by decide)
    · exact List.cons_ne_nil _ _
  have hrow : ∀ row ∈ headers :: rows,
      (splitBars (rowOf escape row).text).length = headers.length ∧
        ShowsRow escape row (rowOf escape row).text := by
    intro row hrow
    have hlength : row.length = headers.length := by
      rcases List.mem_cons.mp hrow with rfl | hrow
      · rfl
      · exact hwidth row hrow
    have hne : row ≠ [] := by
      rintro rfl
      exact hcolumns (List.length_eq_zero_iff.mp hlength.symm)
    have hshows := showsRow_rowOf hne (hfits row hrow)
    exact ⟨hshows.length.trans hlength, hshows⟩
  refine ⟨_, (rowOf escape headers).text, cellSeparator.intercalate aligned,
    rows.map fun row => (rowOf escape row).text, rfl, hlines, ?_, ?_, ?_⟩
  · rw [hlines]
    simp [tableLines]
  · rw [hlines]
    intro line hline hmem
    exact absurd (hunbroken line hline _ hmem) (by decide)
  · show List.Forall₂ _ (headers :: rows)
      ((headers :: rows).map fun row => (rowOf escape row).text)
    rw [List.forall₂_map_right_iff, List.forall₂_same]
    exact hrow

/-- A header of literals with bars and backslashes, above a node that ends on a
backslash and one that has hidden its bar already. -/
theorem table_readable_backslashes :
    let headers : List Content := [.literal "a|\\".toList, .literal "|".toList]
    let row : List Content := [.node ⟨.text, "|\\".toList, false⟩,
      .node ⟨.code, "\x60\\|\x60".toList, true⟩]
    let n : Node := ⟨.table,
      "a\\|\\\\ | \\|\n--- | ---\n\\|\\ | \x60\\|\x60\n\n".toList, false⟩
    Writer.table {} headers [row] [] true = .ok n ∧
      splitBars "\\|\\ | \x60\\|\x60".toList =
        spaced ["\\|\\".toList, "\x60\\|\x60".toList] ∧
      ∃ (body header second : Text) (data : List Text),
        n.text = body ++ ['\n', '\n'] ∧ body.splitOn '\n' = header :: second :: data ∧
          (body.splitOn '\n').length = [row].length + 2 ∧
          (∀ line ∈ body.splitOn '\n', '\r' ∉ line) ∧
          List.Forall₂ (fun row line =>
              (splitBars line).length = headers.length ∧ ShowsRow true row line)
            [headers, row] (header :: data) := by
  intro headers row n
  have htable : Writer.table {} headers [row] [] true = .ok n := rfl
  exact ⟨htable, rfl, table_readable htable⟩

end Markdown
