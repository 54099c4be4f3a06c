import Markdown.Proofs.Frames

/-!
# Tables, specified

A table succeeds if its shape is right and every cell fits. Its text is then
the header, the line of alignments and the rows, cell by cell.
-/

namespace Markdown

def cellBody (escape : Bool) (c : Content) : Text :=
  c.leaves.flatMap (cellSlot.write escape)

structure CellFits (escape : Bool) (c : Content) : Prop where
  flat : c.Flat
  admits : ∀ i ∈ c.leaves, cellSlot.Admits i
  unbroken : (cellBody escape c).any isBreak = false

def cellOf (escape : Bool) (c : Content) : Piece :=
  ⟨escapeBars (cellBody escape c), escape && c.nodes.all (·.escaped)⟩

theorem cellPiece_eq_ok_iff {escape : Bool} {row : Option Nat} {column : Nat}
    {c : Content} {p : Piece} :
    cellPiece escape row column c = .ok p ↔ CellFits escape c ∧ cellOf escape c = p := by
  rw [cellPiece, bind_eq_ok_iff_of fun _ => Slot.fill_eq_ok_iff.trans and_assoc.symm,
    require_bind_eq_ok_iff, pure_eq_ok_iff]
  constructor
  · rintro ⟨⟨hflat, hadmits⟩, hunbroken, hcell⟩
    exact ⟨⟨hflat, hadmits, hunbroken⟩, hcell⟩
  · rintro ⟨⟨hflat, hadmits, hunbroken⟩, hcell⟩
    exact ⟨⟨hflat, hadmits⟩, hunbroken, hcell⟩

def rowOf (escape : Bool) (cells : List Content) : Piece :=
  Piece.join cellSeparator (cells.map (cellOf escape))

theorem rowPiece_eq_ok_iff {escape : Bool} {row : Option Nat} {cells : List Content}
    {p : Piece} :
    rowPiece escape row cells = .ok p ↔
      (∀ c ∈ cells, CellFits escape c) ∧ rowOf escape cells = p := by
  have hcells : ∀ ps, ((cells.zipIdx 1).mapM fun x => cellPiece escape row x.2 x.1) =
      .ok ps ↔ (∀ c ∈ cells, CellFits escape c) ∧ cells.map (cellOf escape) = ps :=
    fun ps => mapM_zipIdx_eq_ok_iff_map fun _ _ => cellPiece_eq_ok_iff
  have hrow := bind_eq_ok_iff_of (f := fun ps => pure (Piece.join cellSeparator ps))
    (b := p) hcells
  rw [pure_eq_ok_iff] at hrow
  exact hrow

theorem requireWidth_eq_ok_iff {columns : Nat} {rows : List (List Content)} {u : Unit} :
    requireWidth columns rows = .ok u ↔ ∀ row ∈ rows, row.length = columns := by
  rw [requireWidth, ← forall_mem_zipIdx (k := 1)]
  split
  · next cells row hfind =>
      have hwide : cells.length ≠ columns := by simpa using List.find?_some hfind
      refine ⟨nofun, fun h => ?_⟩
      exact absurd (h _ (List.mem_of_find?_eq_some hfind)) hwide
  · next hnone =>
      refine ⟨fun _ x hx => ?_, fun _ => rfl⟩
      simpa using List.find?_eq_none.mp hnone x hx

/-- Whether all rows are as wide as the header depends on their widths only. -/
theorem requireWidth_congr (columns : Nat) {rows rows' : List (List Content)}
    (h : rows.map List.length = rows'.map List.length) :
    requireWidth columns rows = requireWidth columns rows' := by
  have hfind : ∀ rows : List (List Content), requireWidth columns rows =
      match ((rows.map List.length).zipIdx 1).find? fun x => x.1 ≠ columns with
      | some (width, row) => .error (.rowWidth row width columns)
      | none => .ok () := by
    intro rows
    have hwidth : (fun x : Nat × Nat => decide (x.1 ≠ columns)) ∘ Prod.map List.length id =
        fun x : List Content × Nat => decide (x.1.length ≠ columns) := rfl
    rw [List.zipIdx_map, List.find?_map, hwidth]
    unfold requireWidth
    cases (rows.zipIdx 1).find? fun x => x.1.length ≠ columns <;> rfl
  rw [hfind, hfind, h]

/-- The nodes in the cells of a table, row by row. -/
def tableNodes (headers : List Content) (rows : List (List Content)) : List Node :=
  headers.flatMap Content.nodes ++ rows.flatMap (·.flatMap Content.nodes)

def tableLines (escape : Bool) (headers : List Content) (aligned : List Text)
    (rows : List (List Content)) : List Text :=
  (rowOf escape headers).text :: cellSeparator.intercalate aligned ::
    rows.map fun row => (rowOf escape row).text

theorem rowOf_escaped (cells : List Content) :
    (rowOf true cells).escaped = (cells.flatMap Content.nodes).all (·.escaped) := by
  simp only [rowOf, Piece.join, List.all_map, List.all_flatMap]
  rfl

theorem join_rows (escape : Bool) (headers : List Content) (aligned : List Text)
    (rows : List (List Content)) :
    let whole := Piece.join ['\n'] (rowOf escape headers ::
      ⟨cellSeparator.intercalate aligned, true⟩ :: rows.map (rowOf escape))
    whole.text = Text.unlines (tableLines escape headers aligned rows) ∧
      (escape && whole.escaped) =
        (escape && (tableNodes headers rows).all (·.escaped)) := by
  constructor
  · simp only [Piece.join, tableLines, List.map_cons, List.map_map]
    rfl
  · cases escape with
    | false => rfl
    | true =>
        simp only [Piece.join, tableNodes, List.all_cons, List.all_map, List.all_append,
          List.all_flatMap, Function.comp_def, rowOf_escaped, Bool.true_and]

theorem table_eq_ok_iff {w : Writer} {headers : List Content}
    {rows : List (List Content)} {alignments : List Text} {escape : Bool} {n : Node} :
    w.table headers rows alignments escape = .ok n ↔
      (escape = true ∨ w.safeMode = false) ∧ headers ≠ [] ∧
      ∃ aligned, alignmentCells headers.length alignments = .ok aligned ∧
        (∀ row ∈ rows, row.length = headers.length) ∧
        (∀ row ∈ headers :: rows, ∀ c ∈ row, CellFits escape c) ∧
        ⟨.table, Text.unlines (tableLines escape headers aligned rows) ++ blankLine,
          escape && (tableNodes headers rows).all (·.escaped)⟩ = n := by
  have hbody : ∀ ps, ((rows.zipIdx 1).mapM fun x => rowPiece escape (some x.2) x.1) =
      .ok ps ↔ (∀ row ∈ rows, ∀ c ∈ row, CellFits escape c) ∧
        rows.map (rowOf escape) = ps :=
    fun ps => mapM_zipIdx_eq_ok_iff_map fun _ _ => rowPiece_eq_ok_iff
  rw [Writer.table, requireEscape, require_bind_eq_ok_iff, require_bind_eq_ok_iff]
  simp only [bind_eq_ok_iff, pure_eq_ok_iff, requireWidth_eq_ok_iff, rowPiece_eq_ok_iff,
    List.forall_mem_cons]
  constructor
  · rintro ⟨hsafe, hcolumns, aligned, haligned, _, hwidth, _, ⟨hheader, rfl⟩, ps, hps, rfl⟩
    obtain ⟨hrows, rfl⟩ := (hbody ps).mp hps
    obtain ⟨htext, hescaped⟩ := join_rows escape headers aligned rows
    refine ⟨hsafe, hcolumns, aligned, haligned, hwidth, ⟨hheader, hrows⟩, ?_⟩
    rw [htext, hescaped]
  · rintro ⟨hsafe, hcolumns, aligned, haligned, hwidth, ⟨hheader, hrows⟩, rfl⟩
    obtain ⟨htext, hescaped⟩ := join_rows escape headers aligned rows
    refine ⟨hsafe, hcolumns, aligned, haligned, (), hwidth, _, ⟨hheader, rfl⟩, _,
      (hbody _).mpr ⟨hrows, rfl⟩, ?_⟩
    rw [htext, hescaped]

end Markdown
