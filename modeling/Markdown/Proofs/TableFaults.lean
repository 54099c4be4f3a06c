import Markdown.Proofs.FirstFaults
import Markdown.Proofs.Tables

/-!
# The faults of a table

A table can have many faults at once, in its shape and in its cells. `tableFaults` lists
all of them in the order in which they count: first what concerns the table as a whole,
then the cells, row by row from the header on. The outcome of a table is the first entry
of this list, and a table with an empty list is written (`table_first_fault`).

Each step of the writer settles with the first fault of a list of its own, and steps one
after the other with the first fault of their lists put together (`settle_head?_bind`).
-/

namespace Markdown

section

variable {α β : Type}

theorem require_eq_settle_head? {p : Prop} [Decidable p] {f : Fault} :
    require p f = settle (if p then [] else [f]).head? () := by
  rw [require_eq_settle]
  by_cases h : p
  · rw [if_pos h, if_pos h, List.head?_nil]
  · rw [if_neg h, if_neg h, List.head?_cons]

theorem settle_head?_bind {faults later : List Fault} {a : α} {k : α → Except Fault β}
    {b : β} (h : k a = settle later.head? b) :
    settle faults.head? a >>= k = settle (faults ++ later).head? b := by
  rw [List.head?_append]
  exact settle_bind h

theorem mapM_eq_settle_head? {f : α → Except Fault β} {faults : α → List Fault} {g : α → β}
    (h : ∀ x, f x = settle (faults x).head? (g x)) (xs : List α) :
    xs.mapM f = settle (xs.flatMap faults).head? (xs.map g) := by
  rw [mapM_eq_settle h, List.head?_flatMap]

theorem flatMap_ite_eq_map_filter {p : α → Prop} [DecidablePred p] (g : α → β)
    (xs : List α) :
    (xs.flatMap fun x => if p x then [] else [g x]) = (xs.filter fun x => ¬p x).map g := by
  induction xs with
  | nil => rfl
  | cons x xs ih =>
      by_cases h : p x
      · rw [List.flatMap_cons, if_pos h, List.nil_append, ih,
          List.filter_cons_of_neg (by simpa using h)]
      · rw [List.flatMap_cons, if_neg h, ih, List.filter_cons_of_pos (by simpa using h)]
        rfl

end

/-- All faults of a content in a slot: a sequence in its sequence, and the nodes that may
not stand there. -/
def Slot.faults (slot : Slot) (c : Content) : List Fault :=
  (if c.Flat then [] else [.nestedSequence slot.owner])
    ++ (c.nodes.filter fun n => n.kind ∉ slot.accepts).map fun n =>
      .nesting slot.owner n.kind

theorem Slot.head?_faults (slot : Slot) (c : Content) :
    (slot.faults c).head? = slot.fault? c := by
  rw [faults, fault?, findSome?_refusal?, ← Content.nodes, List.head?_append,
    List.head?_map, List.head?_filter]
  by_cases hflat : c.Flat
  · rw [if_pos hflat, if_pos hflat, List.head?_nil]
  · rw [if_neg hflat, if_neg hflat, List.head?_cons]

/-- All faults of a cell. The last is a line break in its text. -/
def cellFaults (escape : Bool) (row : Option Nat) (column : Nat) (c : Content) :
    List Fault :=
  cellSlot.faults c
    ++ if (cellBody escape c).any isBreak = false then [] else [.cellBreak row column]

theorem cellPiece_eq_settle (escape : Bool) (row : Option Nat) (column : Nat) (c : Content) :
    cellPiece escape row column c =
      settle (cellFaults escape row column c).head? (cellOf escape c) := by
  rw [cellPiece, Slot.fill_eq_settle, ← Slot.head?_faults, cellFaults]
  apply settle_head?_bind
  rw [require_eq_settle_head?]
  exact settle_bind_ok rfl

def rowFaults (escape : Bool) (row : Option Nat) (cells : List Content) : List Fault :=
  (cells.zipIdx 1).flatMap fun (c, column) => cellFaults escape row column c

theorem rowPiece_eq_settle (escape : Bool) (row : Option Nat) (cells : List Content) :
    rowPiece escape row cells =
      settle (rowFaults escape row cells).head? (rowOf escape cells) := by
  have hcells : ((cells.zipIdx 1).mapM fun x => cellPiece escape row x.2 x.1) =
      settle (rowFaults escape row cells).head?
        ((cells.zipIdx 1).map (cellOf escape ∘ Prod.fst)) :=
    mapM_eq_settle_head? (fun (c, column) => cellPiece_eq_settle escape row column c) _
  rw [← List.map_map, List.zipIdx_map_fst] at hcells
  have hrow : rowPiece escape row cells =
      ((cells.zipIdx 1).mapM fun x => cellPiece escape row x.2 x.1) >>= fun pieces =>
        pure (Piece.join cellSeparator pieces) := rfl
  rw [hrow, hcells]
  exact settle_bind_ok rfl

/-! ## The shape of a table -/

namespace Alignment

def words : List Text :=
  ["left".toList, "center".toList, "right".toList]

def dashesFor (word : Text) : Text :=
  if word = "left".toList then left.dashes
  else if word = "center".toList then center.dashes
  else right.dashes

theorem parse_eq_settle (word : Text) :
    dashes <$> parse word =
      settle (if word ∈ words then [] else [.alignment word]).head? (dashesFor word) := by
  have hwords : word ∈ words ↔
      word = "left".toList ∨ word = "center".toList ∨ word = "right".toList := by
    simp [words]
  by_cases hword : word ∈ words
  · rw [if_pos hword]
    rcases hwords.mp hword with rfl | rfl | rfl
    · rfl
    · rfl
    · rfl
  · obtain ⟨hleft, hcenter, hright⟩ := by simpa only [not_or] using mt hwords.mpr hword
    rw [if_neg hword, parse, if_neg hleft, if_neg hcenter, if_neg hright]
    rfl

end Alignment

/-- Membership in a list of words is decided by comparing texts. -/
instance Text.lawfulBEq : LawfulBEq Text := inferInstance

/-- All faults of the words for the alignments of some columns: more or fewer words than
columns, and the words that name no alignment. -/
def alignmentFaults (columns : Nat) (words : List Text) : List Fault :=
  (if words = [] ∨ words.length = columns then []
    else [.alignmentCount words.length columns])
    ++ (words.filter fun word => word ∉ Alignment.words).map .alignment

/-- The second line of a table cell by cell, whatever the words are. -/
def alignedCells (columns : Nat) (words : List Text) : List Text :=
  if words = [] then List.replicate columns "---".toList
  else words.map Alignment.dashesFor

theorem alignmentCells_eq_settle (columns : Nat) (words : List Text) :
    alignmentCells columns words =
      settle (alignmentFaults columns words).head? (alignedCells columns words) := by
  by_cases hwords : words = []
  · subst hwords
    rfl
  · have hcount : (words = [] ∨ words.length = columns) ↔ words.length = columns :=
      or_iff_right hwords
    rw [alignmentCells, if_neg hwords, alignmentFaults, alignedCells, if_neg hwords,
      require_eq_settle_head?]
    simp only [hcount]
    apply settle_head?_bind
    rw [mapM_eq_settle_head? Alignment.parse_eq_settle, flatMap_ite_eq_map_filter]

/-- The rows that are not as wide as the header, each as a fault. -/
def widthFaults (columns : Nat) (rows : List (List Content)) : List Fault :=
  ((rows.zipIdx 1).filter fun (cells, _) => cells.length ≠ columns).map fun (cells, row) =>
    .rowWidth row cells.length columns

theorem requireWidth_eq_settle (columns : Nat) (rows : List (List Content)) :
    requireWidth columns rows = settle (widthFaults columns rows).head? () := by
  rw [requireWidth, widthFaults, List.head?_map, List.head?_filter]
  split
  · next cells row hfind => rw [hfind]; rfl
  · next hnone => rw [hnone]; rfl

/-- All faults of a table, in the order in which they count. -/
def tableFaults (safe escape : Bool) (headers : List Content) (rows : List (List Content))
    (words : List Text) : List Fault :=
  (if escape = true ∨ safe = false then [] else [.unescaped])
    ++ (if headers ≠ [] then [] else [.noColumns])
    ++ alignmentFaults headers.length words
    ++ widthFaults headers.length rows
    ++ rowFaults escape none headers
    ++ (rows.zipIdx 1).flatMap fun (cells, row) => rowFaults escape (some row) cells

theorem Writer.table_eq_settle (w : Writer) (headers : List Content)
    (rows : List (List Content)) (words : List Text) (escape : Bool) :
    w.table headers rows words escape =
      settle (tableFaults w.safeMode escape headers rows words).head?
        ⟨.table, Text.unlines (tableLines escape headers
            (alignedCells headers.length words) rows) ++ blankLine,
          escape && (tableNodes headers rows).all (·.escaped)⟩ := by
  have hbody : ((rows.zipIdx 1).mapM fun x => rowPiece escape (some x.2) x.1) =
      settle ((rows.zipIdx 1).flatMap fun (cells, row) =>
          rowFaults escape (some row) cells).head?
        ((rows.zipIdx 1).map (rowOf escape ∘ Prod.fst)) :=
    mapM_eq_settle_head? (fun (cells, row) => rowPiece_eq_settle escape (some row) cells) _
  rw [← List.map_map, List.zipIdx_map_fst] at hbody
  obtain ⟨htext, hescaped⟩ :=
    join_rows escape headers (alignedCells headers.length words) rows
  rw [Writer.table, tableFaults, requireEscape, require_eq_settle_head?]
  simp only [List.append_assoc]
  apply settle_head?_bind
  rw [require_eq_settle_head?]
  apply settle_head?_bind
  rw [alignmentCells_eq_settle]
  apply settle_head?_bind
  rw [requireWidth_eq_settle]
  apply settle_head?_bind
  rw [rowPiece_eq_settle]
  apply settle_head?_bind
  rw [hbody]
  apply settle_bind_ok
  rw [← htext, ← hescaped]
  rfl

/-! ## Messages -/

theorem null_notMem_decimal (n : Nat) : '\x00' ∉ decimal n :=
  fun h => absurd (isDigit_of_mem_decimal h) (by decide)

namespace Fault

theorem message_of_words {f : Fault} {t : Text} (h : f.words = t) (hnull : '\x00' ∉ t) :
    f.message = t := by
  rw [message_eq_words (h ▸ hnull), h]

theorem message_rowWidth (row width columns : Nat) :
    (rowWidth row width columns).message =
      "table row ".toList ++ decimal row ++ " has ".toList ++ decimal width
        ++ " columns but headers have ".toList ++ decimal columns :=
  message_of_words rfl (by simp [null_notMem_decimal])

theorem message_cellBreak_header (column : Nat) :
    (cellBreak none column).message =
      "table header column ".toList ++ decimal column ++ " contains a line break".toList :=
  message_of_words rfl (by simp [null_notMem_decimal])

theorem message_cellBreak_row (row column : Nat) :
    (cellBreak (some row) column).message =
      "table row ".toList ++ decimal row ++ " column ".toList ++ decimal column
        ++ " contains a line break".toList :=
  message_of_words rfl (by simp [null_notMem_decimal])

end Fault

/-- **The outcome of a table** is the first of its faults: what safe mode refuses, a table
without columns, too many or too few words for the alignments, a word that is none, a row
that is not as wide as the header, and then cell by cell in reading order a sequence in a
sequence, a node that may not stand there, and a line break. Without any of these the
table is written. The message names a row of the wrong width by its number and both
widths, and a broken cell by its row and column, which count from one. -/
theorem table_first_fault (w : Writer) (headers : List Content)
    (rows : List (List Content)) (words : List Text) (escape : Bool) :
    (w.table headers rows words escape =
      match (tableFaults w.safeMode escape headers rows words).head? with
      | some f => .error f
      | none => .ok {
          kind := .table
          text := Text.unlines (tableLines escape headers
            (alignedCells headers.length words) rows) ++ blankLine
          escaped := escape && (tableNodes headers rows).all (·.escaped)
        }) ∧
    (∀ row width columns, (Fault.rowWidth row width columns).message =
      "table row ".toList ++ decimal row ++ " has ".toList ++ decimal width
        ++ " columns but headers have ".toList ++ decimal columns) ∧
    (∀ column, (Fault.cellBreak none column).message =
      "table header column ".toList ++ decimal column
        ++ " contains a line break".toList) ∧
    ∀ row column, (Fault.cellBreak (some row) column).message =
      "table row ".toList ++ decimal row ++ " column ".toList ++ decimal column
        ++ " contains a line break".toList :=
  ⟨w.table_eq_settle headers rows words escape, Fault.message_rowWidth,
    Fault.message_cellBreak_header, Fault.message_cellBreak_row⟩

/-- Of five faults, the width of the second row counts, though it stands behind the
others. -/
example :
    let nested : Content := .sequence [.sequence []]
    let block : Content := .node ⟨.paragraph, "a".toList, true⟩
    let broken : Content := .literal "a\nb".toList
    Writer.table {} [nested, block] [[broken, broken], [.literal []]] [] true =
      .error (.rowWidth 2 1 2) := rfl

end Markdown
