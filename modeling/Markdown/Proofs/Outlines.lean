import Markdown.Proofs.Frames

/-!
# Outlines

The outline of a list is the flat list of its items in reading order, each
with the depth of its level and the marker it stands behind. Writing a list is
writing its outline entry by entry (`levelPieces_eq_mapM`), so nothing below has
to follow the nesting again.
-/

namespace Markdown

/-- An item of a list with its place. -/
structure Entry where
  depth : Nat
  marker : Text
  item : Item

mutual

def Content.outline (depth : Nat) (m : Marking) : Content → List Entry
  | .item i => [⟨depth, m.marker, i⟩]
  | .sequence inner => outlineLevel (depth + 1) m.sublist inner

def outlineLevel (depth : Nat) (m : Marking) : List Content → List Entry
  | [] => []
  | c :: rest => c.outline depth m ++ outlineLevel depth (m.after c) rest

end

mutual

theorem Content.map_item_outline : ∀ (c : Content) (depth : Nat) (m : Marking),
    (c.outline depth m).map Entry.item = c.leaves
  | .item _, _, _ => rfl
  | .sequence inner, depth, m => map_item_outlineLevel inner (depth + 1) m.sublist

/-- An outline has the items of the list and no others. -/
theorem map_item_outlineLevel : ∀ (cs : List Content) (depth : Nat) (m : Marking),
    (outlineLevel depth m cs).map Entry.item = leavesOfAll cs
  | [], _, _ => rfl
  | c :: rest, depth, m => by
      rw [outlineLevel, List.map_append, Content.map_item_outline,
        map_item_outlineLevel rest, leavesOfAll]

end

def Slot.entry (slot : Slot) (escape : Bool) (e : Entry) : Except Fault Piece := do
  let p ← slot.item escape e.item
  return ⟨itemBlock e.depth e.marker (itemBody e.item p), p.escaped⟩

section Pieces

variable (slot : Slot) (escape : Bool)

mutual

theorem elementPieces_eq_mapM : ∀ (c : Content) (depth : Nat) (m : Marking),
    elementPieces slot escape depth m c = (c.outline depth m).mapM (slot.entry escape)
  | .item i, depth, m => by
      rw [elementPieces, Content.outline]
      simp only [List.mapM_cons, List.mapM_nil, Slot.entry, bind_assoc, pure_bind]
  | .sequence inner, depth, m => levelPieces_eq_mapM inner (depth + 1) m.sublist

/-- **A list is written entry by entry**, faults included. -/
theorem levelPieces_eq_mapM : ∀ (cs : List Content) (depth : Nat) (m : Marking),
    levelPieces slot escape depth m cs =
      (outlineLevel depth m cs).mapM (slot.entry escape)
  | [], _, _ => rfl
  | c :: rest, depth, m => by
      rw [levelPieces, outlineLevel, List.mapM_append, elementPieces_eq_mapM c,
        levelPieces_eq_mapM rest]

end

end Pieces

def Slot.writeEntry (slot : Slot) (escape : Bool) (e : Entry) : Text :=
  itemBlock e.depth e.marker
    (itemBody e.item ⟨slot.write escape e.item, e.item.escaped escape⟩)

theorem Slot.entry_eq_ok_iff {slot : Slot} {escape : Bool} {e : Entry} {p : Piece} :
    slot.entry escape e = .ok p ↔
      slot.Admits e.item ∧ ⟨slot.writeEntry escape e, e.item.escaped escape⟩ = p := by
  rw [entry, bind_eq_ok_iff_of fun _ => item_eq_ok_iff, pure_eq_ok_iff]
  rfl

def listSlot (kind : Kind) : Slot :=
  { owner := kind, context := .listItem }

theorem join_outline (kind : Kind) (m : Marking) (items : List Content) (escape : Bool) :
    let body := Piece.join ['\n'] ((outlineLevel 0 m items).map fun e =>
      ⟨(listSlot kind).writeEntry escape e, e.item.escaped escape⟩)
    body.text =
        Text.unlines ((outlineLevel 0 m items).map ((listSlot kind).writeEntry escape)) ∧
      (escape && body.escaped) =
        (escape && (items.flatMap Content.nodes).all (·.escaped)) := by
  constructor
  · rw [Piece.join, List.map_map]
    rfl
  · rw [Piece.join, ← nodes_sequence, Content.nodes, ← all_escaped, Content.leaves,
      ← map_item_outlineLevel items 0 m, List.all_map, List.all_map]
    rfl

theorem writeList_eq_ok_iff {kind : Kind} {m : Marking} {items : List Content}
    {escape : Bool} {n : Node} :
    writeList kind m items escape = .ok n ↔
      (∀ i ∈ leavesOfAll items, (listSlot kind).Admits i) ∧
        ⟨kind,
          Text.unlines ((outlineLevel 0 m items).map
            ((listSlot kind).writeEntry escape)) ++ blankLine,
          escape && (items.flatMap Content.nodes).all (·.escaped)⟩ = n := by
  have hadmits : (∀ e ∈ outlineLevel 0 m items, (listSlot kind).Admits e.item) ↔
      ∀ i ∈ leavesOfAll items, (listSlot kind).Admits i := by
    rw [← map_item_outlineLevel items 0 m, List.forall_mem_map]
  obtain ⟨htext, hescaped⟩ := join_outline kind m items escape
  rw [← hadmits, ← htext, ← hescaped, writeList, ← listSlot, levelPieces_eq_mapM,
    bind_eq_ok_iff_of fun _ => mapM_eq_ok_iff_map fun _ _ => Slot.entry_eq_ok_iff,
    pure_eq_ok_iff]

theorem leavesOfAll_elements (c : Content) : leavesOfAll c.elements = c.leaves := by
  cases c with
  | item i => rfl
  | sequence es => rfl

theorem flatMap_nodes_elements (c : Content) :
    c.elements.flatMap Content.nodes = c.nodes := by
  rw [← nodes_sequence, Content.nodes, Content.leaves, leavesOfAll_elements]
  rfl

namespace ListStyle

def marking (w : Writer) : ListStyle → Marking
  | .bullets => .bullets w.bullet
  | .numbers start => .numbers start.toNat
  | .boxes checks => .boxes w.bullet (checks.getD [])

/-- A list may have the elements of a content on its top level. -/
def Fits (c : Content) : ListStyle → Prop
  | .bullets => True
  | .numbers start =>
      1 ≤ start ∧ start + c.elements.countP (·.isItem) - 1 ≤ maxNumber
  | .boxes checks => ∀ flags ∈ checks, flags.length = c.elements.length

/-- Past its own checks, every list is the same list with its own marks. -/
theorem make_eq_ok_iff_writeList {style : ListStyle} {w : Writer} {c : Content}
    {escape : Bool} {n : Node} :
    style.make w c escape = .ok n ↔
      (escape = true ∨ w.safeMode = false) ∧ style.Fits c ∧
        writeList style.kind (style.marking w) c.elements escape = .ok n := by
  cases style with
  | bullets =>
      rw [make, Writer.bulletList, requireEscape, require_bind_eq_ok_iff]
      simp only [Fits, true_and]
      rfl
  | numbers start =>
      -- the first number is checked before the demand, the last one after it
      rw [make, Writer.orderedList, requireEscape, require_bind_eq_ok_iff,
        require_bind_eq_ok_iff, require_bind_eq_ok_iff]
      simp only [Fits, and_assoc, and_left_comm]
      rfl
  | boxes checks =>
      unfold make Writer.checklist
      rw [requireEscape, require_bind_eq_ok_iff]
      cases checks with
      | none =>
          simp only [Fits, Option.not_mem_none, false_implies, implies_true, true_and]
          rfl
      | some flags =>
          simp only [Fits, Option.mem_some_iff, forall_eq', require_bind_eq_ok_iff]
          rfl

theorem make_eq_ok_iff {style : ListStyle} {w : Writer} {c : Content} {escape : Bool}
    {n : Node} :
    style.make w c escape = .ok n ↔
      (escape = true ∨ w.safeMode = false) ∧ style.Fits c ∧
        (∀ i ∈ c.leaves, (listSlot style.kind).Admits i) ∧
        ⟨style.kind,
          Text.unlines ((outlineLevel 0 (style.marking w) c.elements).map
            ((listSlot style.kind).writeEntry escape)) ++ blankLine,
          escape && c.nodes.all (·.escaped)⟩ = n := by
  rw [make_eq_ok_iff_writeList, writeList_eq_ok_iff, leavesOfAll_elements,
    flatMap_nodes_elements]

end ListStyle

end Markdown
