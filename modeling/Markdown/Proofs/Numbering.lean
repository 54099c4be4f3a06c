import Mathlib.Algebra.Group.Nat.Defs
import Markdown.Proofs.FirstFaults
import Markdown.Proofs.Places

/-!
# Numbered lists

The numbers of a list are settled before any item is written. From the first number and
the number of items on the top level follows the last number, and a list whose last number
has more than nine digits is refused as a whole, whatever is wrong with its items
(`orderedList_eq`). So the count that a list carries from element to element has room in
32 bits from the first element on, and past the last one (`orderedList_numbers`).
-/

namespace Markdown

theorem Slot.entry_eq_settle {slot : Slot} {escape : Bool} (e : Entry) :
    slot.entry escape e =
      settle (slot.refusal? e.item) ⟨slot.writeEntry escape e, e.item.escaped escape⟩ := by
  rw [entry, item_eq_settle]
  exact settle_bind_ok rfl

/-- A list fails on the first item that may not stand in it, at any depth. -/
theorem writeList_eq_settle (kind : Kind) (m : Marking) (items : List Content)
    (escape : Bool) :
    writeList kind m items escape =
      settle ((leavesOfAll items).findSome? (listSlot kind).refusal?)
        ⟨kind, Text.unlines ((outlineLevel 0 m items).map
            ((listSlot kind).writeEntry escape)) ++ blankLine,
          escape && (items.flatMap Content.nodes).all (·.escaped)⟩ := by
  obtain ⟨htext, hescaped⟩ := join_outline kind m items escape
  rw [← htext, ← hescaped, writeList, ← listSlot, levelPieces_eq_mapM,
    mapM_eq_settle Slot.entry_eq_settle, ← map_item_outlineLevel items 0 m,
    List.findSome?_map]
  exact settle_bind_ok rfl

/-- **The outcome of a numbered list.** A first number below one is the first fault, a
demand that safe mode refuses the second, and a last number of more than nine digits the
third. Items come after all of these, and the first node among them that may not stand in
a list decides. -/
theorem orderedList_eq (w : Writer) (c : Content) (start : Int) (escape : Bool) :
    let count := c.elements.countP (·.isItem)
    w.orderedList c start escape =
      if start < 1 then .error (.listStart start)
      else if ¬(escape = true ∨ w.safeMode = false) then .error .unescaped
      else if maxNumber < start + count - 1 then .error (.listNumber start count)
      else
        match c.nodes.find? fun n => n.kind ∉ Kind.orderedList.accepts with
        | some n => .error (.nesting .orderedList n.kind)
        | none => .ok {
            kind := .orderedList
            text := Text.unlines (c.listPlaces.map ((ListStyle.numbers start).blockAt w escape))
              ++ blankLine
            escaped := escape && c.nodes.all (·.escaped)
          } := by
  intro count
  by_cases hstart : start < 1
  · rw [if_pos hstart, Writer.orderedList, require, if_neg (Int.not_le.mpr hstart)]
    rfl
  rw [if_neg hstart, Writer.orderedList, require, if_pos (Int.not_lt.mp hstart),
    requireEscape, require]
  by_cases hallowed : escape = true ∨ w.safeMode = false
  case neg =>
    rw [if_pos hallowed, if_neg hallowed]
    rfl
  rw [if_neg (not_not_intro hallowed), if_pos hallowed]
  show require (start + count - 1 ≤ maxNumber) (.listNumber start count) >>= (fun _ =>
    writeList .orderedList (.numbers start.toNat) c.elements escape) = _
  by_cases hlast : start + count - 1 ≤ maxNumber
  · have hfits : (ListStyle.numbers start).Fits c := ⟨Int.not_lt.mp hstart, hlast⟩
    have hblocks : (outlineLevel 0 (.numbers start.toNat) c.elements).map
        ((listSlot .orderedList).writeEntry escape) =
          c.listPlaces.map ((ListStyle.numbers start).blockAt w escape) :=
      ListStyle.map_writeEntry_outline hfits escape
    rw [require, if_pos hlast, if_neg (Int.not_lt.mpr hlast), writeList_eq_settle, hblocks,
      leavesOfAll_elements, flatMap_nodes_elements, Slot.findSome?_refusal?, ← Content.nodes]
    show settle ((c.nodes.find? fun n => n.kind ∉ Kind.orderedList.accepts).map fun n =>
      .nesting .orderedList n.kind) _ = _
    cases c.nodes.find? fun n => n.kind ∉ Kind.orderedList.accepts with
    | some n => rfl
    | none => rfl
  · rw [require, if_neg hlast, if_pos (Int.not_le.mp hlast)]
    rfl

/-! ## The count -/

/-- Whatever a level starts with, the count that is carried along is the marking at the
place that it has reached. -/
theorem ListStyle.foldl_after_markingAt (w : Writer) (style : ListStyle) (depth : Nat)
    (before cs : List Content) :
    cs.foldl Marking.after (style.markingAt w depth before) =
      style.markingAt w depth (before ++ cs) := by
  induction cs generalizing before with
  | nil => rw [List.append_nil]; rfl
  | cons c cs ih =>
      rw [List.foldl_cons, ListStyle.after_markingAt, ih, List.append_assoc,
        List.singleton_append]

/-- An item on the top level starts with its number, and its further lines stand under
its text. -/
theorem ListStyle.blockAt_top (w : Writer) (escape : Bool) (start : Int)
    (before : List Content) (i : Item) :
    let marker := decimalInt (start + before.countP (·.isItem)) ++ ". ".toList
    (ListStyle.numbers start).blockAt w escape ⟨0, before, i⟩ =
      marker ++ hang (List.replicate marker.length ' ') (i.listText escape) := by
  intro marker
  rw [hang_eq_intercalate, blockAt]
  have hmarker : (ListStyle.numbers start).markerAt w ⟨0, before, i⟩ = marker := rfl
  rw [hmarker, Nat.mul_zero, Nat.zero_add]
  rfl

section

variable {c : Content} {start : Int} {before after : List Content} {i : Item}

theorem Content.listPlaces_item (h : c.elements = before ++ .item i :: after) :
    ∃ front back, front.length = (leavesOfAll before).length ∧
      c.listPlaces = front ++ ⟨0, before, i⟩ :: back := by
  refine ⟨placesFrom 0 [] before, placesFrom 0 (before ++ [.item i]) after, ?_, ?_⟩
  · rw [← map_item_placesFrom before 0 [], List.length_map]
  · rw [listPlaces, h, placesFrom_item]

theorem ListStyle.Fits.number (hfits : (ListStyle.numbers start).Fits c)
    (h : c.elements = before ++ .item i :: after) :
    1 ≤ start + before.countP (·.isItem) ∧
      start + before.countP (·.isItem) ≤ maxNumber := by
  obtain ⟨hstart, hlast⟩ := hfits
  have hcount : c.elements.countP (·.isItem) =
      before.countP (·.isItem) + (after.countP (·.isItem) + 1) := by
    rw [h, List.countP_append, List.countP_cons_of_pos rfl]
  omega

/-- The count behind some elements of the top level is the first number and the items
among them. Behind the last item it is one more than the last number, for which 32 bits
have room. -/
theorem ListStyle.Fits.count (hfits : (ListStyle.numbers start).Fits c)
    (h : before <+: c.elements) :
    ∃ next : Nat, before.foldl Marking.after (.numbers start.toNat) = .numbers next ∧
      (next : Int) = start + before.countP (·.isItem) ∧ next < 2 ^ 31 := by
  obtain ⟨hstart, hlast⟩ := hfits
  have hsign : (start.toNat : Int) = start := Int.toNat_of_nonneg (by omega)
  have hle : before.countP (·.isItem) ≤ c.elements.countP (·.isItem) := h.sublist.countP_le
  have hmax : start + c.elements.countP (·.isItem) - 1 ≤ 999999999 := hlast
  exact ⟨start.toNat + before.countP (·.isItem),
    (ListStyle.numbers start).foldl_after_markingAt {} 0 [] before, by omega, by omega⟩

end

/-- **The numbers of a list.** A first number below one is refused before anything else.
Otherwise, if safe mode allows what is asked for, an argument is at fault exactly if the
last number has more than nine digits, and this comes before any item. In a list that is
made, an item on the top level is marked with the first number and the number of items
before it, which has one to nine digits, and the count that the writer carries from
element to element stays below 2^31, even behind the last item. -/
theorem orderedList_numbers (w : Writer) (c : Content) (start : Int) (escape : Bool) :
    let count := c.elements.countP (·.isItem)
    let made := w.orderedList c start escape
    (start < 1 → made = .error (.listStart start)) ∧
      (1 ≤ start → (escape = true ∨ w.safeMode = false) →
        ((∃ f, made = .error f ∧ f.family = .argument) ↔ 999999999 < start + count - 1) ∧
        (999999999 < start + count - 1 → made = .error (.listNumber start count))) ∧
      ∀ n, made = .ok n →
        (∀ before i after, c.elements = before ++ .item i :: after →
          let number := start + before.countP (·.isItem)
          let marker := decimalInt number ++ ". ".toList
          1 ≤ number ∧ number ≤ 999999999 ∧
            ∃ front back, front.length = (leavesOfAll before).length ∧
              n.text = Text.unlines (front
                ++ (marker ++ hang (List.replicate marker.length ' ') (i.listText escape))
                  :: back) ++ ['\n', '\n']) ∧
        ∀ before, before <+: c.elements → ∃ next : Nat,
          before.foldl Marking.after (.numbers start.toNat) = .numbers next ∧
            (next : Int) = start + before.countP (·.isItem) ∧ next < 2 ^ 31 := by
  intro count made
  refine ⟨fun hstart => ?_, fun hstart hallowed => ?_, fun n hn => ?_⟩
  · exact (orderedList_eq w c start escape).trans (if_pos hstart)
  · have hmade : made = _ := orderedList_eq w c start escape
    rw [if_neg (Int.not_lt.mpr hstart), if_neg (not_not_intro hallowed)] at hmade
    have hlast (h : 999999999 < start + count - 1) :
        made = .error (.listNumber start count) := hmade.trans (if_pos h)
    refine ⟨⟨?_, fun h => ⟨_, hlast h, rfl⟩⟩, hlast⟩
    rintro ⟨f, hf, hfamily⟩
    by_contra h
    have hitem : made = _ := hmade.trans (if_neg h)
    rw [hitem] at hf
    split at hf
    · obtain rfl := Except.error.inj hf
      exact absurd hfamily nofun
    · exact absurd hf nofun
  · have hlist : (ListStyle.numbers start).make w c escape = .ok n := hn
    obtain ⟨-, hfits, -, rfl⟩ := ListStyle.make_eq_ok_iff_blocks.mp hlist
    refine ⟨fun before i after helements => ?_, fun before hbefore => hfits.count hbefore⟩
    intro number marker
    obtain ⟨hpositive, hmax⟩ := hfits.number helements
    obtain ⟨front, back, hlength, hplaces⟩ := c.listPlaces_item helements
    let block := (ListStyle.numbers start).blockAt w escape
    refine ⟨hpositive, hmax, front.map block, back.map block, ?_, ?_⟩
    · rw [List.length_map, hlength]
    · rw [hplaces, List.map_append, List.map_cons, ListStyle.blockAt_top]
      rfl

/-- The last number that a list can have. The item of the sublist takes up none, so the
list is made, and it is one item too long with a literal in its place. -/
theorem orderedList_numbers_last :
    let w : Writer := {}
    let sublist : Content := .sequence [.literal "x".toList]
    let c : Content := .sequence [.literal "a".toList, sublist, .literal "b".toList]
    let d : Content := .sequence [.literal "a".toList, .literal "x".toList, .literal "b".toList]
    let start : Int := 999999998
    let n : Node := ⟨.orderedList, "999999998. a\n  1. x\n999999999. b\n\n".toList, true⟩
    w.orderedList c 0 true = .error (.listStart 0) ∧
      w.orderedList d start true = .error (.listNumber start 3) ∧
      w.orderedList c start true = .ok n ∧
      (∃ next : Nat, c.elements.foldl Marking.after (.numbers start.toNat) = .numbers next ∧
        (next : Int) = 1000000000 ∧ next < 2 ^ 31) := by
  intro w sublist c d start n
  have hmade : w.orderedList c start true = .ok n := by decide
  obtain ⟨hfirst, -, -⟩ := orderedList_numbers w c 0 true
  obtain ⟨-, hlong, -⟩ := orderedList_numbers w d start true
  obtain ⟨-, -, hok⟩ := orderedList_numbers w c start true
  obtain ⟨-, hcount⟩ := hok n hmade
  exact ⟨hfirst (by decide), (hlong (by decide) (.inl rfl)).2 (by decide), hmade,
    hcount c.elements (List.prefix_refl _)⟩

end Markdown
