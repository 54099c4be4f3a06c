import Markdown.Proofs.Lines
import Markdown.Proofs.Outcomes
import Markdown.Proofs.Outlines

/-!
# Places

The text of a list, without the walk that writes it. An item has a place in its
list: the depth of its level, and the elements that stand before it in its own
sequence. The place alone decides how the item is marked and how far it is
indented (`ListStyle.markerAt`, `ListStyle.blockAt`), so a list is the blocks of
its items in reading order (`list_text`).

A writer carries the marking of a level along instead. What ties the two together
is the marking that a level has arrived at behind some of its elements
(`ListStyle.markingAt`): a step over one more element and a step into a sublist
both lead from one such marking to another.

Writing level by level, with each sublist joined to one text before it joins the
level around it, comes to the same (`levelLines_eq`).
-/

namespace Markdown

/-- An item of a list with its place: the depth of its level, and the elements
before it in its own sequence. -/
structure Place where
  depth : Nat
  before : List Content
  item : Item

mutual

def Content.places (depth : Nat) (before : List Content) : Content → List Place
  | .item i => [⟨depth, before, i⟩]
  | .sequence inner => placesFrom (depth + 1) [] inner

/-- The places in the elements of a level from some element on, in reading
order. -/
def placesFrom (depth : Nat) (before : List Content) : List Content → List Place
  | [] => []
  | c :: rest => c.places depth before ++ placesFrom depth (before ++ [c]) rest

end

def Content.listPlaces (c : Content) : List Place :=
  placesFrom 0 [] c.elements

mutual

theorem Content.map_item_places : ∀ (c : Content) (depth : Nat) (before : List Content),
    (c.places depth before).map Place.item = c.leaves
  | .item _, _, _ => rfl
  | .sequence inner, depth, _ => map_item_placesFrom inner (depth + 1) []

/-- Every item of a level and of the levels within it has one place. -/
theorem map_item_placesFrom : ∀ (cs : List Content) (depth : Nat) (before : List Content),
    (placesFrom depth before cs).map Place.item = leavesOfAll cs
  | [], _, _ => rfl
  | c :: rest, depth, before => by
      rw [placesFrom, List.map_append, Content.map_item_places, map_item_placesFrom rest,
        leavesOfAll]

end

theorem placesFrom_append (depth : Nat) (before cs ds : List Content) :
    placesFrom depth before (cs ++ ds) =
      placesFrom depth before cs ++ placesFrom depth (before ++ cs) ds := by
  induction cs generalizing before with
  | nil => rw [List.append_nil]; rfl
  | cons c cs ih =>
      rw [List.cons_append, placesFrom, ih, placesFrom, List.append_assoc,
        List.append_assoc, List.singleton_append]

theorem placesFrom_item (depth : Nat) (before : List Content) (i : Item)
    (after : List Content) :
    placesFrom depth [] (before ++ .item i :: after) =
      placesFrom depth [] before ++
        ⟨depth, before, i⟩ :: placesFrom depth (before ++ [.item i]) after := by
  rw [placesFrom_append, placesFrom]
  rfl

/-! ## What stands at a place -/

/-- The text of an item in a list. A node loses the white space around it. -/
def Item.listText (escape : Bool) : Item → Text
  | .literal t => if escape then Context.listItem.escape t else t
  | .node n => n.text.trim

namespace ListStyle

/-- The marker of a place. A number counts the items before it in the same
sequence; a box is checked by the flag of its element, sublists included. Only
the top level counts from the number and follows the flags that were given. -/
def markerAt (w : Writer) (style : ListStyle) (p : Place) : Text :=
  match style with
  | .bullets => w.bullet ++ " ".toList
  | .numbers start =>
      let first := if p.depth = 0 then start else 1
      decimalInt (first + p.before.countP (·.isItem)) ++ ". ".toList
  | .boxes checks =>
      let checked := p.depth = 0 ∧ ∃ flags ∈ checks, flags[p.before.length]? = some true
      w.bullet ++ (if checked then " [x] " else " [ ] ").toList

/-- What is written at a place: the marker behind the indent of the level, and the
text of the item, whose further lines stand under its first. -/
def blockAt (w : Writer) (escape : Bool) (style : ListStyle) (p : Place) : Text :=
  let marker := style.markerAt w p
  let margin := List.replicate (2 * p.depth + marker.length) ' '
  List.replicate (2 * p.depth) ' ' ++ marker
    ++ ('\n' :: margin).intercalate ((p.item.listText escape).splitOn '\n')

/-- The marking of a level behind some of its elements. -/
def markingAt (w : Writer) (depth : Nat) (before : List Content) : ListStyle → Marking
  | .bullets => .bullets w.bullet
  | .numbers start =>
      .numbers ((if depth = 0 then start.toNat else 1) + before.countP (·.isItem))
  | .boxes checks =>
      .boxes w.bullet (if depth = 0 then (checks.getD []).drop before.length else [])

variable (w : Writer) (style : ListStyle) (depth : Nat) (before : List Content)

theorem markingAt_start : style.markingAt w 0 [] = style.marking w := by
  cases style <;> rfl

theorem after_markingAt (c : Content) :
    (style.markingAt w depth before).after c = style.markingAt w depth (before ++ [c]) := by
  cases style with
  | bullets => rfl
  | numbers start =>
      cases c <;> simp [markingAt, Marking.after, Content.isItem, Nat.add_assoc]
  | boxes checks =>
      simp only [markingAt, Marking.after, List.length_append, List.length_singleton]
      split
      · rw [List.tail_drop]
      · rfl

theorem sublist_markingAt :
    (style.markingAt w depth before).sublist = style.markingAt w (depth + 1) [] := by
  cases style <;> rfl

variable {style}

theorem marker_markingAt (h : ∀ start, style = .numbers start → 1 ≤ start) (i : Item) :
    (style.markingAt w depth before).marker = style.markerAt w ⟨depth, before, i⟩ := by
  cases style with
  | bullets => rfl
  | numbers start =>
      have hstart : (start.toNat : Int) = start := Int.toNat_of_nonneg (by
        have := h start rfl
        omega)
      have hnumber : ∀ n : Nat, decimal n = decimalInt n := fun _ => rfl
      simp only [markingAt, Marking.marker, markerAt, hnumber]
      split <;> simp [hstart]
  | boxes checks =>
      have hflag : ∀ flag? : Option Bool, flag?.getD false = true ↔ flag? = some true := by
        intro flag?
        cases flag? <;> simp
      simp only [markingAt, Marking.marker, markerAt]
      by_cases hdepth : depth = 0
      · cases checks with
        | none => simp
        | some flags => simp [hdepth, hflag]
      · simp [hdepth]

end ListStyle

mutual

theorem outline_markingAt {w : Writer} {style : ListStyle}
    (h : ∀ start, style = .numbers start → 1 ≤ start) :
    ∀ (c : Content) (depth : Nat) (before : List Content),
      c.outline depth (style.markingAt w depth before) =
        (c.places depth before).map fun p => ⟨p.depth, style.markerAt w p, p.item⟩
  | .item i, depth, before => by
      rw [Content.outline, Content.places, ListStyle.marker_markingAt w depth before h i]
      rfl
  | .sequence inner, depth, before => by
      rw [Content.outline, Content.places, ListStyle.sublist_markingAt,
        outlineLevel_markingAt h inner]

/-- **The outline of a level is its places with their markers.** -/
theorem outlineLevel_markingAt {w : Writer} {style : ListStyle}
    (h : ∀ start, style = .numbers start → 1 ≤ start) :
    ∀ (cs : List Content) (depth : Nat) (before : List Content),
      outlineLevel depth (style.markingAt w depth before) cs =
        (placesFrom depth before cs).map fun p => ⟨p.depth, style.markerAt w p, p.item⟩
  | [], _, _ => rfl
  | c :: rest, depth, before => by
      rw [outlineLevel, placesFrom, List.map_append, outline_markingAt h c,
        ListStyle.after_markingAt, outlineLevel_markingAt h rest]

end

/-! ## Blocks -/

/-- Every line of a text but the first comes out behind the indent. -/
theorem hang_eq_intercalate (indent t : Text) :
    hang indent t = ('\n' :: indent).intercalate (t.splitOn '\n') := by
  induction t with
  | nil => rfl
  | cons c t ih =>
      obtain ⟨l, ls, hsplit⟩ := List.exists_cons_of_ne_nil (List.splitOn_ne_nil '\n' t)
      rw [hsplit] at ih
      rw [List.splitOn_cons_eq_if_modifyHead, hsplit, hang, List.flatMap_cons, ← hang, ih]
      by_cases hc : c = '\n'
      · simp [hc, List.intercalate_cons_cons]
      · simp [hc, Text.intercalate_cons]

theorem writeEntry_eq_blockAt (w : Writer) (escape : Bool) (style : ListStyle) (p : Place) :
    (listSlot style.kind).writeEntry escape ⟨p.depth, style.markerAt w p, p.item⟩ =
      style.blockAt w escape p := by
  have hbody : itemBody p.item ⟨(listSlot style.kind).write escape p.item,
      p.item.escaped escape⟩ = p.item.listText escape := by
    cases p.item <;> rfl
  rw [Slot.writeEntry, hbody, itemBlock, levelIndent, List.replicate_append_replicate,
    hang_eq_intercalate]
  rfl

theorem ListStyle.map_writeEntry_outline {style : ListStyle} {w : Writer} {c : Content}
    (hfits : style.Fits c) (escape : Bool) :
    (outlineLevel 0 (style.marking w) c.elements).map
        ((listSlot style.kind).writeEntry escape) =
      c.listPlaces.map (style.blockAt w escape) := by
  have hstart : ∀ start, style = .numbers start → 1 ≤ start := by
    rintro start rfl
    exact hfits.1
  rw [← ListStyle.markingAt_start, outlineLevel_markingAt hstart, List.map_map]
  exact List.map_congr_left fun p _ => writeEntry_eq_blockAt w escape style p

theorem ListStyle.make_eq_ok_iff_blocks {style : ListStyle} {w : Writer} {c : Content}
    {escape : Bool} {n : Node} :
    style.make w c escape = .ok n ↔
      (escape = true ∨ w.safeMode = false) ∧ style.Fits c ∧
        (∀ i ∈ c.leaves, (listSlot style.kind).Admits i) ∧
        ⟨style.kind, Text.unlines (c.listPlaces.map (style.blockAt w escape)) ++ blankLine,
          escape && c.nodes.all (·.escaped)⟩ = n := by
  rw [ListStyle.make_eq_ok_iff]
  refine and_congr_right fun _ => and_congr_right fun hfits => ?_
  rw [ListStyle.map_writeEntry_outline hfits]

/-- **A list is its items in reading order**, each written at its place, and a blank
line. Sequences have no text of their own, so an empty sublist leaves no trace. -/
theorem list_text {w : Writer} {style : ListStyle} {c : Content} {escape : Bool} {n : Node}
    (h : style.make w c escape = .ok n) :
    c.listPlaces.map Place.item = c.leaves ∧
      n.text = Text.unlines (c.listPlaces.map (style.blockAt w escape)) ++ ['\n', '\n'] := by
  obtain ⟨-, hfits, -, rfl⟩ := ListStyle.make_eq_ok_iff.mp h
  have hstart : ∀ start, style = .numbers start → 1 ≤ start := by
    rintro start rfl
    exact hfits.1
  constructor
  · rw [Content.listPlaces, map_item_placesFrom, leavesOfAll_elements]
  · rw [← ListStyle.markingAt_start, outlineLevel_markingAt hstart, List.map_map]
    simp only [Function.comp_def, writeEntry_eq_blockAt]
    rfl

/-- The second number is wider than the first, so its further lines stand one
column further in; neither the sublist nor the empty sequence takes up a number. In
the checklist both take up a flag. -/
theorem list_text_sublists :
    let items : Content := .sequence [.literal "a\nb".toList,
      .sequence [.sequence [.node ⟨.text, " c\nd ".toList, true⟩], .literal "e".toList],
      .sequence [], .literal "- f\ng".toList]
    let numbered : Text := "9. a\n   b\n    1. c\n       d\n  1. e\n10. \\- f\n    g".toList
    let checked : Text :=
      "+ [ ] a\n      b\n    + [ ] c\n          d\n  + [ ] e\n+ [x] \\- f\n      g".toList
    let flags := some [false, true, true, true]
    let w : Writer := { bullet := ['+'] }
    (ListStyle.numbers 9).make w items true = .ok ⟨.orderedList, numbered ++ ['\n', '\n'], true⟩ ∧
      (ListStyle.boxes flags).make w items true =
        .ok ⟨.checklist, checked ++ ['\n', '\n'], true⟩ ∧
      items.listPlaces.map Place.item = items.leaves ∧
      numbered ++ ['\n', '\n'] =
        Text.unlines (items.listPlaces.map ((ListStyle.numbers 9).blockAt w true))
          ++ ['\n', '\n'] ∧
      checked ++ ['\n', '\n'] =
        Text.unlines (items.listPlaces.map ((ListStyle.boxes flags).blockAt w true))
          ++ ['\n', '\n'] := by
  intro items numbered checked flags w
  have hnumbers : (ListStyle.numbers 9).make w items true =
      .ok ⟨.orderedList, numbered ++ ['\n', '\n'], true⟩ := rfl
  have hboxes : (ListStyle.boxes flags).make w items true =
      .ok ⟨.checklist, checked ++ ['\n', '\n'], true⟩ := rfl
  exact ⟨hnumbers, hboxes, (list_text hnumbers).1, (list_text hnumbers).2, (list_text hboxes).2⟩

/-! ## Level by level -/

section Levels

variable (slot : Slot) (escape : Bool)

mutual

/-- An element of a level as at most one text. A sublist is joined to one text before
it stands in the level around it, and left out if there is nothing in it. -/
def elementLines (depth : Nat) (m : Marking) : Content → Except Fault (List Text)
  | .item i => do
      let p ← slot.item escape i
      return [itemBlock depth m.marker (itemBody i p)]
  | .sequence inner => do
      let sublist := Text.unlines (← levelLines (depth + 1) m.sublist inner)
      return if sublist = [] then [] else [sublist]

def levelLines (depth : Nat) (m : Marking) : List Content → Except Fault (List Text)
  | [] => .ok []
  | c :: rest => do
      let here ← elementLines depth m c
      let later ← levelLines depth (m.after c) rest
      return here ++ later

end

end Levels

/-- Texts that gather the texts of some pieces, one or more of them in each. -/
structure Gathers (ls : List Text) (ps : List Piece) : Prop where
  written : ∀ p ∈ ps, p.text ≠ []
  groups : ∃ groups : List (List Text), (∀ g ∈ groups, g ≠ []) ∧
    ls = groups.map Text.unlines ∧ ps.map (·.text) = groups.flatten

namespace Gathers

variable {ls ls' : List Text} {ps ps' : List Piece}

theorem nil : Gathers [] [] :=
  ⟨nofun, [], nofun, rfl, rfl⟩

theorem singleton {p : Piece} (hp : p.text ≠ []) : Gathers [p.text] [p] :=
  ⟨List.forall_mem_singleton.mpr hp, [[p.text]], by simp, by simp [Text.unlines], rfl⟩

theorem append (h : Gathers ls ps) (h' : Gathers ls' ps') :
    Gathers (ls ++ ls') (ps ++ ps') := by
  obtain ⟨hwritten, gs, hgs, rfl, htexts⟩ := h
  obtain ⟨hwritten', gs', hgs', rfl, htexts'⟩ := h'
  refine ⟨List.forall_mem_append.mpr ⟨hwritten, hwritten'⟩, gs ++ gs',
    List.forall_mem_append.mpr ⟨hgs, hgs'⟩, ?_, ?_⟩
  · rw [List.map_append]
  · rw [List.map_append, List.flatten_append, htexts, htexts']

theorem unlines_eq (h : Gathers ls ps) :
    Text.unlines ls = Text.unlines (ps.map (·.text)) := by
  obtain ⟨-, groups, hgroups, rfl, htexts⟩ := h
  rw [htexts, Text.unlines_flatten hgroups]

theorem joined (h : Gathers ls ps) :
    Gathers (if Text.unlines ls = [] then [] else [Text.unlines ls]) ps := by
  rw [h.unlines_eq]
  cases ps with
  | nil => exact nil
  | cons p ps =>
      have hp : p.text ≠ [] := h.written p List.mem_cons_self
      have hne : Text.unlines ((p :: ps).map (·.text)) ≠ [] := by
        rw [List.map_cons, Text.unlines_cons]
        exact List.append_ne_nil_of_left_ne_nil hp _
      rw [if_neg hne]
      exact ⟨h.written, [(p :: ps).map (·.text)], by simp, rfl, by simp⟩

end Gathers

theorem itemBlock_ne_nil (depth : Nat) (m : Marking) (body : Text) :
    itemBlock depth m.marker body ≠ [] := by
  have hmarker : m.marker ≠ [] := by
    cases m with
    | bullets mark => simp [Marking.marker]
    | numbers next => simp [Marking.marker]
    | boxes mark checks =>
        rw [Marking.marker]
        split <;> simp
  simp [itemBlock, hmarker]

section Levels

variable {slot : Slot} {escape : Bool}

mutual

theorem agree_elementLines : ∀ (c : Content) (depth : Nat) (m : Marking),
    Agree Gathers (elementLines slot escape depth m c) (elementPieces slot escape depth m c)
  | .item i, depth, m => Agree.bind_same _ fun p _ =>
      Gathers.singleton (p := ⟨itemBlock depth m.marker (itemBody i p), p.escaped⟩)
        (itemBlock_ne_nil depth m (itemBody i p))
  | .sequence inner, depth, m => by
      rw [elementLines, elementPieces, ← bind_pure (levelPieces slot escape _ _ _)]
      exact (agree_levelLines inner (depth + 1) m.sublist).bind fun _ _ h => h.joined

theorem agree_levelLines : ∀ (cs : List Content) (depth : Nat) (m : Marking),
    Agree Gathers (levelLines slot escape depth m cs) (levelPieces slot escape depth m cs)
  | [], _, _ => Gathers.nil
  | c :: rest, depth, m => (agree_elementLines c depth m).bind fun _ _ hhere =>
      (agree_levelLines rest depth (m.after c)).bind fun _ _ hlater => hhere.append hlater

end

/-- **A list may be written level by level.** Joining each sublist to one text first,
and leaving it out where it is empty, gives the same text or the same fault. -/
theorem levelLines_eq (depth : Nat) (m : Marking) (cs : List Content) :
    Text.unlines <$> levelLines slot escape depth m cs =
      (fun ps => (Piece.join ['\n'] ps).text) <$> levelPieces slot escape depth m cs := by
  rcases (agree_levelLines cs depth m).cases with ⟨f, hls, hps⟩ | ⟨ls, ps, hls, hps, h⟩
  · rw [hls, hps]
    rfl
  · rw [hls, hps]
    exact congrArg Except.ok h.unlines_eq

end Levels

end Markdown
