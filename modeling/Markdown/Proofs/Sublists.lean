import Markdown.Proofs.LineStarts
import Markdown.Proofs.Places

/-!
# Sublists under their items

A sublist belongs to the item before it if its lines reach the column where the text
after the mark of that item starts. Each level of a list stands two columns further in
than the level around it. That is as wide as a bullet and its space, so a sublist of
bullets or of boxes reaches the column. A number with its full stop and space is wider,
and a numbered sublist comes out as further items of the list around it
(`sublist_belongs_iff`, `numbered_sublist_apart`).
-/

namespace Markdown

/-- The levels of a list at their depths: its elements on the top level, and one level
further in the elements of each sequence on a level. -/
inductive Content.Level (c : Content) : Nat → List Content → Prop where
  | top : c.Level 0 c.elements
  | sublist {depth : Nat} {es inner : List Content} (h : c.Level depth es)
      (hmem : Content.sequence inner ∈ es) : c.Level (depth + 1) inner

/-- An item that a sublist follows directly, and then the places in the sublist. -/
theorem placesFrom_item_sequence (depth : Nat) (before : List Content) (i : Item)
    (inner after : List Content) :
    ∃ front back, placesFrom depth [] (before ++ .item i :: .sequence inner :: after) =
      front ++ ⟨depth, before, i⟩ :: placesFrom (depth + 1) [] inner ++ back := by
  refine ⟨placesFrom depth [] before,
    placesFrom depth (before ++ [.item i] ++ [.sequence inner]) after, ?_⟩
  rw [placesFrom_item, placesFrom, Content.places, ← List.cons_append, ← List.append_assoc]

namespace Content.Level

variable {c : Content} {depth : Nat} {es : List Content}

/-- The places of a level stand together among the places of the list. -/
theorem placesFrom_infix (h : c.Level depth es) :
    placesFrom depth [] es <:+: c.listPlaces := by
  induction h with
  | top => exact List.infix_rfl
  | @sublist depth es inner h hmem ih =>
      obtain ⟨before, after, rfl⟩ := List.append_of_mem hmem
      refine List.IsInfix.trans ⟨placesFrom depth [] before,
        placesFrom depth (before ++ [.sequence inner]) after, ?_⟩ ih
      rw [placesFrom_append, placesFrom, ← List.append_assoc]
      rfl

end Content.Level

mutual

theorem Content.depth_le_of_mem_places : ∀ (c : Content) (depth : Nat)
    (before : List Content), ∀ p ∈ c.places depth before, depth ≤ p.depth
  | .item _, _, _, _, hp => by
      obtain rfl := List.mem_singleton.mp hp
      exact Nat.le_refl _
  | .sequence inner, depth, _, p, hp =>
      Nat.le_of_succ_le (depth_le_of_mem_placesFrom inner (depth + 1) [] p hp)

theorem depth_le_of_mem_placesFrom : ∀ (cs : List Content) (depth : Nat)
    (before : List Content), ∀ p ∈ placesFrom depth before cs, depth ≤ p.depth
  | [], _, _, _, hp => absurd hp List.not_mem_nil
  | c :: rest, depth, before, p, hp =>
      (List.mem_append.mp hp).elim (Content.depth_le_of_mem_places c depth before p)
        (depth_le_of_mem_placesFrom rest depth (before ++ [c]) p)

end

namespace Text

/-- The number of spaces that a line starts with. -/
def indentation (line : Text) : Nat :=
  (line.takeWhile (· = ' ')).length

theorem le_indentation {n : Nat} {line : Text} (h : List.replicate n ' ' <+: line) :
    n ≤ line.indentation := by
  obtain ⟨t, rfl⟩ := h
  rw [indentation, List.takeWhile_append_of_pos (by simp), List.length_append,
    List.length_replicate]
  exact Nat.le_add_right n _

theorem indentation_eq {n : Nat} {c : Char} {line : Text}
    (h : List.replicate n ' ' ++ [c] <+: line) (hc : c ≠ ' ') : line.indentation = n := by
  obtain ⟨t, rfl⟩ := h
  rw [indentation, List.append_assoc, List.takeWhile_append_of_pos (by simp),
    List.singleton_append, List.takeWhile_cons_of_neg (by simpa using hc), List.append_nil,
    List.length_replicate]

end Text

/-! ## Marks -/

theorem isBlank_of_isDigit {c : Char} (h : c.isDigit = true) : isBlank c = false := by
  cases hblank : isBlank c with
  | false => rfl
  | true =>
      simp only [isBlank, Bool.or_eq_true, beq_iff_eq] at hblank
      rcases hblank with ((((rfl | rfl) | rfl) | rfl) | rfl) | rfl <;> exact absurd h (by decide)

theorem decimalInt_visible (z : Int) :
    decimalInt z ≠ [] ∧ ∀ c ∈ decimalInt z, isBlank c = false := by
  cases z with
  | ofNat n => exact ⟨decimal_ne_nil n, fun c hc => isBlank_of_isDigit (isDigit_of_mem_decimal hc)⟩
  | negSucc n =>
      refine ⟨List.cons_ne_nil _ _, fun c hc => ?_⟩
      rcases List.mem_cons.mp hc with rfl | hc
      · decide
      · exact isBlank_of_isDigit (isDigit_of_mem_decimal hc)

theorem visible_of_valid {w : Writer} (hw : w.Valid) :
    w.bullet ≠ [] ∧ ∀ c ∈ w.bullet, isBlank c = false := by
  have hmarks : ∀ mark ∈ Writer.bulletMarks,
      mark ≠ [] ∧ ∀ c ∈ mark, isBlank c = false := by decide
  exact hmarks _ hw.2.2.1

namespace ListStyle

/-- The width of the mark that makes the text at a place an item of a list, with the space
after it. The box of an item that can be checked is no part of it. -/
def markWidth (w : Writer) (style : ListStyle) (p : Place) : Nat :=
  match style with
  | .numbers _ => (style.markerAt w p).length
  | _ => w.bullet.length + 1

/-- The column where a reader expects what belongs to the item at a place. -/
def contentColumn (w : Writer) (style : ListStyle) (p : Place) : Nat :=
  2 * p.depth + style.markWidth w p

variable {w : Writer} {style : ListStyle} {escape : Bool}

/-- A marker starts with a visible character, goes on, and stays on its line. -/
theorem markerAt_visible (hw : w.Valid) (style : ListStyle) (p : Place) :
    (∃ c t, style.markerAt w p = c :: t ∧ isBlank c = false ∧ t ≠ []) ∧
      '\n' ∉ style.markerAt w p := by
  have hfirst : ∃ mark rest, mark ≠ [] ∧ (∀ c ∈ mark, isBlank c = false) ∧ rest ≠ [] ∧
      '\n' ∉ rest ∧ style.markerAt w p = mark ++ rest := by
    have hbullet := visible_of_valid hw
    cases style with
    | bullets => exact ⟨w.bullet, " ".toList, hbullet.1, hbullet.2, by decide, by decide, rfl⟩
    | numbers start =>
        obtain ⟨hne, hvisible⟩ := decimalInt_visible
          ((if p.depth = 0 then start else 1) + p.before.countP (·.isItem))
        exact ⟨_, ". ".toList, hne, hvisible, by decide, by decide, rfl⟩
    | boxes checks =>
        refine ⟨w.bullet, _, hbullet.1, hbullet.2, ?_, ?_, rfl⟩ <;> split <;> decide
  obtain ⟨mark, rest, hmark, hvisible, hrest, hfeed, heq⟩ := hfirst
  constructor
  · obtain ⟨c, t, rfl⟩ := List.exists_cons_of_ne_nil hmark
    exact ⟨c, t ++ rest, heq, hvisible c List.mem_cons_self,
      List.append_ne_nil_of_right_ne_nil t hrest⟩
  · rw [heq, List.mem_append, not_or]
    exact ⟨fun hmem => absurd (hvisible _ hmem) (by decide), hfeed⟩

/-! ## Lines of a list -/

/-- Every line at a place stands behind the indent of its level, and the first of them
goes on with the marker. -/
theorem splitOn_blockAt (hw : w.Valid) (style : ListStyle) (p : Place) :
    ∃ first rest, (style.blockAt w escape p).splitOn '\n' =
      ((style.markerAt w p ++ first) :: rest).map (levelIndent p.depth ++ ·) := by
  obtain ⟨first, rest, hsplit⟩ :=
    List.exists_cons_of_ne_nil (List.splitOn_ne_nil '\n' (p.item.listText escape))
  have hmarker := (markerAt_visible hw style p).2
  have hspaces : ∀ k, '\n' ∉ List.replicate k ' ' := fun k hmem =>
    absurd (List.eq_of_mem_replicate hmem) (by decide)
  have hpieces : ∀ l ∈ first :: rest, '\n' ∉ l := fun l hl =>
    Text.notMem_of_mem_splitOn (hsplit ▸ hl)
  let margin := List.replicate (style.markerAt w p).length ' '
  let lines := (style.markerAt w p ++ first) :: rest.map (margin ++ ·)
  have hblock : style.blockAt w escape p =
      Text.unlines (lines.map (levelIndent p.depth ++ ·)) := by
    rw [blockAt, hsplit, Text.intercalate_cons, ← List.replicate_append_replicate,
      List.map_cons, Text.unlines_cons, List.map_map, List.flatMap_map, levelIndent]
    simp only [List.append_assoc, List.cons_append, Function.comp_apply]
    rfl
  refine ⟨first, rest.map (margin ++ ·), ?_⟩
  rw [hblock]
  refine List.splitOn_intercalate '\n' ?_ (List.cons_ne_nil _ _)
  rw [List.forall_mem_map, List.forall_mem_cons, List.forall_mem_map]
  obtain ⟨hfirst, hrest⟩ := List.forall_mem_cons.mp hpieces
  constructor
  · simp [hspaces, levelIndent, hmarker, hfirst]
  · intro l hl
    simp [hspaces, levelIndent, margin, hrest l hl]

def linesOf (w : Writer) (escape : Bool) (style : ListStyle) (ps : List Place) : List Text :=
  Text.lines (Text.unlines (ps.map (style.blockAt w escape)))

theorem linesOf_eq (w : Writer) (escape : Bool) (style : ListStyle) (ps : List Place) :
    style.linesOf w escape ps = Text.lines (Text.unlines
      (ps.flatMap fun p => (style.blockAt w escape p).splitOn '\n')) := by
  rw [linesOf, ← Text.unlines_flatMap_splitOn, List.flatMap_map]

theorem feed_notMem_blocks {ps : List Place} :
    ∀ l ∈ ps.flatMap fun p => (style.blockAt w escape p).splitOn '\n', '\n' ∉ l := by
  intro l hl
  obtain ⟨p, -, hl⟩ := List.mem_flatMap.mp hl
  exact Text.notMem_of_mem_splitOn hl

/-- An item has a line that starts with its mark, exactly at the indent of its level. -/
theorem exists_mem_linesOf (hw : w.Valid) {ps : List Place} {p : Place} (hp : p ∈ ps) :
    ∃ line ∈ style.linesOf w escape ps,
      line.all isBlank = false ∧ line.indentation = 2 * p.depth := by
  obtain ⟨⟨c, t, hmarker, hc, ht⟩, -⟩ := markerAt_visible hw style p
  obtain ⟨first, rest, hsplit⟩ := @splitOn_blockAt w escape hw style p
  have hline : (levelIndent p.depth ++ [c]) ++ (t ++ first) ∈
      ps.flatMap fun p => (style.blockAt w escape p).splitOn '\n' := by
    refine List.mem_flatMap.mpr ⟨p, hp, ?_⟩
    rw [hsplit, hmarker]
    simp
  have hstart : ∀ line : Text, levelIndent p.depth ++ [c] <+: line →
      line.all isBlank = false ∧ line.indentation = 2 * p.depth := by
    intro line h
    have hmem : c ∈ line := h.subset (List.mem_append_right _ List.mem_cons_self)
    refine ⟨List.all_eq_false.mpr ⟨c, hmem, by simp [hc]⟩, Text.indentation_eq h ?_⟩
    rintro rfl
    exact absurd hc (by decide)
  rw [linesOf_eq]
  -- the line may have lost a carriage return at its end, but not its mark
  rcases Text.mem_lines_of_mem_unlines feed_notMem_blocks hline with hmem | hmem
  · exact ⟨_, hmem, hstart _ (List.prefix_append _ _)⟩
  · exact ⟨_, hmem, hstart _ (Text.prefix_dropReturn_append
      (List.append_ne_nil_of_left_ne_nil ht first))⟩

theorem exists_place_of_mem_linesOf (hw : w.Valid) {ps : List Place} {line : Text}
    (hline : line ∈ style.linesOf w escape ps) (hvisible : line.all isBlank = false) :
    ∃ p ∈ ps, 2 * p.depth ≤ line.indentation := by
  rw [linesOf_eq] at hline
  have hne : (ps.flatMap fun p => (style.blockAt w escape p).splitOn '\n') ≠ [] := by
    intro hnil
    rw [hnil] at hline
    obtain rfl : line = [] := by simpa [Text.unlines, Text.lines] using hline
    exact absurd hvisible (by decide)
  obtain ⟨l, hl, hend⟩ := Text.mem_lines_unlines hne feed_notMem_blocks hline
  obtain ⟨p, hp, hl⟩ := List.mem_flatMap.mp hl
  refine ⟨p, hp, Text.le_indentation ?_⟩
  obtain ⟨first, rest, hsplit⟩ := @splitOn_blockAt w escape hw style p
  obtain ⟨body, -, rfl⟩ := List.mem_map.mp (hsplit ▸ hl)
  have hindent : levelIndent p.depth <+: levelIndent p.depth ++ body := List.prefix_append _ _
  rcases hend with rfl | hreturn
  · exact hindent
  · refine prefix_of_prefix_append_cons ?_ (hreturn ▸ hindent)
    exact fun hmem => absurd (List.eq_of_mem_replicate hmem) (by decide)

/-! ## Items and what follows them -/

/-- A sublist belongs to an item: every line of it on which there is something to see
reaches the column of the item. -/
def Belongs (w : Writer) (escape : Bool) (style : ListStyle) (item : Place)
    (inner : List Content) : Prop :=
  ∀ line ∈ style.linesOf w escape (placesFrom (item.depth + 1) [] inner),
    line.all isBlank = false → style.contentColumn w item ≤ line.indentation

theorem belongs_iff (hw : w.Valid) {item : Place} {inner : List Content} :
    style.Belongs w escape item inner ↔
      ∀ p ∈ placesFrom (item.depth + 1) [] inner,
        style.contentColumn w item ≤ 2 * p.depth := by
  constructor
  · intro h p hp
    obtain ⟨line, hline, hvisible, hindent⟩ := @exists_mem_linesOf w style escape hw _ _ hp
    exact hindent ▸ h line hline hvisible
  · intro h line hline hvisible
    obtain ⟨p, hp, hindent⟩ := exists_place_of_mem_linesOf hw hline hvisible
    exact Nat.le_trans (h p hp) hindent

theorem markWidth_of_bullet (hw : w.Valid) (h : style.kind ≠ .orderedList) (p : Place) :
    style.markWidth w p = 2 := by
  have hbullet : ∀ mark ∈ Writer.bulletMarks, mark.length + 1 = 2 := by decide
  cases style with
  | numbers start => exact absurd rfl h
  | bullets => exact hbullet _ hw.2.2.1
  | boxes checks => exact hbullet _ hw.2.2.1

theorem lt_markWidth_of_number (h : style.kind = .orderedList) (p : Place) :
    2 < style.markWidth w p := by
  cases style with
  | bullets => exact absurd h nofun
  | boxes checks => exact absurd h nofun
  | numbers start =>
      have hdigits := List.length_pos_iff.mpr (decimalInt_visible
        ((if p.depth = 0 then start else 1) + p.before.countP (·.isItem))).1
      rw [markWidth, markerAt, List.length_append]
      exact Nat.lt_add_of_pos_left hdigits

theorem belongs_of_bullet (hw : w.Valid) (h : style.kind ≠ .orderedList) (item : Place)
    (inner : List Content) : style.Belongs w escape item inner := by
  rw [belongs_iff hw, contentColumn, markWidth_of_bullet hw h]
  intro p hp
  have hdepth : item.depth + 1 ≤ p.depth :=
    depth_le_of_mem_placesFrom inner (item.depth + 1) [] p hp
  omega

theorem not_belongs_of_number (hw : w.Valid) (h : style.kind = .orderedList) (item : Place)
    {inner : List Content} (hinner : ∃ d ∈ inner, d.isItem = true) :
    ¬style.Belongs w escape item inner := by
  obtain ⟨d, hd, hitem⟩ := hinner
  obtain ⟨front, back, rfl⟩ := List.append_of_mem hd
  cases d with
  | sequence es => exact absurd hitem Bool.false_ne_true
  | item j =>
      have hp : (⟨item.depth + 1, front, j⟩ : Place) ∈
          placesFrom (item.depth + 1) [] (front ++ .item j :: back) := by
        rw [placesFrom_item]
        exact List.mem_append_right _ List.mem_cons_self
      have hwide := @lt_markWidth_of_number w style h item
      intro hbelongs
      have hreach : 2 * item.depth + style.markWidth w item ≤ 2 * (item.depth + 1) :=
        (belongs_iff hw).mp hbelongs _ hp
      omega

/-- In the text of a list, a sublist comes right behind the item that it follows. -/
theorem text_of_sublist {c : Content} {n : Node} (h : style.make w c escape = .ok n)
    {depth : Nat} {before inner after : List Content} {i : Item}
    (hlevel : c.Level depth (before ++ .item i :: .sequence inner :: after)) :
    ∃ front back, n.text = Text.unlines (front
      ++ style.blockAt w escape ⟨depth, before, i⟩
        :: (placesFrom (depth + 1) [] inner).map (style.blockAt w escape) ++ back)
      ++ ['\n', '\n'] := by
  obtain ⟨-, -, -, rfl⟩ := make_eq_ok_iff_blocks.mp h
  obtain ⟨front, back, hplaces⟩ := hlevel.placesFrom_infix
  obtain ⟨front', back', hlevel'⟩ := placesFrom_item_sequence depth before i inner after
  refine ⟨(front ++ front').map (style.blockAt w escape),
    (back' ++ back).map (style.blockAt w escape), ?_⟩
  rw [← hplaces, hlevel']
  simp [blankLine]

end ListStyle

/-- **Which sublists belong to their items.** A sublist that follows an item stands
directly behind it in the text. It belongs to the item exactly if each of its items
stands on a level that reaches the column of the item. In a list of bullets or boxes they
all do. In a numbered list no item on the level of the sublist does, only one in a list
further in. -/
theorem sublist_belongs_iff {w : Writer} {style : ListStyle} {c : Content} {escape : Bool}
    {n : Node} (hw : w.Valid) (h : style.make w c escape = .ok n) {depth : Nat}
    {before inner after : List Content} {i : Item}
    (hlevel : c.Level depth (before ++ .item i :: .sequence inner :: after)) :
    let item : Place := ⟨depth, before, i⟩
    let sublist := placesFrom (depth + 1) [] inner
    (∃ front back, n.text = Text.unlines (front
        ++ style.blockAt w escape item :: sublist.map (style.blockAt w escape) ++ back)
          ++ ['\n', '\n']) ∧
      (style.Belongs w escape item inner ↔
        ∀ p ∈ sublist, style.contentColumn w item ≤ 2 * p.depth) ∧
      (style.kind ≠ .orderedList → style.Belongs w escape item inner) ∧
      (style.kind = .orderedList → (∃ d ∈ inner, d.isItem = true) →
        ¬style.Belongs w escape item inner) := by
  intro item sublist
  exact ⟨ListStyle.text_of_sublist h hlevel, ListStyle.belongs_iff hw,
    fun hkind => ListStyle.belongs_of_bullet hw hkind item inner,
    fun hkind hinner => ListStyle.not_belongs_of_number hw hkind item hinner⟩

/-- Behind a number of two digits, a list within a sublist reaches the column of the item
exactly. -/
theorem sublist_belongs_iff_number :
    let c : Content := .sequence [.literal "a".toList, .literal "b".toList,
      .sequence [.sequence [.literal "c".toList]]]
    let n : Node := ⟨.orderedList, "9. a\n10. b\n    1. c\n\n".toList, true⟩
    let item : Place := ⟨0, [.literal "a".toList], .literal "b".toList⟩
    let inner : List Content := [.sequence [.literal "c".toList]]
    ({} : Writer).Valid ∧ (ListStyle.numbers 9).make {} c true = .ok n ∧
      c.Level 0 ([.literal "a".toList] ++ .item item.item :: .sequence inner :: []) ∧
      (ListStyle.numbers 9).contentColumn {} item = 4 ∧
      (ListStyle.numbers 9).linesOf {} true (placesFrom 1 [] inner) = ["    1. c".toList] ∧
      (ListStyle.numbers 9).Belongs {} true item inner := by
  intro c n item inner
  have hvalid : ({} : Writer).Valid := by decide
  have hmake : (ListStyle.numbers 9).make {} c true = .ok n := rfl
  have hlevel :
      c.Level 0 ([.literal "a".toList] ++ .item item.item :: .sequence inner :: []) := .top
  obtain ⟨-, hbelongs, -⟩ := sublist_belongs_iff hvalid hmake hlevel
  refine ⟨hvalid, hmake, hlevel, by decide, by decide, hbelongs.mpr ?_⟩
  decide

/-- An item in the second column, under an item whose text starts in the third. -/
theorem numbered_sublist_apart :
    ¬∀ (w : Writer) (style : ListStyle) (c : Content) (escape : Bool) (n : Node),
      w.Valid → style.make w c escape = .ok n →
        ∀ depth before i inner after,
          c.Level depth (before ++ .item i :: .sequence inner :: after) →
            style.Belongs w escape ⟨depth, before, i⟩ inner := by
  intro h
  let inner : List Content := [.literal "b".toList]
  let c : Content := .sequence [.literal "a".toList, .sequence inner]
  have hmake : (ListStyle.numbers 1).make {} c true =
      .ok ⟨.orderedList, "1. a\n  1. b\n\n".toList, true⟩ := rfl
  have hbelongs := h {} (.numbers 1) c true _ (by decide) hmake 0 [] (.literal "a".toList)
    inner [] .top
  have hreach : 3 ≤ Text.indentation "  1. b".toList :=
    hbelongs "  1. b".toList (by decide) (by decide)
  exact absurd hreach (by decide)

end Markdown
