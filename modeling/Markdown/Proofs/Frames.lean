import Markdown.Proofs.Trees

/-!
# Frames, specified

What a slot and a frame make of a content, without the steps on the way: when
they succeed, with which text, and whether it counts as escaped. The
constructors around a content are all the same frame with their own texts
(`Wrap.make_eq`, `Leaf.make_eq`).
-/

namespace Markdown

/-- No sequence stands inside the sequence of a content. -/
def Content.Flat (c : Content) : Prop :=
  ∀ d ∈ c.elements, d.isItem = true

theorem leavesOfAll_map_item (is : List Item) :
    leavesOfAll (is.map Content.item) = is := by
  induction is with
  | nil => rfl
  | cons i is ih =>
      rw [List.map_cons, leavesOfAll, ih]
      rfl

theorem leaves_of_elements {c : Content} {is : List Item}
    (h : c.elements = is.map Content.item) : c.leaves = is := by
  cases c with
  | item i =>
      have hleaves : leavesOfAll [Content.item i] = leavesOfAll (is.map Content.item) :=
        congrArg leavesOfAll h
      rwa [leavesOfAll_map_item] at hleaves
  | sequence es => rw [Content.leaves, show es = _ from h, leavesOfAll_map_item]

theorem exists_items_of_isItem {ds : List Content} (h : ∀ d ∈ ds, d.isItem = true) :
    ∃ is : List Item, ds = is.map Content.item := by
  induction ds with
  | nil => exact ⟨[], rfl⟩
  | cons d ds ih =>
      obtain ⟨is, his⟩ := ih fun d hd => h d (List.mem_cons_of_mem _ hd)
      cases d with
      | item i => exact ⟨i :: is, by rw [his, List.map_cons]⟩
      | sequence es => exact absurd (h _ List.mem_cons_self) Bool.false_ne_true

theorem flat_iff {c : Content} : c.Flat ↔ c.elements = c.leaves.map Content.item := by
  constructor
  · intro h
    obtain ⟨is, his⟩ := exists_items_of_isItem h
    rwa [leaves_of_elements his]
  · intro h d hd
    rw [h] at hd
    obtain ⟨i, -, rfl⟩ := List.mem_map.mp hd
    rfl

theorem items_eq_ok_iff {c : Content} {owner : Kind} {is : List Item} :
    c.items owner = .ok is ↔ c.Flat ∧ c.leaves = is := by
  have hitems : c.items owner = .ok is ↔ c.elements = is.map Content.item := by
    rw [Content.items, mapM_eq_ok_iff (R := fun d i => d = Content.item i),
      ← List.forall₂_map_right_iff, List.forall₂_eq_eq_eq]
    intro d i
    cases d with
    | item j => simp
    | sequence es => simp
  rw [hitems]
  constructor
  · intro h
    have hleaves : c.leaves = is := leaves_of_elements h
    exact ⟨flat_iff.mpr (hleaves ▸ h), hleaves⟩
  · rintro ⟨hflat, rfl⟩
    exact flat_iff.mp hflat

/-! ## Slots -/

theorem nil_intercalate {α : Type} (ls : List (List α)) :
    ([] : List α).intercalate ls = ls.flatten := by
  induction ls with
  | nil => rfl
  | cons l ls ih =>
      cases ls with
      | nil => simp
      | cons m ls =>
          rw [List.intercalate_cons_cons, ih, List.append_nil]
          rfl

/-- Whether an item counts as escaped when literals are, or are not, escaped. -/
def Item.escaped (escape : Bool) : Item → Bool
  | .literal _ => escape
  | .node n => n.escaped

theorem all_escaped (escape : Bool) (is : List Item) :
    (escape && is.all (·.escaped escape)) =
      (escape && (is.filterMap Item.node?).all (·.escaped)) := by
  induction is with
  | nil => rfl
  | cons i is ih =>
      cases escape with
      | false => rfl
      | true =>
          cases i with
          | literal t => exact ih
          | node n => exact congrArg (n.escaped && ·) ih

namespace Slot

variable {slot : Slot} {escape : Bool}

def Admits (slot : Slot) : Item → Prop
  | .literal _ => True
  | .node n => n.kind ∈ slot.accepts

def write (slot : Slot) (escape : Bool) : Item → Text
  | .literal t => if escape then slot.context.escape t else t
  | .node n => n.text

theorem item_eq_ok_iff {i : Item} {p : Piece} :
    slot.item escape i = .ok p ↔
      slot.Admits i ∧ ⟨slot.write escape i, i.escaped escape⟩ = p := by
  cases i with
  | literal t => simp [item, Admits, write, Item.escaped]
  | node n =>
      rw [item, allow, require_bind_eq_ok_iff, pure_eq_ok_iff]
      rfl

theorem fill_eq_ok_iff {c : Content} {p : Piece} :
    slot.fill escape c = .ok p ↔
      c.Flat ∧ (∀ i ∈ c.leaves, slot.Admits i) ∧
        ⟨c.leaves.flatMap (slot.write escape),
          escape && c.nodes.all (·.escaped)⟩ = p := by
  have hjoin : ∀ is : List Item,
      Piece.join [] (is.map fun i => ⟨slot.write escape i, i.escaped escape⟩) =
        ⟨is.flatMap (slot.write escape), is.all (·.escaped escape)⟩ := by
    intro is
    simp only [Piece.join, List.map_map, nil_intercalate, List.all_map]
    rfl
  rw [fill, bind_eq_ok_iff_of fun _ => items_eq_ok_iff,
    bind_eq_ok_iff_of fun _ => mapM_eq_ok_iff_map fun _ _ => item_eq_ok_iff,
    pure_eq_ok_iff, hjoin, Content.nodes, ← all_escaped]

end Slot

/-! ## Frames -/

/-- **What a frame makes of a content.** -/
theorem Frame.build_eq_ok_iff {f : Frame} {safe escape : Bool} {c : Content} {n : Node} :
    f.build safe c escape = .ok n ↔
      (escape = true ∨ safe = false) ∧ c.Flat ∧
        (∀ i ∈ c.leaves, f.Admits i) ∧
        ⟨f.owner,
          f.opening ++ f.finish (c.leaves.flatMap (f.write escape)) ++ f.closing,
          escape && c.nodes.all (·.escaped)⟩ = n := by
  rw [Frame.build, requireEscape, require_bind_eq_ok_iff,
    bind_eq_ok_iff_of fun _ => Slot.fill_eq_ok_iff.trans and_assoc.symm, pure_eq_ok_iff,
    and_assoc]

/-- A frame takes any literals that are to be escaped, whatever safe mode says. -/
theorem Frame.build_literals (f : Frame) (safe : Bool) (ts : List Text) :
    f.build safe (.sequence (ts.map Content.literal)) true =
      .ok ⟨f.owner, f.opening ++ f.finish (ts.flatMap f.context.escape) ++ f.closing,
        true⟩ := by
  have helements : (Content.sequence (ts.map Content.literal)).elements =
      (ts.map Item.literal).map Content.item := by
    rw [List.map_map]
    rfl
  have hleaves := leaves_of_elements helements
  have hnodes : (ts.map Item.literal).filterMap Item.node? = [] := by
    rw [List.filterMap_map]
    exact List.filterMap_eq_nil_iff.mpr fun _ _ => rfl
  rw [Frame.build_eq_ok_iff, Content.nodes, hleaves, hnodes, List.flatMap_map]
  refine ⟨Or.inl rfl, flat_iff.mpr (helements.trans (by rw [hleaves])), ?_, rfl⟩
  rw [List.forall_mem_map]
  exact fun _ _ => trivial

theorem Frame.build_literal (f : Frame) (safe : Bool) (t : Text) :
    f.build safe (.literal t) true =
      .ok ⟨f.owner, f.opening ++ f.finish (f.context.escape t) ++ f.closing, true⟩ := by
  have hsequence := f.build_literals safe [t]
  rw [List.flatMap_singleton] at hsequence
  exact hsequence

def Wrap.frame (w : Writer) : Wrap → Frame
  | .bold => { owner := .bold, opening := w.strong, closing := w.strong }
  | .italic => { owner := .italic, opening := w.emphasis, closing := w.emphasis }
  | .strikethrough =>
      { owner := .strikethrough, opening := ['~', '~'], closing := ['~', '~'] }
  | .link url =>
      { owner := .link, opening := ['['],
        closing := [']', '('] ++ Context.url.escape url ++ [')'] }
  | .referenceLink label =>
      { owner := .referenceLink, opening := ['['],
        closing := [']', '['] ++ Context.url.escape label ++ [']'] }
  | .paragraph => { owner := .paragraph, opening := [], closing := blankLine }
  | .heading level =>
      { owner := .heading, opening := List.replicate level.toNat '#' ++ [' '],
        closing := blankLine }
  | .blockquote =>
      { owner := .blockquote, opening := [], closing := blankLine, finish := quote }

@[simp] theorem Wrap.owner_frame (wrap : Wrap) (w : Writer) :
    (wrap.frame w).owner = wrap.kind := by
  cases wrap <;> rfl

@[simp] theorem Wrap.accepts_frame (wrap : Wrap) (w : Writer) :
    (wrap.frame w).accepts = wrap.kind.accepts := by
  cases wrap <;> rfl

@[simp] theorem Wrap.context_frame (wrap : Wrap) (w : Writer) :
    (wrap.frame w).context = .plain := by
  cases wrap <;> rfl

/-- Only a quotation does something to its content as a whole. -/
theorem Wrap.finish_frame {wrap : Wrap} (h : wrap ≠ .blockquote) (w : Writer) :
    (wrap.frame w).finish = id := by
  cases wrap with
  | blockquote => exact absurd rfl h
  | _ => rfl

def Wrap.check : Wrap → Except Fault Unit
  | .heading level => require (1 ≤ level ∧ level ≤ 6) (.headingLevel level)
  | _ => .ok ()

theorem Wrap.make_eq (wrap : Wrap) (w : Writer) (c : Content) (escape : Bool) :
    wrap.make w c escape =
      wrap.check >>= fun _ => (wrap.frame w).build w.safeMode c escape := by
  cases wrap <;> rfl

theorem Wrap.make_eq_ok_iff {wrap : Wrap} {w : Writer} {c : Content} {escape : Bool}
    {n : Node} :
    wrap.make w c escape = .ok n ↔
      wrap.check = .ok () ∧ (escape = true ∨ w.safeMode = false) ∧ c.Flat ∧
        (∀ i ∈ c.leaves, (wrap.frame w).Admits i) ∧
        ⟨(wrap.frame w).owner,
          (wrap.frame w).opening
            ++ (wrap.frame w).finish (c.leaves.flatMap ((wrap.frame w).write escape))
            ++ (wrap.frame w).closing,
          escape && c.nodes.all (·.escaped)⟩ = n := by
  rw [Wrap.make_eq, bind_eq_ok_iff, ← Frame.build_eq_ok_iff]
  exact ⟨fun ⟨(), h⟩ => h, fun h => ⟨(), h⟩⟩

def Leaf.frame : Leaf → Frame
  | .text _ => { owner := .text, opening := [], closing := [] }
  | .code _ =>
      { owner := .code, context := .code, opening := [], closing := [],
        finish := codeSpan }
  | .image _ url =>
      { owner := .image, opening := ['!', '['],
        closing := [']', '('] ++ Context.url.escape url ++ [')'] }
  | .codeBlock _ language =>
      { owner := .codeBlock, context := .code, opening := [],
        closing := blankLine, finish := codeFence language }

def Leaf.literal : Leaf → Text
  | .text t => t
  | .code t => t
  | .image alt _ => alt
  | .codeBlock t _ => t

def Leaf.check : Leaf → Except Fault Unit
  | .codeBlock _ language => require (fitsFence language) (.codeLanguage language)
  | _ => .ok ()

theorem Leaf.make_eq (leaf : Leaf) (w : Writer) (escape : Bool) :
    leaf.make w escape =
      leaf.check >>= fun _ =>
        leaf.frame.build w.safeMode (.literal leaf.literal) escape := by
  cases leaf <;> rfl

theorem Leaf.make_eq_ok_iff {leaf : Leaf} {w : Writer} {escape : Bool} {n : Node} :
    leaf.make w escape = .ok n ↔
      leaf.check = .ok () ∧ (escape = true ∨ w.safeMode = false) ∧
        ⟨leaf.frame.owner,
          leaf.frame.opening
            ++ leaf.frame.finish (leaf.frame.write escape (.literal leaf.literal))
            ++ leaf.frame.closing,
          escape⟩ = n := by
  have hflat : (Content.literal leaf.literal).Flat := by
    rw [flat_iff]
    rfl
  have hleaves : (Content.literal leaf.literal).leaves = [.literal leaf.literal] := rfl
  have hnodes : (Content.literal leaf.literal).nodes = [] := rfl
  rw [Leaf.make_eq, bind_eq_ok_iff]
  simp only [Frame.build_eq_ok_iff, hflat, hleaves, hnodes, List.forall_mem_singleton,
    List.flatMap_singleton, List.all_nil, Bool.and_true, Slot.Admits, true_and]
  exact ⟨fun ⟨(), h⟩ => h, fun h => ⟨(), h⟩⟩

/-- A constructor of literal text fails on its own check, and past that on safe
mode only. -/
theorem Leaf.make_eq_error_iff {leaf : Leaf} {w : Writer} {escape : Bool} {f : Fault} :
    leaf.make w escape = .error f ↔
      leaf.check = .error f ∨
        leaf.check = .ok () ∧ (escape = false ∧ w.safeMode = true) ∧ f = .unescaped := by
  have hfill : ∃ p, leaf.frame.fill escape (.literal leaf.literal) = .ok p :=
    ⟨_, Slot.fill_eq_ok_iff.mpr
      ⟨List.forall_mem_singleton.mpr rfl, List.forall_mem_singleton.mpr trivial, rfl⟩⟩
  obtain ⟨p, hp⟩ := hfill
  have hbuild : leaf.frame.build w.safeMode (.literal leaf.literal) escape = .error f ↔
      (escape = false ∧ w.safeMode = true) ∧ f = .unescaped := by
    rw [Frame.build, hp, bind_eq_error_iff, requireEscape, require_eq_error_iff]
    constructor
    · rintro (⟨hdemand, rfl⟩ | ⟨_, -, h⟩)
      · simpa using hdemand
      · exact absurd h nofun
    · rintro ⟨⟨rfl, hsafe⟩, rfl⟩
      exact Or.inl ⟨by simp [hsafe], rfl⟩
  rw [Leaf.make_eq, bind_eq_error_iff]
  simp only [hbuild]
  exact or_congr_right ⟨fun ⟨(), h⟩ => h, fun h => ⟨(), h⟩⟩

theorem Node.document_eq_ok_iff {ns : List Node} {n : Node} :
    Node.document ns = .ok n ↔
      (∀ m ∈ ns, m.kind ∈ Kind.document.accepts) ∧
        ⟨.document, Text.unlines (ns.map (·.text.chomp)), ns.all (·.escaped)⟩ = n := by
  have hchild : ∀ (m : Node) (p : Piece),
      ((Slot.allow { owner := .document } m.kind >>= fun _ =>
        pure ⟨m.text.chomp, m.escaped⟩ : Except Fault Piece) = .ok p) ↔
      m.kind ∈ Kind.document.accepts ∧ ⟨m.text.chomp, m.escaped⟩ = p := by
    intro m p
    rw [Slot.allow, require_bind_eq_ok_iff, pure_eq_ok_iff]
  have hjoin : Piece.join ['\n'] (ns.map fun m => ⟨m.text.chomp, m.escaped⟩) =
      ⟨Text.unlines (ns.map (·.text.chomp)), ns.all (·.escaped)⟩ := by
    rw [Piece.join, List.map_map, List.all_map]
    rfl
  rw [Node.document, bind_eq_ok_iff_of fun _ => mapM_eq_ok_iff_map hchild,
    pure_eq_ok_iff, hjoin]

end Markdown
