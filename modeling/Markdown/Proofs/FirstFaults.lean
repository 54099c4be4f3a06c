import Markdown.Proofs.Frames
import Markdown.Proofs.Outcomes

/-!
# Which fault comes first

A step ends with the fault that it finds, or else with its result (`settle`). Steps
one after the other end with the first fault that any of them finds, and a traversal
with the fault of the first element that has one. So the order of the checks is the
order in which faults are tried, and an outcome has a closed form: its faults in that
order, and the result that is left without them.

A frame tries safe mode, then the shape of its whole content, then the nodes from left
to right (`Frame.build_eq`). A fault of shape wins over a node that is not accepted,
wherever the two stand.
-/

namespace Markdown

/-- The outcome of a step that finds a fault, or has a result without one. -/
def settle {α : Type} (fault? : Option Fault) (a : α) : Except Fault α :=
  match fault? with
  | some f => .error f
  | none => .ok a

section

variable {α β : Type}

theorem require_eq_settle {p : Prop} [Decidable p] {f : Fault} :
    require p f = settle (if p then none else some f) () := by
  by_cases h : p
  · rw [require, if_pos h, if_pos h]
    rfl
  · rw [require, if_neg h, if_neg h]
    rfl

/-- The faults of a second step come after those of the first. -/
theorem settle_bind {fault? later? : Option Fault} {a : α} {k : α → Except Fault β} {b : β}
    (h : k a = settle later? b) : settle fault? a >>= k = settle (fault?.or later?) b := by
  cases fault? with
  | some f => rfl
  | none => exact h

/-- A last step that cannot fail only turns the result into another. -/
theorem settle_bind_ok {fault? : Option Fault} {a : α} {k : α → Except Fault β} {b : β}
    (h : k a = .ok b) : settle fault? a >>= k = settle fault? b := by
  cases fault? with
  | some f => rfl
  | none => exact h

/-- A traversal ends with the fault of the first element that has one. -/
theorem mapM_eq_settle {f : α → Except Fault β} {fault? : α → Option Fault} {g : α → β}
    (h : ∀ x, f x = settle (fault? x) (g x)) (xs : List α) :
    xs.mapM f = settle (xs.findSome? fault?) (xs.map g) := by
  induction xs with
  | nil => rfl
  | cons x xs ih =>
      rw [List.mapM_cons, h x, ih, List.findSome?_cons, List.map_cons]
      cases fault? x with
      | some e => rfl
      | none =>
          cases xs.findSome? fault? with
          | some e => rfl
          | none => rfl

end

instance (c : Content) : Decidable c.Flat :=
  inferInstanceAs (Decidable (∀ d ∈ c.elements, d.isItem = true))

/-- The shape of a content is checked as a whole: it fails wherever the nested sequence
stands. -/
theorem Content.items_eq_settle (c : Content) (owner : Kind) :
    c.items owner =
      settle (if c.Flat then none else some (.nestedSequence owner)) c.leaves := by
  by_cases hflat : c.Flat
  · rw [if_pos hflat]
    exact items_eq_ok_iff.mpr ⟨hflat, rfl⟩
  · rw [if_neg hflat]
    have hfaults : FailsOnly (· = .nestedSequence owner) (c.items owner) := by
      apply FailsOnly.mapM
      intro d _
      cases d with
      | item i => exact FailsOnly.ok i
      | sequence es => exact FailsOnly.error rfl
    cases hitems : c.items owner with
    | ok is => exact absurd (items_eq_ok_iff.mp hitems).1 hflat
    | error f =>
        obtain rfl := hfaults f hitems
        rfl

namespace Slot

variable {slot : Slot} {escape : Bool}

def refusal? (slot : Slot) : Item → Option Fault
  | .literal _ => none
  | .node n => if n.kind ∈ slot.accepts then none else some (.nesting slot.owner n.kind)

/-- The first fault of a content in a slot. -/
def fault? (slot : Slot) (c : Content) : Option Fault :=
  (if c.Flat then none else some (.nestedSequence slot.owner)).or
    (c.leaves.findSome? slot.refusal?)

theorem item_eq_settle (i : Item) :
    slot.item escape i =
      settle (slot.refusal? i) ⟨slot.write escape i, i.escaped escape⟩ := by
  cases i with
  | literal t => rfl
  | node n =>
      rw [item, allow, require_eq_settle]
      exact settle_bind_ok rfl

theorem fill_eq_settle (c : Content) :
    slot.fill escape c =
      settle (slot.fault? c)
        ⟨c.leaves.flatMap (slot.write escape), escape && c.nodes.all (·.escaped)⟩ := by
  have hjoin : Piece.join [] (c.leaves.map fun i =>
      ⟨slot.write escape i, i.escaped escape⟩) =
      ⟨c.leaves.flatMap (slot.write escape), c.leaves.all (·.escaped escape)⟩ := by
    simp only [Piece.join, List.map_map, nil_intercalate, List.all_map]
    rfl
  rw [fill, Content.items_eq_settle, fault?, Content.nodes, ← all_escaped]
  apply settle_bind
  rw [mapM_eq_settle item_eq_settle]
  apply settle_bind_ok
  rw [hjoin]
  rfl

theorem findSome?_refusal? (is : List Item) :
    is.findSome? slot.refusal? =
      ((is.filterMap Item.node?).find? fun n => n.kind ∉ slot.accepts).map fun n =>
        .nesting slot.owner n.kind := by
  induction is with
  | nil => rfl
  | cons i is ih =>
      cases i with
      | literal t => exact ih
      | node n =>
          have hnode : (Item.node n :: is).filterMap Item.node? =
              n :: is.filterMap Item.node? := rfl
          rw [hnode, List.findSome?_cons, refusal?]
          by_cases hkind : n.kind ∈ slot.accepts
          · rw [if_pos hkind, List.find?_cons_of_neg (by simpa using hkind)]
            exact ih
          · rw [if_neg hkind, List.find?_cons_of_pos (by simpa using hkind)]
            rfl

end Slot

/-! ## Frames -/

theorem Frame.build_eq_settle (f : Frame) (safe escape : Bool) (c : Content) :
    f.build safe c escape =
      settle ((if escape = true ∨ safe = false then none else some .unescaped).or
          (f.fault? c))
        ⟨f.owner,
          f.opening ++ f.finish (c.leaves.flatMap (f.write escape)) ++ f.closing,
          escape && c.nodes.all (·.escaped)⟩ := by
  rw [Frame.build, requireEscape, require_eq_settle]
  apply settle_bind
  rw [Slot.fill_eq_settle]
  exact settle_bind_ok rfl

/-- **The outcome of a frame.** A demand that safe mode refuses is the first fault, a
sequence within the sequence of the content the second, and a node of a kind that the
frame does not accept the third, the first of them from left to right. Without these the
frame makes a node: the pieces of the content one after the other, with the last step
done on them, between the two texts of the frame. The node is escaped if its literals
and all of its nodes are. -/
theorem Frame.build_eq (f : Frame) (safe escape : Bool) (c : Content) :
    f.build safe c escape =
      if escape = false ∧ safe = true then .error .unescaped
      else if ∃ d ∈ c.elements, d.isItem = false then .error (.nestedSequence f.owner)
      else
        match c.nodes.find? fun n => n.kind ∉ f.accepts with
        | some n => .error (.nesting f.owner n.kind)
        | none => .ok {
            kind := f.owner
            text := f.opening ++ f.finish (c.leaves.flatMap (f.write escape)) ++ f.closing
            escaped := escape && c.nodes.all (·.escaped)
          } := by
  have hsafe : (escape = true ∨ safe = false) ↔ ¬(escape = false ∧ safe = true) := by
    cases escape <;> cases safe <;> decide
  have hflat : c.Flat ↔ ¬∃ d ∈ c.elements, d.isItem = false := by
    simp [Content.Flat]
  rw [Frame.build_eq_settle, Slot.fault?, Slot.findSome?_refusal?, ← Content.nodes]
  by_cases hdemand : escape = false ∧ safe = true
  · rw [if_neg (mt hsafe.mp (not_not_intro hdemand)), if_pos hdemand]
    rfl
  · rw [if_pos (hsafe.mpr hdemand), if_neg hdemand]
    by_cases hnested : ∃ d ∈ c.elements, d.isItem = false
    · rw [if_neg (mt hflat.mp (not_not_intro hnested)), if_pos hnested]
      rfl
    · rw [if_pos (hflat.mpr hnested), if_neg hnested]
      cases c.nodes.find? fun n => n.kind ∉ f.accepts with
      | some n => rfl
      | none => rfl

/-- The sequence in the sequence is the fault, though a node before it is refused too. -/
example :
    Frame.build { owner := .bold, opening := ['*'], closing := ['*'] } false
      (.sequence [.node ⟨.paragraph, ['a'], true⟩, .sequence []]) true =
        .error (.nestedSequence .bold) := rfl

end Markdown
