import Mathlib.Data.List.Flatten
import Mathlib.Data.List.Forall2
import Mathlib.Data.List.Infix
import Markdown.Text

/-!
# Neighbours across pieces

A text that is put together from pieces has at each seam a pair of neighbours that no
piece has by itself. An empty piece is no neighbour of anything: the pieces on its two
sides meet across it. `Meets` says that two elements of a list meet in this sense, and
`pair_infix_flatMap_iff` that pairs of neighbours come from one piece or from two that
meet.
-/

namespace Markdown

section

variable {α β γ : Type} {P Q blank : α → Prop}

/-- The first element that is not blank is of a kind. -/
def Leads (Q blank : α → Prop) (xs : List α) : Prop :=
  ∃ mid b after, xs = mid ++ b :: after ∧ Q b ∧ ∀ m ∈ mid, blank m

/-- An element of one kind and a later one of another have only blank elements between
them. -/
def Meets (P Q blank : α → Prop) (xs : List α) : Prop :=
  ∃ before a after, xs = before ++ a :: after ∧ P a ∧ Leads Q blank after

theorem not_leads_nil : ¬Leads Q blank [] := by
  rintro ⟨mid, b, after, heq, -⟩
  exact absurd heq.symm (List.append_ne_nil_of_right_ne_nil _ (List.cons_ne_nil _ _))

theorem leads_cons_iff {x : α} {xs : List α} :
    Leads Q blank (x :: xs) ↔ Q x ∨ blank x ∧ Leads Q blank xs := by
  constructor
  · rintro ⟨mid, b, after, heq, hb, hmid⟩
    cases mid with
    | nil =>
        obtain ⟨rfl, -⟩ := List.cons.inj heq
        exact Or.inl hb
    | cons m mid =>
        obtain ⟨rfl, rfl⟩ := List.cons.inj heq
        obtain ⟨hm, hmid⟩ := List.forall_mem_cons.mp hmid
        exact Or.inr ⟨hm, mid, b, after, rfl, hb, hmid⟩
  · rintro (hx | ⟨hx, mid, b, after, rfl, hb, hmid⟩)
    · exact ⟨[], x, xs, rfl, hx, nofun⟩
    · exact ⟨x :: mid, b, after, rfl, hb, List.forall_mem_cons.mpr ⟨hx, hmid⟩⟩

theorem not_meets_nil : ¬Meets P Q blank [] := by
  rintro ⟨before, a, after, heq, -⟩
  exact absurd heq.symm (List.append_ne_nil_of_right_ne_nil _ (List.cons_ne_nil _ _))

theorem meets_cons_iff {x : α} {xs : List α} :
    Meets P Q blank (x :: xs) ↔ P x ∧ Leads Q blank xs ∨ Meets P Q blank xs := by
  constructor
  · rintro ⟨before, a, after, heq, ha, hafter⟩
    cases before with
    | nil =>
        obtain ⟨rfl, rfl⟩ := List.cons.inj heq
        exact Or.inl ⟨ha, hafter⟩
    | cons b before =>
        obtain ⟨rfl, rfl⟩ := List.cons.inj heq
        exact Or.inr ⟨before, a, after, rfl, ha, hafter⟩
  · rintro (⟨hx, hxs⟩ | ⟨before, a, after, rfl, ha, hafter⟩)
    · exact ⟨[], x, xs, rfl, hx, hxs⟩
    · exact ⟨x :: before, a, after, rfl, ha, hafter⟩

instance decidableLeads [DecidablePred Q] [DecidablePred blank] :
    (xs : List α) → Decidable (Leads Q blank xs)
  | [] => isFalse not_leads_nil
  | _ :: xs =>
    have := decidableLeads xs
    decidable_of_iff _ leads_cons_iff.symm

instance decidableMeets [DecidablePred P] [DecidablePred Q] [DecidablePred blank] :
    (xs : List α) → Decidable (Meets P Q blank xs)
  | [] => isFalse not_meets_nil
  | _ :: xs =>
    have := decidableMeets xs
    decidable_of_iff _ meets_cons_iff.symm

section

variable {P' Q' blank' : β → Prop} {xs : List α} {ys : List β}

theorem leads_iff_of_forall₂
    (h : List.Forall₂ (fun x y => (Q x ↔ Q' y) ∧ (blank x ↔ blank' y)) xs ys) :
    Leads Q blank xs ↔ Leads Q' blank' ys := by
  induction h with
  | nil => exact iff_of_false not_leads_nil not_leads_nil
  | cons hxy _ ih => rw [leads_cons_iff, leads_cons_iff, hxy.1, hxy.2, ih]

theorem meets_iff_of_forall₂
    (h : List.Forall₂ (fun x y => (P x ↔ P' y) ∧ (Q x ↔ Q' y) ∧ (blank x ↔ blank' y)) xs ys) :
    Meets P Q blank xs ↔ Meets P' Q' blank' ys := by
  induction h with
  | nil => exact iff_of_false not_meets_nil not_meets_nil
  | cons hxy hrest ih =>
      have hleads := leads_iff_of_forall₂ (hrest.imp fun _ _ h => h.2)
      rw [meets_cons_iff, meets_cons_iff, hxy.1, hleads, ih]

end

variable {x y : γ}

theorem pair_infix_cons_iff {z : γ} {l : List γ} :
    [x, y] <:+: z :: l ↔ x = z ∧ l.head? = some y ∨ [x, y] <:+: l := by
  have hsingle : [y] <+: l ↔ l.head? = some y := by
    cases l with
    | nil => simp
    | cons c l => simp [eq_comm]
  rw [List.infix_cons_iff, List.cons_prefix_cons, hsingle]

/-- A pair of neighbours is in one of two texts, or meets at the seam. -/
theorem pair_infix_append_iff {a b : List γ} :
    [x, y] <:+: a ++ b ↔
      [x, y] <:+: a ∨ a.getLast? = some x ∧ b.head? = some y ∨ [x, y] <:+: b := by
  induction a with
  | nil => simp
  | cons z a ih =>
      rw [List.cons_append, pair_infix_cons_iff, pair_infix_cons_iff, ih]
      cases a with
      | nil => simp [@eq_comm _ x z]
      | cons c a =>
          rw [List.cons_append, List.head?_cons, List.head?_cons, List.getLast?_cons_cons,
            or_assoc]

theorem pair_infix_map_iff {f : γ → γ} (hx : ∀ z, f z = x ↔ z = x)
    (hy : ∀ z, f z = y ↔ z = y) {l : List γ} : [x, y] <:+: l.map f ↔ [x, y] <:+: l := by
  induction l with
  | nil => rfl
  | cons z l ih =>
      have hhead : (l.map f).head? = some y ↔ l.head? = some y := by
        cases l with
        | nil => rfl
        | cons c l => simp [hy]
      rw [List.map_cons, pair_infix_cons_iff, pair_infix_cons_iff, ih, hhead, eq_comm, hx,
        eq_comm]

variable {f : α → List γ}

theorem head?_flatMap_iff {xs : List α} :
    (xs.flatMap f).head? = some y ↔ Leads (fun a => (f a).head? = some y) (f · = []) xs := by
  induction xs with
  | nil => exact iff_of_false nofun not_leads_nil
  | cons a xs ih =>
      rw [List.flatMap_cons, leads_cons_iff, ← ih, List.head?_append]
      cases f a with
      | nil => simp
      | cons c l => simp

/-- **Neighbours in a text of pieces** are neighbours in a piece, or the ends of two
pieces that meet. -/
theorem pair_infix_flatMap_iff {xs : List α} :
    [x, y] <:+: xs.flatMap f ↔
      (∃ a ∈ xs, [x, y] <:+: f a) ∨
        Meets (fun a => (f a).getLast? = some x) (fun a => (f a).head? = some y) (f · = [])
          xs := by
  induction xs with
  | nil => simp [not_meets_nil]
  | cons a xs ih =>
      rw [List.flatMap_cons, pair_infix_append_iff, ih, head?_flatMap_iff, meets_cons_iff,
        List.exists_mem_cons_iff, or_assoc]
      exact or_congr_right or_left_comm

end

end Markdown
