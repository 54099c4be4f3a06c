import Mathlib.Data.List.Forall2
import Markdown.Fault

/-!
# Outcomes

What a sequence of steps keeps up because each of its steps does, whether it fails
or not. `FailsOnly` is about one outcome and its faults; `Agree` relates the outcomes
of two runs. Both go through a sequence with `bind` and through a traversal with
`mapM`.
-/

namespace Markdown

/-- Every fault that a step ends with satisfies `P`. -/
def FailsOnly {α : Type} (P : Fault → Prop) (x : Except Fault α) : Prop :=
  ∀ f, x = .error f → P f

namespace FailsOnly

variable {α β : Type} {P Q : Fault → Prop}

theorem ok (a : α) : FailsOnly P (.ok a) :=
  nofun

theorem error {f : Fault} (h : P f) : FailsOnly P (.error f : Except Fault α) := by
  intro g hg
  obtain rfl := Except.error.inj hg
  exact h

theorem require {p : Prop} [Decidable p] {f : Fault} (h : ¬p → P f) :
    FailsOnly P (require p f) := by
  intro g hg
  obtain ⟨hp, rfl⟩ := require_eq_error_iff.mp hg
  exact h hp

theorem mono {x : Except Fault α} (hPQ : ∀ f, P f → Q f) (h : FailsOnly P x) :
    FailsOnly Q x :=
  fun f hf => hPQ f (h f hf)

theorem bind {x : Except Fault α} {k : α → Except Fault β} (hx : FailsOnly P x)
    (hk : ∀ a, x = .ok a → FailsOnly P (k a)) : FailsOnly P (x >>= k) := by
  cases x with
  | error f => exact error (hx f rfl)
  | ok a => exact hk a rfl

theorem map {x : Except Fault α} (g : α → β) (h : FailsOnly P x) : FailsOnly P (g <$> x) := by
  cases x with
  | error f => exact error (h f rfl)
  | ok a => exact ok (g a)

theorem mapM {f : α → Except Fault β} {xs : List α} (h : ∀ x ∈ xs, FailsOnly P (f x)) :
    FailsOnly P (xs.mapM f) := by
  induction xs with
  | nil => exact ok []
  | cons x xs ih =>
      obtain ⟨hx, hxs⟩ := List.forall_mem_cons.mp h
      rw [List.mapM_cons]
      exact hx.bind fun _ _ => (ih hxs).bind fun _ _ => ok _

end FailsOnly

/-- Two outcomes are the same fault, or two results in a relation. -/
def Agree {α β : Type} (R : α → β → Prop) : Except Fault α → Except Fault β → Prop
  | .error f, .error g => f = g
  | .ok a, .ok b => R a b
  | _, _ => False

namespace Agree

variable {α β γ δ : Type} {R : α → β → Prop} {S : γ → δ → Prop}
  {x : Except Fault α} {y : Except Fault β}

theorem of_same {R : α → α → Prop} (hR : ∀ a, R a a) (x : Except Fault α) :
    Agree R x x := by
  cases x with
  | error f => exact rfl
  | ok a => exact hR a

theorem cases (h : Agree R x y) :
    (∃ f, x = .error f ∧ y = .error f) ∨ ∃ a b, x = .ok a ∧ y = .ok b ∧ R a b := by
  cases x with
  | error f =>
      cases y with
      | error g => exact .inl ⟨f, rfl, congrArg _ (Eq.symm h)⟩
      | ok b => exact h.elim
  | ok a =>
      cases y with
      | error g => exact h.elim
      | ok b => exact .inr ⟨a, b, rfl, rfl, h⟩

theorem bind {k : α → Except Fault γ} {l : β → Except Fault δ} (h : Agree R x y)
    (hkl : ∀ a b, R a b → Agree S (k a) (l b)) : Agree S (x >>= k) (y >>= l) := by
  rcases h.cases with ⟨f, rfl, rfl⟩ | ⟨a, b, rfl, rfl, hab⟩
  · exact rfl
  · exact hkl a b hab

/-- A step that is the same on both sides does not tell them apart. -/
theorem bind_same (x : Except Fault α) {k : α → Except Fault γ} {l : α → Except Fault δ}
    (hkl : ∀ a, x = .ok a → Agree S (k a) (l a)) : Agree S (x >>= k) (x >>= l) := by
  cases x with
  | error f => exact rfl
  | ok a => exact hkl a rfl

theorem map {f : α → γ} {g : β → δ} (h : Agree R x y) (hfg : ∀ a b, R a b → S (f a) (g b)) :
    Agree S (f <$> x) (g <$> y) := by
  rw [map_eq_pure_bind, map_eq_pure_bind]
  exact h.bind hfg

theorem mapM {f : α → Except Fault γ} {g : β → Except Fault δ} {xs : List α} {ys : List β}
    (h : List.Forall₂ (fun a b => Agree S (f a) (g b)) xs ys) :
    Agree (List.Forall₂ S) (xs.mapM f) (ys.mapM g) := by
  induction h with
  | nil => exact List.Forall₂.nil
  | cons hab _ ih =>
      rw [List.mapM_cons, List.mapM_cons]
      exact hab.bind fun _ _ hcd => ih.bind fun _ _ hrest => List.Forall₂.cons hcd hrest

end Agree

end Markdown
