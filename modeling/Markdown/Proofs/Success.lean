import Mathlib.Data.List.Forall2
import Markdown.Fault

/-!
# Success

What it means that a sequence of steps succeeds: each of its steps does, on
what the earlier ones have made.
-/

namespace Markdown

variable {ε α β : Type}

theorem bind_eq_ok_iff {x : Except ε α} {f : α → Except ε β} {b : β} :
    x >>= f = .ok b ↔ ∃ a, x = .ok a ∧ f a = .ok b := by
  cases x with
  | error e => exact ⟨nofun, nofun⟩
  | ok a =>
      constructor
      · exact fun h => ⟨a, rfl, h⟩
      · rintro ⟨_, ha, h⟩
        obtain rfl := Except.ok.inj ha
        exact h

theorem bind_eq_error_iff {x : Except ε α} {f : α → Except ε β} {e : ε} :
    x >>= f = .error e ↔ x = .error e ∨ ∃ a, x = .ok a ∧ f a = .error e := by
  cases x with
  | error e' =>
      constructor
      · intro h
        exact Or.inl (congrArg Except.error (Except.error.inj h))
      · rintro (h | ⟨_, h, -⟩)
        · exact congrArg Except.error (Except.error.inj h)
        · exact absurd h nofun
  | ok a =>
      constructor
      · exact fun h => Or.inr ⟨a, rfl, h⟩
      · rintro (h | ⟨_, ha, h⟩)
        · exact absurd h nofun
        · obtain rfl := Except.ok.inj ha
          exact h

theorem bind_eq_ok_iff_of {x : Except ε α} {P : Prop} {a : α}
    (hx : ∀ a', x = .ok a' ↔ P ∧ a = a') {f : α → Except ε β} {b : β} :
    x >>= f = .ok b ↔ P ∧ f a = .ok b := by
  rw [bind_eq_ok_iff]
  constructor
  · rintro ⟨a', ha', hb⟩
    obtain ⟨hP, rfl⟩ := (hx a').mp ha'
    exact ⟨hP, hb⟩
  · rintro ⟨hP, hb⟩
    exact ⟨a, (hx a).mpr ⟨hP, rfl⟩, hb⟩

theorem map_eq_ok_iff {x : Except ε α} {f : α → β} {b : β} :
    f <$> x = .ok b ↔ ∃ a, x = .ok a ∧ f a = b := by
  cases x with
  | error e => exact ⟨nofun, nofun⟩
  | ok a =>
      constructor
      · exact fun h => ⟨a, rfl, Except.ok.inj h⟩
      · rintro ⟨_, ha, rfl⟩
        obtain rfl := Except.ok.inj ha
        rfl

theorem map_eq_error_iff {x : Except ε α} {f : α → β} {e : ε} :
    f <$> x = .error e ↔ x = .error e := by
  cases x with
  | error e' =>
      constructor
      · exact fun h => congrArg Except.error (Except.error.inj h)
      · exact fun h => congrArg Except.error (Except.error.inj h)
  | ok a => exact ⟨nofun, nofun⟩

theorem pure_eq_ok_iff {a b : α} : (pure a : Except ε α) = .ok b ↔ a = b :=
  ⟨Except.ok.inj, congrArg Except.ok⟩

/-- A traversal succeeds if its steps do, element by element. -/
theorem mapM_eq_ok_iff {f : α → Except ε β} {R : α → β → Prop}
    (hf : ∀ x y, f x = .ok y ↔ R x y) {xs : List α} {ys : List β} :
    xs.mapM f = .ok ys ↔ List.Forall₂ R xs ys := by
  induction xs generalizing ys with
  | nil =>
      rw [List.mapM_nil, pure_eq_ok_iff, List.forall₂_nil_left_iff, eq_comm]
  | cons x xs ih =>
      simp only [List.mapM_cons, bind_eq_ok_iff, pure_eq_ok_iff, ih, hf,
        List.forall₂_cons_left_iff]
      constructor
      · rintro ⟨y, hy, ys', hys, rfl⟩
        exact ⟨y, ys', hy, hys, rfl⟩
      · rintro ⟨y, ys', hy, hys, rfl⟩
        exact ⟨y, hy, ys', hys, rfl⟩

/-- A step that succeeds on some arguments, with a known result, traverses the
lists of these arguments. -/
theorem mapM_eq_ok_iff_map {f : α → Except ε β} {P : α → Prop} {g : α → β}
    (hf : ∀ x y, f x = .ok y ↔ P x ∧ g x = y) {xs : List α} {ys : List β} :
    xs.mapM f = .ok ys ↔ (∀ x ∈ xs, P x) ∧ xs.map g = ys := by
  rw [mapM_eq_ok_iff hf, List.forall₂_and_left, ← List.forall₂_map_left_iff,
    List.forall₂_eq_eq_eq]

/-- Steps that do the same at every pair of members traverse two lists in the same way. -/
theorem mapM_eq_of_forall₂ {γ : Type} {f : α → Except ε γ} {g : β → Except ε γ} {xs : List α}
    {ys : List β} (h : List.Forall₂ (fun x y => f x = g y) xs ys) : xs.mapM f = ys.mapM g := by
  induction h with
  | nil => rfl
  | cons hxy _ ih => rw [List.mapM_cons, List.mapM_cons, hxy, ih]

theorem mapM_congr {f g : α → Except ε β} {xs : List α} (h : ∀ x ∈ xs, f x = g x) :
    xs.mapM f = xs.mapM g :=
  mapM_eq_of_forall₂ (List.forall₂_same.mpr h)

theorem forall_mem_zipIdx {P : α → Prop} {xs : List α} {k : Nat} :
    (∀ x ∈ xs.zipIdx k, P x.1) ↔ ∀ x ∈ xs, P x := by
  have hmap : (∀ x ∈ (xs.zipIdx k).map Prod.fst, P x) ↔ ∀ x ∈ xs.zipIdx k, P x.1 :=
    List.forall_mem_map
  rw [← hmap, List.zipIdx_map_fst]

/-- Numbering the arguments makes no difference to what a traversal gives, if it
makes none to a step. -/
theorem mapM_zipIdx_eq_ok_iff_map {f : α × Nat → Except ε β} {P : α → Prop} {g : α → β}
    (hf : ∀ x y, f x = .ok y ↔ P x.1 ∧ g x.1 = y) {xs : List α} {k : Nat} {ys : List β} :
    (xs.zipIdx k).mapM f = .ok ys ↔ (∀ x ∈ xs, P x) ∧ xs.map g = ys := by
  have hmap : (xs.zipIdx k).map (g ∘ Prod.fst) = xs.map g := by
    rw [← List.map_map, List.zipIdx_map_fst]
  rw [mapM_eq_ok_iff_map (g := g ∘ Prod.fst) hf, forall_mem_zipIdx, hmap]

/-- What holds of the members of one list and relates them to the other may be
used at every pair. -/
theorem forall₂_imp_of_mem {R S : α → β → Prop} {xs : List α} {ys : List β}
    (h : List.Forall₂ R xs ys) (hS : ∀ x ∈ xs, ∀ y, R x y → S x y) :
    List.Forall₂ S xs ys := by
  have hboth : List.Forall₂ (fun x y => (∀ y, R x y → S x y) ∧ R x y) xs ys :=
    (List.forall₂_and_left _ _).mpr ⟨hS, h⟩
  exact hboth.imp fun x y hxy => hxy.1 y hxy.2

theorem exists_mem_of_forall₂ {R : α → β → Prop} {xs : List α} {ys : List β}
    (h : List.Forall₂ R xs ys) {y : β} (hy : y ∈ ys) : ∃ x ∈ xs, R x y := by
  induction h with
  | nil => exact absurd hy List.not_mem_nil
  | cons hxy _ ih =>
      rcases List.mem_cons.mp hy with rfl | hy
      · exact ⟨_, List.mem_cons_self, hxy⟩
      · obtain ⟨x, hx, hxy⟩ := ih hy
        exact ⟨x, List.mem_cons_of_mem _ hx, hxy⟩

theorem exists_forall₂ {R : α → β → Prop} {xs : List α} (h : ∀ x ∈ xs, ∃ y, R x y) :
    ∃ ys, List.Forall₂ R xs ys := by
  induction xs with
  | nil => exact ⟨[], .nil⟩
  | cons x xs ih =>
      obtain ⟨⟨y, hy⟩, hxs⟩ := List.forall_mem_cons.mp h
      obtain ⟨ys, hys⟩ := ih hxs
      exact ⟨y :: ys, .cons hy hys⟩

theorem map_eq_of_forall₂ {γ : Type} {f : α → γ} {g : β → γ} {xs : List α} {ys : List β}
    (h : List.Forall₂ (fun x y => f x = g y) xs ys) : xs.map f = ys.map g := by
  rwa [← List.forall₂_eq_eq_eq, List.forall₂_map_left_iff, List.forall₂_map_right_iff]

theorem all_eq_of_forall₂ {p : α → Bool} {q : β → Bool} {xs : List α} {ys : List β}
    (h : List.Forall₂ (fun x y => p x = q y) xs ys) : xs.all p = ys.all q := by
  have hmap : xs.map p = ys.map q := map_eq_of_forall₂ h
  rw [← Function.id_comp p, ← List.all_map, hmap, List.all_map, Function.id_comp]

theorem countP_eq_of_forall₂ {p : α → Bool} {q : β → Bool} {xs : List α} {ys : List β}
    (h : List.Forall₂ (fun x y => p x = q y) xs ys) : xs.countP p = ys.countP q := by
  have hmap : xs.map p = ys.map q := map_eq_of_forall₂ h
  rw [← Function.id_comp p, ← List.countP_map, hmap, List.countP_map, Function.id_comp]

theorem ne_nil_iff_of_forall₂ {R : α → β → Prop} {xs : List α} {ys : List β}
    (h : List.Forall₂ R xs ys) : xs ≠ [] ↔ ys ≠ [] := by
  rw [← List.length_pos_iff, ← List.length_pos_iff, h.length_eq]

theorem forall₂_zipIdx {R : α → β → Prop} {xs : List α} {ys : List β}
    (h : List.Forall₂ R xs ys) (k : Nat) :
    List.Forall₂ (fun x y => R x.1 y.1 ∧ x.2 = y.2) (xs.zipIdx k) (ys.zipIdx k) := by
  induction h generalizing k with
  | nil => exact .nil
  | cons hxy _ ih => exact .cons ⟨hxy, rfl⟩ (ih (k + 1))

theorem forall_mem_iff_of_forall₂ {P : α → Prop} {Q : β → Prop} {xs : List α}
    {ys : List β} (h : List.Forall₂ (fun x y => Q y ↔ P x) xs ys) :
    (∀ y ∈ ys, Q y) ↔ ∀ x ∈ xs, P x := by
  induction h with
  | nil => exact ⟨fun _ => List.forall_mem_nil _, fun _ => List.forall_mem_nil _⟩
  | cons hxy _ ih => rw [List.forall_mem_cons, List.forall_mem_cons, hxy, ih]

theorem exists_mem_iff_of_forall₂ {P : α → Prop} {Q : β → Prop} {xs : List α}
    {ys : List β} (h : List.Forall₂ (fun x y => Q y ↔ P x) xs ys) :
    (∃ y ∈ ys, Q y) ↔ ∃ x ∈ xs, P x := by
  induction h with
  | nil => exact iff_of_false nofun nofun
  | cons hxy _ ih => rw [List.exists_mem_cons_iff, List.exists_mem_cons_iff, hxy, ih]

end Markdown
