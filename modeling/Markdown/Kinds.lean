import Markdown.Kind

/-!
# Sets of kinds

A set of kinds is one bit per kind, so equality, union and the test for
emptiness are operations on a single word. The view of a set is its
membership; `toList` lists the members in the order of their numbers.
-/

namespace Markdown

/-- A set of kinds. Bit `i` stands for the kind of number `i`. -/
structure Kinds where
  bits : BitVec Kind.count
deriving DecidableEq, Repr

namespace Kinds

def bit (k : Kind) : BitVec Kind.count :=
  BitVec.twoPow Kind.count k.index

instance : Membership Kind Kinds where
  mem s k := s.bits.getLsbD k.index = true

instance (k : Kind) (s : Kinds) : Decidable (k ∈ s) :=
  inferInstanceAs (Decidable (s.bits.getLsbD k.index = true))

instance : EmptyCollection Kinds where
  emptyCollection := ⟨0⟩

instance : Union Kinds where
  union s t := ⟨s.bits ||| t.bits⟩

/-- The set of the kinds in a list. Order and repetition do not matter. -/
def ofList (ks : List Kind) : Kinds :=
  ⟨ks.foldr (fun k bits => bit k ||| bits) 0⟩

/-- The members of a set, each once, in the order of their numbers. -/
def toList (s : Kinds) : List Kind :=
  Kind.all.filter (· ∈ s)

def isEmpty (s : Kinds) : Bool :=
  s.bits == 0

theorem mem_def {k : Kind} {s : Kinds} :
    k ∈ s ↔ s.bits.getLsbD k.index = true := Iff.rfl

@[simp] theorem not_mem_empty (k : Kind) : k ∉ (∅ : Kinds) := by
  cases k <;> decide

@[simp] theorem mem_union {k : Kind} {s t : Kinds} :
    k ∈ s ∪ t ↔ k ∈ s ∨ k ∈ t := by
  simp only [mem_def]
  rw [← Bool.or_eq_true, ← BitVec.getLsbD_or]
  rfl

theorem getLsbD_bit (j k : Kind) :
    (bit j).getLsbD k.index = decide (k = j) := by
  rw [bit, BitVec.getLsbD_twoPow]
  simp [j.index_lt, Kind.index_inj, eq_comm]

@[simp] theorem mem_ofList {k : Kind} {ks : List Kind} :
    k ∈ ofList ks ↔ k ∈ ks := by
  induction ks with
  | nil =>
      have h : k ∉ ofList [] := not_mem_empty k
      simp [h]
  | cons j ks ih =>
      rw [mem_def] at ih ⊢
      simp only [ofList, List.foldr_cons, BitVec.getLsbD_or, getLsbD_bit,
        Bool.or_eq_true, decide_eq_true_eq, List.mem_cons]
      exact or_congr Iff.rfl ih

@[simp] theorem mem_toList {k : Kind} {s : Kinds} :
    k ∈ s.toList ↔ k ∈ s := by
  simp [toList, Kind.mem_all]

theorem ext_mem {s t : Kinds} (h : ∀ k, k ∈ s ↔ k ∈ t) : s = t := by
  obtain ⟨a⟩ := s
  obtain ⟨b⟩ := t
  congr 1
  apply BitVec.eq_of_getLsbD_eq
  intro i hi
  have hk : (Kind.all.get ⟨i, hi⟩).index = i := by
    have all_index : ∀ i : Fin Kind.count, (Kind.all.get i).index = i := by
      decide
    exact all_index ⟨i, hi⟩
  have := h (Kind.all.get ⟨i, hi⟩)
  simp only [mem_def, hk] at this
  exact Bool.eq_iff_iff.mpr this

end Kinds

end Markdown
