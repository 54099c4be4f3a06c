import Markdown.Text

/-!
# Registries

A registry stores values under names. A name stands for the value that was
stored under it last.
-/

namespace Markdown

structure Registry (α : Type) where
  entries : List (Text × α) := []
deriving Repr

namespace Registry

variable {α : Type}

def empty : Registry α := ⟨[]⟩

def get? (r : Registry α) (name : Text) : Option α :=
  r.entries.lookup name

/-- Stores a value under a name, in place of any earlier one. -/
def put (r : Registry α) (name : Text) (a : α) : Registry α :=
  ⟨(name, a) :: r.entries.filter fun e => e.1 ≠ name⟩

@[simp] theorem get?_empty (name : Text) :
    (empty : Registry α).get? name = none := rfl

theorem lookup_filter_ne {name other : Text} (h : other ≠ name)
    (es : List (Text × α)) :
    (es.filter fun e => e.1 ≠ name).lookup other = es.lookup other := by
  induction es with
  | nil => rfl
  | cons e es ih =>
      obtain ⟨key, a⟩ := e
      by_cases hk : key = name
      · subst hk
        have hne : (other == key) = false := by simpa using h
        simpa [List.lookup_cons, hne] using ih
      · simp only [ne_eq, hk, not_false_eq_true, decide_true,
          List.filter_cons_of_pos, List.lookup_cons]
        rw [← ih]

/-- Storing changes what one name stands for, and nothing else. -/
theorem get?_put (r : Registry α) (name other : Text) (a : α) :
    (r.put name a).get? other =
      if other = name then some a else r.get? other := by
  by_cases h : other = name
  · subst h
    simp [put, get?]
  · have hne : (other == name) = false := by simpa using h
    rw [if_neg h, get?, put, List.lookup_cons, hne]
    exact lookup_filter_ne h r.entries

end Registry

end Markdown
