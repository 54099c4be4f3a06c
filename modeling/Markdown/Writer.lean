import Markdown.Fault

/-!
# Writers

A writer is what Markdown leaves open: how to mark emphasis, bullet items and
rules, and whether to work in safe mode. A mark is any text until
`Writer.check` has passed it; `Valid` says which writers pass. A `Patch`
changes some of the fields.
-/

namespace Markdown

structure Writer where
  strong : Text := ['*', '*']
  emphasis : Text := ['*']
  bullet : Text := ['-']
  rule : Text := ['-', '-', '-']
  safeMode : Bool := false
deriving DecidableEq, Repr

namespace Writer

def strongMarks : List Text :=
  ["**".toList, "__".toList]

def emphasisMarks : List Text :=
  ["*".toList, "_".toList]

def bulletMarks : List Text :=
  ["-".toList, "*".toList, "+".toList]

def ruleMarks : List Text :=
  ["---".toList, "***".toList, "___".toList,
   "- - -".toList, "* * *".toList, "_ _ _".toList]

/-- The marks of a writer are all Markdown. -/
def Valid (w : Writer) : Prop :=
  w.strong ∈ strongMarks ∧ w.emphasis ∈ emphasisMarks ∧
    w.bullet ∈ bulletMarks ∧ w.rule ∈ ruleMarks

instance (w : Writer) : Decidable w.Valid :=
  inferInstanceAs (Decidable (_ ∧ _ ∧ _ ∧ _))

/-- A writer that is valid, or else the first of its marks that is not
Markdown. -/
def check (w : Writer) : Except Fault Writer := do
  require (w.strong ∈ strongMarks) (.strongMark w.strong)
  require (w.emphasis ∈ emphasisMarks) (.emphasisMark w.emphasis)
  require (w.bullet ∈ bulletMarks) (.bulletMark w.bullet)
  require (w.rule ∈ ruleMarks) (.ruleMark w.rule)
  return w

/-- Checking passes the valid writers, and passes them unchanged. -/
theorem check_eq_ok_iff {v w : Writer} :
    v.check = .ok w ↔ v = w ∧ w.Valid := by
  simp only [check, require_bind_eq_ok_iff, Valid, pure, Except.pure,
    Except.ok.injEq]
  constructor
  · rintro ⟨h₁, h₂, h₃, h₄, rfl⟩
    exact ⟨rfl, h₁, h₂, h₃, h₄⟩
  · rintro ⟨rfl, h₁, h₂, h₃, h₄⟩
    exact ⟨h₁, h₂, h₃, h₄, rfl⟩

theorem valid_default (safe : Bool) : Valid { safeMode := safe } := by
  cases safe <;> decide

structure Patch where
  strong : Option Text := none
  emphasis : Option Text := none
  bullet : Option Text := none
  rule : Option Text := none
  safeMode : Option Bool := none
deriving DecidableEq, Repr

/-- A writer with the fields of a patch in place of its own. All fields
change at once, and nothing is checked. -/
def apply (w : Writer) (p : Patch) : Writer where
  strong := p.strong.getD w.strong
  emphasis := p.emphasis.getD w.emphasis
  bullet := p.bullet.getD w.bullet
  rule := p.rule.getD w.rule
  safeMode := p.safeMode.getD w.safeMode

def change (w : Writer) (p : Patch) : Except Fault Writer :=
  (w.apply p).check

end Writer

end Markdown
