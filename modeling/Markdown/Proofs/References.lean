import Markdown.Proofs.Trees

/-!
# References

An expression looks at the shelf where it refers to a stored node, and nowhere
else. The names that it refers to, at whatever depth, are its `refs`; on two
shelves that agree on these it has the same outcome (`Expr.eval_congr`).
-/

namespace Markdown

def Expr.ref? : Expr → Option Text
  | .stored name => some name
  | _ => none

/-- The names of the stored nodes that an expression refers to. -/
def Expr.refs (e : Expr) : List Text :=
  e.parts.filterMap Expr.ref?

theorem Expr.ref?_eq_some_iff {e : Expr} {name : Text} :
    e.ref? = some name ↔ e = .stored name := by
  cases e <;> simp [ref?]

theorem Expr.mem_refs_iff {e : Expr} {name : Text} :
    name ∈ e.refs ↔ .stored name ∈ e.parts := by
  simp [refs, ref?_eq_some_iff]

theorem Expr.refs_subset {c e : Expr} (hc : c ∈ e.children) : c.refs ⊆ e.refs := by
  intro name hname
  rw [mem_refs_iff] at hname ⊢
  exact mem_parts_iff.mpr (Or.inr ⟨c, hc, hname⟩)

section Evaluation

variable {w : Writer} {shelf shelf' : Shelf}

theorem Operand.eval_congr {o : Operand}
    (h : ∀ e ∈ o.exprs, e.eval w shelf = e.eval w shelf') :
    o.eval w shelf = o.eval w shelf' := by
  induction o using Operand.induction with
  | literal t => rfl
  | node e => rw [Operand.eval, Operand.eval, h e List.mem_cons_self]
  | sequence os ih =>
      rw [Operand.eval, Operand.eval, evalOperands_eq_mapM, evalOperands_eq_mapM]
      refine congrArg _ (mapM_congr fun o ho => ih o ho fun e he => h e ?_)
      exact mem_exprsOfAll_iff.mpr ⟨o, ho, he⟩

theorem evalOperands_congr {os : List Operand}
    (h : ∀ e ∈ exprsOfAll os, e.eval w shelf = e.eval w shelf') :
    evalOperands w shelf os = evalOperands w shelf' os := by
  rw [evalOperands_eq_mapM, evalOperands_eq_mapM]
  refine mapM_congr fun o ho => Operand.eval_congr fun e he => h e ?_
  exact mem_exprsOfAll_iff.mpr ⟨o, ho, he⟩

theorem evalRows_congr {rows : List (List Operand)}
    (h : ∀ e ∈ exprsOfRows rows, e.eval w shelf = e.eval w shelf') :
    evalRows w shelf rows = evalRows w shelf' rows := by
  rw [evalRows_eq_mapM, evalRows_eq_mapM]
  refine mapM_congr fun row hrow => evalOperands_congr fun e he => h e ?_
  exact mem_exprsOfRows_iff.mpr ⟨row, hrow, he⟩

theorem evalNodes_congr {es : List Expr}
    (h : ∀ e ∈ es, e.eval w shelf = e.eval w shelf') :
    evalNodes w shelf es = evalNodes w shelf' es := by
  rw [evalNodes_eq_mapM, evalNodes_eq_mapM]
  exact mapM_congr h

/-- **An expression looks at its references only.** -/
theorem Expr.eval_congr {e : Expr} (h : ∀ name ∈ e.refs, shelf name = shelf' name) :
    e.eval w shelf = e.eval w shelf' := by
  induction e using Expr.induction with
  | step e ih =>
    have hchildren : ∀ c ∈ e.children, c.eval w shelf = c.eval w shelf' := fun c hc =>
      ih c hc fun name hname => h name (refs_subset hc hname)
    cases e with
    | fixed node => rfl
    | leaf leaf escape => rfl
    | wrap wrap content escape =>
        rw [Expr.eval, Expr.eval, Operand.eval_congr hchildren]
    | list style items escape =>
        rw [Expr.eval, Expr.eval, Operand.eval_congr hchildren]
    | table headers rows alignments escape =>
        obtain ⟨hheaders, hrows⟩ := List.forall_mem_append.mp hchildren
        rw [Expr.eval, Expr.eval, evalOperands_congr hheaders, evalRows_congr hrows]
    | document children =>
        have hnodes : evalNodes w shelf children = evalNodes w shelf' children :=
          evalNodes_congr hchildren
        rw [Expr.eval, Expr.eval, hnodes]
    | stored name =>
        rw [Expr.eval, Expr.eval, h name (mem_refs_iff.mpr (mem_parts_iff.mpr (Or.inl rfl)))]

end Evaluation

end Markdown
