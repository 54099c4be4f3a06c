import Markdown.Proofs.Outlines
import Markdown.Proofs.Tables

/-!
# What the flag of a node knows

A node counts as escaped if nothing in it was taken over without escaping. The
flag is put together in as many places as there are constructors; what they
have in common is one equation: a node is escaped if its own constructor vouches
for it and all the nodes in it are (`eval_step_escaped`). From there, by
induction on the expression, the flag is exact.
-/

namespace Markdown

/-- The demand for escaping that a constructor is given, if it takes one. -/
def Expr.escape? : Expr → Option Bool
  | .fixed _ => none
  | .leaf _ escape => some escape
  | .wrap _ _ escape => some escape
  | .list _ _ escape => some escape
  | .table _ _ _ escape => some escape
  | .document _ => none
  | .stored _ => none

/-- Whether a constructor, apart from its children, makes an escaped node. -/
def Expr.vouches (shelf : Shelf) : Expr → Bool
  | .stored name => (shelf name).any (·.escaped)
  | e => e.escape?.getD true

section

variable {w : Writer} {shelf : Shelf} {e : Expr} {n : Node}

theorem eval_step_escaped (h : Makes w shelf e n) :
    ∃ ns, List.Forall₂ (Makes w shelf) e.children ns ∧
      n.escaped = (e.vouches shelf && ns.all (·.escaped)) := by
  cases e with
  | fixed node =>
      obtain rfl := makes_fixed_iff.mp h
      cases node <;> exact ⟨[], List.Forall₂.nil, rfl⟩
  | leaf leaf escape =>
      obtain ⟨-, -, rfl⟩ := Leaf.make_eq_ok_iff.mp (makes_leaf_iff.mp h)
      exact ⟨[], List.Forall₂.nil, (Bool.and_true escape).symm⟩
  | wrap wrap content escape =>
      obtain ⟨c, hc, hmake⟩ := makes_wrap_iff.mp h
      obtain ⟨-, -, -, -, rfl⟩ := Wrap.make_eq_ok_iff.mp hmake
      exact ⟨c.nodes, Operand.eval_nodes hc, rfl⟩
  | list style items escape =>
      obtain ⟨c, hc, hmake⟩ := makes_list_iff.mp h
      obtain ⟨-, -, -, rfl⟩ := ListStyle.make_eq_ok_iff.mp hmake
      exact ⟨c.nodes, Operand.eval_nodes hc, rfl⟩
  | table headers rows alignments escape =>
      obtain ⟨header, hheader, body, hbody, hmake⟩ := makes_table_iff.mp h
      obtain ⟨-, -, aligned, -, -, -, rfl⟩ := table_eq_ok_iff.mp hmake
      exact ⟨tableNodes header body,
        List.rel_append (evalOperands_nodes hheader) (evalRows_nodes hbody), rfl⟩
  | document children =>
      obtain ⟨ns, hns, hmake⟩ := makes_document_iff.mp h
      obtain ⟨-, rfl⟩ := Node.document_eq_ok_iff.mp hmake
      exact ⟨ns, evalNodes_nodes hns, rfl⟩
  | stored name =>
      have hshelf : shelf name = some n := makes_stored_iff.mp h
      refine ⟨[], List.Forall₂.nil, ?_⟩
      simp [Expr.vouches, hshelf]

theorem exists_makes_of_mem_parts (h : Makes w shelf e n) {p : Expr} (hp : p ∈ e.parts) :
    ∃ m, Makes w shelf p m := by
  induction e using Expr.induction generalizing n with
  | step e ih =>
    rcases Expr.mem_parts_iff.mp hp with rfl | ⟨c, hc, hp⟩
    · exact ⟨n, h⟩
    · obtain ⟨ns, hns, -⟩ := eval_step_escaped h
      obtain ⟨m, -, hm⟩ := exists_mem_of_forall₂ hns.flip hc
      exact ih c hc hm hp

theorem vouches_iff {p : Expr} :
    p.vouches shelf = true ↔
      (∀ b ∈ p.escape?, b = true) ∧
        ∀ name, p = .stored name → ∃ m ∈ shelf name, m.escaped = true := by
  cases p with
  | stored name => simp [Expr.vouches, Expr.escape?, Option.any_eq_true]
  | _ => simp [Expr.vouches, Expr.escape?]

/-- A node is escaped if every constructor in its expression vouches for it. -/
theorem eval_escaped_iff_vouches (h : Makes w shelf e n) :
    n.escaped = true ↔ ∀ p ∈ e.parts, p.vouches shelf = true := by
  induction e using Expr.induction generalizing n with
  | step e ih =>
    obtain ⟨ns, hns, hescaped⟩ := eval_step_escaped h
    have hchildren : (∀ m ∈ ns, m.escaped = true) ↔
        ∀ c ∈ e.children, ∀ p ∈ c.parts, p.vouches shelf = true :=
      forall_mem_iff_of_forall₂ (forall₂_imp_of_mem hns fun c hc m hm => ih c hc hm)
    rw [hescaped, Bool.and_eq_true, List.all_eq_true, hchildren, Expr.forall_parts_iff]

end

/-- **The flag is exact.** A node counts as escaped if and only if every demand
for escaping in its expression is made and every stored node that it refers to
counts as escaped. -/
theorem eval_escaped_iff {w : Writer} {shelf : Shelf} {e : Expr} {n : Node}
    (h : e.eval w shelf = .ok n) :
    n.escaped = true ↔
      (∀ p ∈ e.parts, ∀ b ∈ p.escape?, b = true) ∧
        ∀ name, .stored name ∈ e.parts → ∃ m ∈ shelf name, m.escaped = true := by
  rw [eval_escaped_iff_vouches h]
  simp only [vouches_iff]
  constructor
  · intro hall
    exact ⟨fun p hp => (hall p hp).1, fun name hname => (hall _ hname).2 name rfl⟩
  · rintro ⟨hdemands, hstored⟩ p hp
    refine ⟨hdemands p hp, ?_⟩
    rintro name rfl
    exact hstored name hp

/-- A stored node in a cell and strong text in a sublist. The document loses its
flag with the demand of the strong text, three levels down. -/
theorem eval_escaped_iff_nested :
    let shelf : Shelf := fun name =>
      if name = "x".toList then some ⟨.text, "\\<".toList, true⟩ else none
    let e (b : Bool) : Expr := .document [
      .table [.literal "h".toList] [[.node (.stored "x".toList)]] [] true,
      .list .bullets (.sequence [.literal "i".toList,
        .sequence [.node (.wrap .bold (.literal "j".toList) b)]]) true]
    let n (b : Bool) : Node := ⟨.document, "h\n---\n\\<\n- i\n  - **j**".toList, b⟩
    (e true).eval {} shelf = .ok (n true) ∧ (e false).eval {} shelf = .ok (n false) ∧
    ((n true).escaped = true ↔
      (∀ p ∈ (e true).parts, ∀ b ∈ p.escape?, b = true) ∧
        ∀ name, .stored name ∈ (e true).parts → ∃ m ∈ shelf name, m.escaped = true) ∧
    ((n false).escaped = true ↔
      (∀ p ∈ (e false).parts, ∀ b ∈ p.escape?, b = true) ∧
        ∀ name, .stored name ∈ (e false).parts → ∃ m ∈ shelf name, m.escaped = true) := by
  intro shelf e n
  have htrue : (e true).eval {} shelf = .ok (n true) := rfl
  have hfalse : (e false).eval {} shelf = .ok (n false) := rfl
  exact ⟨htrue, hfalse, eval_escaped_iff htrue, eval_escaped_iff hfalse⟩

end Markdown
