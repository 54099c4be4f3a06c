import Markdown.Proofs.References
import Markdown.Proofs.Taint

/-!
# What safe mode takes away

Safe mode adds one check to every constructor with a demand for escaping, each
at a place of its own among the other checks. So two runs of an expression, with
safe mode and without, go together up to the first demand that is not made. One
outcome tightens the other (`Tightens`) if they are equal or the first is the
refusal of safe mode, with a reason for it. Sequencing keeps this up, so each
constructor does, and by induction every expression.
-/

namespace Markdown

/-- The outcome of a step in safe mode next to its outcome without: the same, or
a refusal, which has a reason. -/
def Tightens {α : Type} (reason : Prop) (safe free : Except Fault α) : Prop :=
  safe = free ∨ reason ∧ safe = .error .unescaped

namespace Tightens

variable {α β : Type} {P Q : Prop} {x y : Except Fault α}

theorem refl (x : Except Fault α) : Tightens P x x :=
  Or.inl rfl

theorem mono (hPQ : P → Q) (h : Tightens P x y) : Tightens Q x y :=
  h.imp_right fun ⟨hP, hx⟩ => ⟨hPQ hP, hx⟩

/-- A refusal is the outcome of the whole sequence; otherwise what follows
decides. -/
theorem bind {f g : α → Except Fault β} (h : Tightens P x y)
    (hfg : ∀ a, Tightens P (f a) (g a)) : Tightens P (x >>= f) (y >>= g) := by
  rcases h with rfl | ⟨hP, rfl⟩
  · cases x with
    | error fault => exact refl _
    | ok a => exact hfg a
  · exact Or.inr ⟨hP, rfl⟩

theorem map (f : α → β) (h : Tightens P x y) : Tightens P (f <$> x) (f <$> y) := by
  rcases h with rfl | ⟨hP, rfl⟩
  · exact refl _
  · exact Or.inr ⟨hP, rfl⟩

theorem requireEscape (escape : Bool) :
    Tightens (escape = false) (requireEscape true escape) (requireEscape false escape) := by
  cases escape with
  | true => exact refl _
  | false => exact Or.inr ⟨rfl, rfl⟩

end Tightens

/-- A writer with the same marks, in safe mode or not. -/
def Writer.inMode (w : Writer) (safe : Bool) : Writer :=
  { w with safeMode := safe }

section Constructors

variable (w : Writer) (escape : Bool)

theorem Frame.tightens_build (f : Frame) (c : Content) :
    Tightens (escape = false) (f.build true c escape) (f.build false c escape) :=
  (Tightens.requireEscape escape).bind fun _ => Tightens.refl _

theorem Leaf.tightens_make (leaf : Leaf) :
    Tightens (escape = false) (leaf.make (w.inMode true) escape)
      (leaf.make (w.inMode false) escape) := by
  rw [Leaf.make_eq, Leaf.make_eq]
  exact (Tightens.refl _).bind fun _ => leaf.frame.tightens_build escape _

theorem Wrap.tightens_make (wrap : Wrap) (c : Content) :
    Tightens (escape = false) (wrap.make (w.inMode true) c escape)
      (wrap.make (w.inMode false) c escape) := by
  have hframe : ∀ safe, wrap.frame (w.inMode safe) = wrap.frame w := by
    intro safe
    cases wrap <;> rfl
  rw [Wrap.make_eq, Wrap.make_eq, hframe, hframe]
  exact (Tightens.refl _).bind fun _ => (wrap.frame w).tightens_build escape c

theorem ListStyle.tightens_make (style : ListStyle) (c : Content) :
    Tightens (escape = false) (style.make (w.inMode true) c escape)
      (style.make (w.inMode false) c escape) := by
  cases style with
  | bullets => exact (Tightens.requireEscape escape).bind fun _ => Tightens.refl _
  | numbers start =>
      exact (Tightens.refl _).bind fun _ =>
        (Tightens.requireEscape escape).bind fun _ => Tightens.refl _
  | boxes checks => exact (Tightens.requireEscape escape).bind fun _ => Tightens.refl _

theorem Writer.tightens_table (headers : List Content) (rows : List (List Content))
    (alignments : List Text) :
    Tightens (escape = false) ((w.inMode true).table headers rows alignments escape)
      ((w.inMode false).table headers rows alignments escape) :=
  (Tightens.requireEscape escape).bind fun _ => Tightens.refl _

end Constructors

/-! ## Expressions -/

section Evaluation

variable {w : Writer} {shelf : Shelf} {P : Prop}

/-- Safe mode tightens the evaluation of an expression. -/
def Expr.Tightens (P : Prop) (w : Writer) (shelf : Shelf) (e : Expr) : Prop :=
  Markdown.Tightens P (e.eval (w.inMode true) shelf) (e.eval (w.inMode false) shelf)

mutual

theorem Operand.tightens_eval : ∀ {o : Operand},
    (∀ e ∈ o.exprs, e.Tightens P w shelf) →
      Tightens P (o.eval (w.inMode true) shelf) (o.eval (w.inMode false) shelf)
  | .literal _, _ => Tightens.refl _
  | .node _, h => (h _ List.mem_cons_self).map Content.node
  | .sequence _, h => (tightens_evalOperands h).map Content.sequence

theorem tightens_evalOperands : ∀ {os : List Operand},
    (∀ e ∈ exprsOfAll os, e.Tightens P w shelf) →
      Tightens P (evalOperands (w.inMode true) shelf os)
        (evalOperands (w.inMode false) shelf os)
  | [], _ => Tightens.refl _
  | _ :: _, h => by
      obtain ⟨hfirst, hrest⟩ := List.forall_mem_append.mp h
      exact (Operand.tightens_eval hfirst).bind fun _ =>
        (tightens_evalOperands hrest).bind fun _ => Tightens.refl _

end

theorem tightens_evalRows {rows : List (List Operand)}
    (h : ∀ e ∈ exprsOfRows rows, e.Tightens P w shelf) :
    Tightens P (evalRows (w.inMode true) shelf rows)
      (evalRows (w.inMode false) shelf rows) := by
  induction rows with
  | nil => exact Tightens.refl _
  | cons row rows ih =>
      obtain ⟨hrow, hrows⟩ := List.forall_mem_append.mp h
      exact (tightens_evalOperands hrow).bind fun _ =>
        (ih hrows).bind fun _ => Tightens.refl _

theorem tightens_evalNodes {es : List Expr} (h : ∀ e ∈ es, e.Tightens P w shelf) :
    Tightens P (evalNodes (w.inMode true) shelf es)
      (evalNodes (w.inMode false) shelf es) := by
  induction es with
  | nil => exact Tightens.refl _
  | cons e es ih =>
      obtain ⟨hfirst, hrest⟩ := List.forall_mem_cons.mp h
      exact hfirst.bind fun _ => (ih hrest).bind fun _ => Tightens.refl _

/-- A constructor tightens if its children do, and refuses for its own demand
only. -/
theorem Expr.tightens_step {e : Expr} (hown : e.escape? = some false → P)
    (h : ∀ c ∈ e.children, c.Tightens P w shelf) : e.Tightens P w shelf := by
  have hdemand : ∀ {escape : Bool}, e.escape? = some escape → escape = false → P :=
    fun hescape hfalse => hown (hfalse ▸ hescape)
  cases e with
  | fixed node => cases node <;> exact Tightens.refl _
  | leaf leaf escape => exact (leaf.tightens_make w escape).mono (hdemand rfl)
  | wrap wrap content escape =>
      exact (Operand.tightens_eval h).bind fun c =>
        (wrap.tightens_make w escape c).mono (hdemand rfl)
  | list style items escape =>
      exact (Operand.tightens_eval h).bind fun c =>
        (style.tightens_make w escape c).mono (hdemand rfl)
  | table headers rows alignments escape =>
      obtain ⟨hheaders, hrows⟩ := List.forall_mem_append.mp h
      exact (tightens_evalOperands hheaders).bind fun header =>
        (tightens_evalRows hrows).bind fun body =>
          (w.tightens_table escape header body alignments).mono (hdemand rfl)
  | document children => exact (tightens_evalNodes h).bind fun _ => Tightens.refl _
  | stored name => exact Tightens.refl _

/-- **Safe mode changes an outcome to its refusal only**, and only if a demand
somewhere in the expression is not made. -/
theorem Expr.tightens_eval (w : Writer) (shelf : Shelf) (e : Expr) :
    e.Tightens (∃ p ∈ e.parts, p.escape? = some false) w shelf := by
  induction e using Expr.induction with
  | step e ih =>
    apply Expr.tightens_step
    · exact fun hown => ⟨e, Expr.mem_parts_iff.mpr (Or.inl rfl), hown⟩
    · intro c hc
      refine (ih c hc).mono ?_
      rintro ⟨p, hp, hescape⟩
      exact ⟨p, Expr.mem_parts_iff.mpr (Or.inr ⟨c, hc, hp⟩), hescape⟩

/-! ## What passes -/

def Expr.isStored : Expr → Bool
  | .stored _ => true
  | _ => false

theorem vouches_of_safeMode {e : Expr} {n : Node} (hsafe : w.safeMode = true)
    (h : Makes w shelf e n) (hown : e.isStored = false) : e.vouches shelf = true := by
  have hdemand : ∀ {escape : Bool}, escape = true ∨ w.safeMode = false → escape = true :=
    fun h => h.resolve_right (by simp [hsafe])
  cases e with
  | fixed node => rfl
  | leaf leaf escape =>
      obtain ⟨-, hescape, -⟩ := Leaf.make_eq_ok_iff.mp (makes_leaf_iff.mp h)
      exact hdemand hescape
  | wrap wrap content escape =>
      obtain ⟨c, -, hmake⟩ := makes_wrap_iff.mp h
      exact hdemand (Wrap.make_eq_ok_iff.mp hmake).2.1
  | list style items escape =>
      obtain ⟨c, -, hmake⟩ := makes_list_iff.mp h
      exact hdemand (ListStyle.make_eq_ok_iff.mp hmake).1
  | table headers rows alignments escape =>
      obtain ⟨header, -, body, -, hmake⟩ := makes_table_iff.mp h
      exact hdemand (table_eq_ok_iff.mp hmake).1
  | document children => rfl
  | stored name => exact absurd hown (by simp [Expr.isStored])

/-- **In safe mode a node has its flag from the stored nodes that it was made from.** -/
theorem escaped_eq_of_safeMode {e : Expr} {n : Node} (hsafe : w.safeMode = true)
    (h : Makes w shelf e n) :
    n.escaped = e.refs.all fun name => (shelf name).any (·.escaped) := by
  rw [Bool.eq_iff_iff, eval_escaped_iff_vouches h, List.all_eq_true]
  constructor
  · exact fun hvouches name hname => hvouches _ (Expr.mem_refs_iff.mp hname)
  · intro hrefs p hp
    cases hstored : p.isStored with
    | false =>
        obtain ⟨m, hm⟩ := exists_makes_of_mem_parts h hp
        exact vouches_of_safeMode hsafe hm hstored
    | true =>
        cases p with
        | stored name => exact hrefs name (Expr.mem_refs_iff.mpr hp)
        | _ => exact absurd hstored Bool.false_ne_true

theorem escaped_of_safeMode {e : Expr} {n : Node} (hsafe : w.safeMode = true)
    (hparts : ∀ p ∈ e.parts, p.isStored = false) (h : Makes w shelf e n) :
    n.escaped = true := by
  rw [escaped_eq_of_safeMode hsafe h, List.all_eq_true]
  intro name hname
  exact absurd (hparts _ (Expr.mem_refs_iff.mp hname)).symm Bool.false_ne_true

end Evaluation

/-- **Safe mode only removes what is not escaped.** With safe mode an expression
without stored nodes has the outcome that it has without, or is refused. It
makes exactly the nodes that count as escaped without safe mode, and it makes no
difference unless some demand for escaping is not made. -/
theorem eval_safeMode (w : Writer) (shelf : Shelf) {e : Expr}
    (he : ∀ p ∈ e.parts, p.isStored = false) :
    let safe := e.eval { w with safeMode := true } shelf
    let free := e.eval { w with safeMode := false } shelf
    (safe = free ∨ safe = .error .unescaped) ∧
      (∀ n, safe = .ok n ↔ free = .ok n ∧ n.escaped = true) ∧
      (safe ≠ free → ∃ p ∈ e.parts, p.escape? = some false) := by
  intro safe free
  have htightens : Tightens (∃ p ∈ e.parts, p.escape? = some false) safe free :=
    Expr.tightens_eval w shelf e
  refine ⟨htightens.imp_right And.right, fun n => ⟨?_, ?_⟩, ?_⟩
  · intro hsafe
    rcases htightens with heq | ⟨-, hrefused⟩
    · exact ⟨heq ▸ hsafe, escaped_of_safeMode rfl he hsafe⟩
    · exact absurd (hsafe.symm.trans hrefused) nofun
  · rintro ⟨hfree, hescaped⟩
    rcases htightens with heq | ⟨⟨p, hp, hescape⟩, -⟩
    · exact heq.trans hfree
    · have hvouches : p.vouches shelf = true := (eval_escaped_iff_vouches hfree).mp hescaped p hp
      exact absurd ((vouches_iff.mp hvouches).1 false hescape) Bool.false_ne_true
  · exact fun hne => (htightens.resolve_left hne).1

/-- Strong text without escaping in a sublist, before a heading. Safe mode refuses
the document at the strong text; the level of the heading would be refused either
way, but is not reached. -/
theorem eval_safeMode_sublist :
    let shelf : Shelf := fun _ => none
    let e (level : Int) : Expr := .document [
      .list (.numbers 7) (.sequence [.literal "a".toList,
        .sequence [.node (.wrap .bold (.literal "<b>".toList) false)]]) true,
      .wrap (.heading level) (.literal "c".toList) true]
    let n : Node := ⟨.document, "7. a\n  1. **<b>**\n## c".toList, false⟩
    (∀ p ∈ (e 2).parts, p.isStored = false) ∧ (∀ p ∈ (e 0).parts, p.isStored = false) ∧
      (e 2).eval { safeMode := false } shelf = .ok n ∧
      (e 0).eval { safeMode := false } shelf = .error (.headingLevel 0) ∧
      (∀ level ∈ [0, 2], (e level).eval { safeMode := true } shelf = .error .unescaped) ∧
      ((e 2).eval { safeMode := true } shelf = .ok n ↔
        (e 2).eval { safeMode := false } shelf = .ok n ∧ n.escaped = true) ∧
      ∃ p ∈ (e 0).parts, p.escape? = some false := by
  intro shelf e n
  have hparts : ∀ p ∈ (e 2).parts, p.isStored = false := by decide
  have hparts' : ∀ p ∈ (e 0).parts, p.isStored = false := by decide
  have hfree : (e 0).eval { safeMode := false } shelf = .error (.headingLevel 0) := rfl
  have hsafe : ∀ level ∈ [0, 2],
      (e level).eval { safeMode := true } shelf = .error .unescaped := by
    intro level hlevel
    rcases List.mem_pair.mp hlevel with rfl | rfl <;> rfl
  refine ⟨hparts, hparts', rfl, hfree, hsafe, (eval_safeMode {} shelf hparts).2.1 n, ?_⟩
  apply (eval_safeMode {} shelf hparts').2.2
  rw [show (e 0).eval { safeMode := true } shelf = _ from hsafe 0 (by decide), hfree]
  exact nofun

end Markdown
