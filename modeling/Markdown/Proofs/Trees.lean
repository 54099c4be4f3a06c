import Markdown.Expr.Eval
import Markdown.Proofs.Success

/-!
# Trees

An expression is a tree whose branches are the nodes handed over to it, at
whatever depth of its sequences, lists and rows they stand. `children` is this
view of an expression, `parts` lists all constructor applications of a tree,
and `fold` computes a value from the values of the children.

On the side of results, the nodes of a content are the results of the children
that it was made from (`Operand.eval_nodes`), so a statement about a whole tree
is proved from a constructor to its children (`Expr.induction`).
-/

namespace Markdown

def Item.node? : Item → Option Node
  | .literal _ => none
  | .node n => some n

mutual

/-- The items of a content at any depth, from left to right. -/
def Content.leaves : Content → List Item
  | .item i => [i]
  | .sequence elements => leavesOfAll elements

def leavesOfAll : List Content → List Item
  | [] => []
  | c :: rest => c.leaves ++ leavesOfAll rest

end

def Content.nodes (c : Content) : List Node :=
  c.leaves.filterMap Item.node?

theorem leavesOfAll_eq_flatMap (cs : List Content) :
    leavesOfAll cs = cs.flatMap Content.leaves := by
  induction cs with
  | nil => rfl
  | cons c cs ih => rw [leavesOfAll, ih, List.flatMap_cons]

theorem nodes_sequence (cs : List Content) :
    (Content.sequence cs).nodes = cs.flatMap Content.nodes := by
  rw [Content.nodes, Content.leaves, leavesOfAll_eq_flatMap, List.filterMap_flatMap]
  rfl

/-! ## The children of an expression -/

mutual

/-- The expressions in an operand at any depth, from left to right. -/
def Operand.exprs : Operand → List Expr
  | .literal _ => []
  | .node e => [e]
  | .sequence elements => exprsOfAll elements

def exprsOfAll : List Operand → List Expr
  | [] => []
  | o :: rest => o.exprs ++ exprsOfAll rest

end

def exprsOfRows : List (List Operand) → List Expr
  | [] => []
  | row :: rest => exprsOfAll row ++ exprsOfRows rest

/-- The expressions of the nodes that are handed over to a constructor. -/
def Expr.children : Expr → List Expr
  | .fixed _ => []
  | .leaf _ _ => []
  | .wrap _ content _ => content.exprs
  | .list _ items _ => items.exprs
  | .table headers rows _ _ => exprsOfAll headers ++ exprsOfRows rows
  | .document children => children
  | .stored _ => []

mutual

/-- What holds of an expression once it holds of its children holds of every
expression. -/
theorem Expr.induction {P : Expr → Prop}
    (step : ∀ e : Expr, (∀ c ∈ e.children, P c) → P e) : ∀ e : Expr, P e
  | .fixed _ => step _ nofun
  | .leaf _ _ => step _ nofun
  | .wrap _ content _ => step _ (forall_exprs step content)
  | .list _ items _ => step _ (forall_exprs step items)
  | .table headers rows _ _ => step _ (List.forall_mem_append.mpr
      ⟨forall_exprsOfAll step headers, forall_exprsOfRows step rows⟩)
  | .document children => step _ (forall_children step children)
  | .stored _ => step _ nofun

theorem forall_exprs {P : Expr → Prop}
    (step : ∀ e : Expr, (∀ c ∈ e.children, P c) → P e) :
    ∀ o : Operand, ∀ c ∈ o.exprs, P c
  | .literal _ => nofun
  | .node e => List.forall_mem_singleton.mpr (Expr.induction step e)
  | .sequence elements => forall_exprsOfAll step elements

theorem forall_exprsOfAll {P : Expr → Prop}
    (step : ∀ e : Expr, (∀ c ∈ e.children, P c) → P e) :
    ∀ os : List Operand, ∀ c ∈ exprsOfAll os, P c
  | [] => nofun
  | o :: rest => List.forall_mem_append.mpr
      ⟨forall_exprs step o, forall_exprsOfAll step rest⟩

theorem forall_exprsOfRows {P : Expr → Prop}
    (step : ∀ e : Expr, (∀ c ∈ e.children, P c) → P e) :
    ∀ rows : List (List Operand), ∀ c ∈ exprsOfRows rows, P c
  | [] => nofun
  | row :: rest => List.forall_mem_append.mpr
      ⟨forall_exprsOfAll step row, forall_exprsOfRows step rest⟩

theorem forall_children {P : Expr → Prop}
    (step : ∀ e : Expr, (∀ c ∈ e.children, P c) → P e) :
    ∀ es : List Expr, ∀ c ∈ es, P c
  | [] => nofun
  | e :: rest => List.forall_mem_cons.mpr
      ⟨Expr.induction step e, forall_children step rest⟩

end

mutual

/-- What holds of literals and nodes, and of a sequence once it holds of its elements,
holds of every operand. -/
theorem Operand.induction {P : Operand → Prop} (literal : ∀ t, P (.literal t))
    (node : ∀ e, P (.node e)) (sequence : ∀ os, (∀ o ∈ os, P o) → P (.sequence os)) :
    ∀ o : Operand, P o
  | .literal t => literal t
  | .node e => node e
  | .sequence os => sequence os (forall_operands literal node sequence os)

theorem forall_operands {P : Operand → Prop} (literal : ∀ t, P (.literal t))
    (node : ∀ e, P (.node e)) (sequence : ∀ os, (∀ o ∈ os, P o) → P (.sequence os)) :
    ∀ os : List Operand, ∀ o ∈ os, P o
  | [] => nofun
  | o :: rest => List.forall_mem_cons.mpr
      ⟨Operand.induction literal node sequence o,
        forall_operands literal node sequence rest⟩

end

theorem mem_exprsOfAll_iff {e : Expr} {os : List Operand} :
    e ∈ exprsOfAll os ↔ ∃ o ∈ os, e ∈ o.exprs := by
  induction os with
  | nil => simp [exprsOfAll]
  | cons o os ih => simp [exprsOfAll, ih]

theorem mem_exprsOfRows_iff {e : Expr} {rows : List (List Operand)} :
    e ∈ exprsOfRows rows ↔ ∃ row ∈ rows, e ∈ exprsOfAll row := by
  induction rows with
  | nil => simp [exprsOfRows]
  | cons row rows ih => simp [exprsOfRows, ih]

/-! ## Folds -/

mutual

/-- A value for an expression from the values of its children. -/
def Expr.fold {α : Type} (f : Expr → List α → α) : Expr → α
  | .fixed node => f (.fixed node) []
  | .leaf leaf escape => f (.leaf leaf escape) []
  | .wrap wrap content escape => f (.wrap wrap content escape) (content.fold f)
  | .list style items escape => f (.list style items escape) (items.fold f)
  | .table headers rows alignments escape =>
      f (.table headers rows alignments escape)
        (foldOperands f headers ++ foldRows f rows)
  | .document children => f (.document children) (foldExprs f children)
  | .stored name => f (.stored name) []

def Operand.fold {α : Type} (f : Expr → List α → α) : Operand → List α
  | .literal _ => []
  | .node e => [e.fold f]
  | .sequence elements => foldOperands f elements

def foldOperands {α : Type} (f : Expr → List α → α) : List Operand → List α
  | [] => []
  | o :: rest => o.fold f ++ foldOperands f rest

def foldRows {α : Type} (f : Expr → List α → α) : List (List Operand) → List α
  | [] => []
  | row :: rest => foldOperands f row ++ foldRows f rest

def foldExprs {α : Type} (f : Expr → List α → α) : List Expr → List α
  | [] => []
  | e :: rest => e.fold f :: foldExprs f rest

end

section Fold

variable {α : Type} (f : Expr → List α → α)

mutual

theorem Operand.fold_eq : ∀ o : Operand, o.fold f = o.exprs.map (·.fold f)
  | .literal _ => rfl
  | .node _ => rfl
  | .sequence elements => foldOperands_eq elements

theorem foldOperands_eq : ∀ os : List Operand,
    foldOperands f os = (exprsOfAll os).map (·.fold f)
  | [] => rfl
  | o :: rest => by
      rw [foldOperands, exprsOfAll, List.map_append, Operand.fold_eq o,
        foldOperands_eq rest]

end

theorem foldRows_eq (rows : List (List Operand)) :
    foldRows f rows = (exprsOfRows rows).map (·.fold f) := by
  induction rows with
  | nil => rfl
  | cons row rows ih =>
      rw [foldRows, exprsOfRows, List.map_append, foldOperands_eq, ih]

theorem foldExprs_eq (es : List Expr) : foldExprs f es = es.map (·.fold f) := by
  induction es with
  | nil => rfl
  | cons e es ih => rw [foldExprs, ih, List.map_cons]

theorem Expr.fold_eq (e : Expr) : e.fold f = f e (e.children.map (·.fold f)) := by
  cases e with
  | fixed node => rfl
  | leaf leaf escape => rfl
  | wrap wrap content escape => rw [fold, children, Operand.fold_eq]
  | list style items escape => rw [fold, children, Operand.fold_eq]
  | table headers rows alignments escape =>
      rw [fold, children, foldOperands_eq, foldRows_eq, List.map_append]
  | document es => rw [fold, children, foldExprs_eq]
  | stored name => rfl

end Fold

/-- The constructor applications in an expression, its own first. -/
def Expr.parts : Expr → List Expr :=
  fold fun e inner => e :: inner.flatten

theorem Expr.parts_eq (e : Expr) : e.parts = e :: e.children.flatMap parts := by
  rw [parts, fold_eq, ← List.flatMap_def]

theorem Expr.mem_parts_iff {p e : Expr} :
    p ∈ e.parts ↔ p = e ∨ ∃ c ∈ e.children, p ∈ c.parts := by
  rw [parts_eq, List.mem_cons, List.mem_flatMap]

theorem Expr.forall_parts_iff {P : Expr → Prop} {e : Expr} :
    (∀ p ∈ e.parts, P p) ↔ P e ∧ ∀ c ∈ e.children, ∀ p ∈ c.parts, P p := by
  rw [parts_eq, List.forall_mem_cons]
  refine and_congr_right fun _ => ?_
  constructor
  · exact fun h c hc p hp => h p (List.mem_flatMap.mpr ⟨c, hc, hp⟩)
  · intro h p hp
    obtain ⟨c, hc, hp⟩ := List.mem_flatMap.mp hp
    exact h c hc p hp

theorem Expr.exists_parts_iff {P : Expr → Prop} {e : Expr} :
    (∃ p ∈ e.parts, P p) ↔ P e ∨ ∃ c ∈ e.children, ∃ p ∈ c.parts, P p := by
  rw [parts_eq, List.exists_mem_cons_iff]
  refine or_congr_right ⟨?_, ?_⟩
  · rintro ⟨p, hp, hP⟩
    obtain ⟨c, hc, hp⟩ := List.mem_flatMap.mp hp
    exact ⟨c, hc, p, hp, hP⟩
  · rintro ⟨c, hc, p, hp, hP⟩
    exact ⟨p, List.mem_flatMap.mpr ⟨c, hc, hp⟩, hP⟩

/-! ## Evaluation, node by node -/

abbrev Makes (w : Writer) (shelf : Shelf) (e : Expr) (n : Node) : Prop :=
  e.eval w shelf = .ok n

section Evaluation

variable {w : Writer} {shelf : Shelf} {n : Node}

theorem makes_fixed_iff {node : Fixed} : Makes w shelf (.fixed node) n ↔ node.make w = n :=
  pure_eq_ok_iff

theorem makes_leaf_iff {leaf : Leaf} {escape : Bool} :
    Makes w shelf (.leaf leaf escape) n ↔ leaf.make w escape = .ok n :=
  Iff.rfl

theorem makes_wrap_iff {wrap : Wrap} {content : Operand} {escape : Bool} :
    Makes w shelf (.wrap wrap content escape) n ↔
      ∃ c, content.eval w shelf = .ok c ∧ wrap.make w c escape = .ok n :=
  bind_eq_ok_iff

theorem makes_list_iff {style : ListStyle} {items : Operand} {escape : Bool} :
    Makes w shelf (.list style items escape) n ↔
      ∃ c, items.eval w shelf = .ok c ∧ style.make w c escape = .ok n :=
  bind_eq_ok_iff

theorem makes_table_iff {headers : List Operand} {rows : List (List Operand)}
    {alignments : List Text} {escape : Bool} :
    Makes w shelf (.table headers rows alignments escape) n ↔
      ∃ header, evalOperands w shelf headers = .ok header ∧
        ∃ body, evalRows w shelf rows = .ok body ∧
          w.table header body alignments escape = .ok n := by
  simp only [Makes, Expr.eval, bind_eq_ok_iff]

theorem makes_document_iff {children : List Expr} :
    Makes w shelf (.document children) n ↔
      ∃ ns, evalNodes w shelf children = .ok ns ∧ Node.document ns = .ok n :=
  bind_eq_ok_iff

theorem makes_stored_iff {name : Text} :
    Makes w shelf (.stored name) n ↔ shelf name = some n := by
  rw [Makes, Expr.eval]
  cases shelf name with
  | none => simp
  | some m => simp

theorem evalOperands_eq_mapM (os : List Operand) :
    evalOperands w shelf os = os.mapM fun o => o.eval w shelf := by
  induction os with
  | nil => rfl
  | cons o os ih => rw [evalOperands, List.mapM_cons, ih]

theorem evalRows_eq_mapM (rows : List (List Operand)) :
    evalRows w shelf rows = rows.mapM fun row => evalOperands w shelf row := by
  induction rows with
  | nil => rfl
  | cons row rows ih => rw [evalRows, List.mapM_cons, ih]

theorem evalNodes_eq_mapM (es : List Expr) :
    evalNodes w shelf es = es.mapM fun e => e.eval w shelf := by
  induction es with
  | nil => rfl
  | cons e es ih => rw [evalNodes, List.mapM_cons, ih]

mutual

/-- **The nodes of a content are made from the expressions of its operand**, one
by one and in order. -/
theorem Operand.eval_nodes : ∀ {o : Operand} {c : Content},
    o.eval w shelf = .ok c → List.Forall₂ (Makes w shelf) o.exprs c.nodes
  | .literal t, c, h => by
      obtain rfl := Except.ok.inj h
      exact List.Forall₂.nil
  | .node e, c, h => by
      rw [Operand.eval, map_eq_ok_iff] at h
      obtain ⟨n, hn, rfl⟩ := h
      exact List.Forall₂.cons hn List.Forall₂.nil
  | .sequence elements, c, h => by
      rw [Operand.eval, map_eq_ok_iff] at h
      obtain ⟨cs, hcs, rfl⟩ := h
      rw [Operand.exprs, nodes_sequence]
      exact evalOperands_nodes hcs

theorem evalOperands_nodes : ∀ {os : List Operand} {cs : List Content},
    evalOperands w shelf os = .ok cs →
      List.Forall₂ (Makes w shelf) (exprsOfAll os) (cs.flatMap Content.nodes)
  | [], cs, h => by
      obtain rfl := Except.ok.inj h
      exact List.Forall₂.nil
  | o :: rest, cs, h => by
      simp only [evalOperands, bind_eq_ok_iff, pure_eq_ok_iff] at h
      obtain ⟨c, hc, cs', hcs, rfl⟩ := h
      rw [exprsOfAll, List.flatMap_cons]
      exact List.rel_append (Operand.eval_nodes hc) (evalOperands_nodes hcs)

end

theorem evalRows_nodes {rows : List (List Operand)} {css : List (List Content)}
    (h : evalRows w shelf rows = .ok css) :
    List.Forall₂ (Makes w shelf) (exprsOfRows rows)
      (css.flatMap (·.flatMap Content.nodes)) := by
  induction rows generalizing css with
  | nil =>
      obtain rfl := Except.ok.inj h
      exact List.Forall₂.nil
  | cons row rows ih =>
      simp only [evalRows, bind_eq_ok_iff, pure_eq_ok_iff] at h
      obtain ⟨cs, hcs, css', hcss, rfl⟩ := h
      rw [exprsOfRows, List.flatMap_cons]
      exact List.rel_append (evalOperands_nodes hcs) (ih hcss)

theorem evalNodes_nodes {es : List Expr} {ns : List Node}
    (h : evalNodes w shelf es = .ok ns) : List.Forall₂ (Makes w shelf) es ns := by
  induction es generalizing ns with
  | nil =>
      obtain rfl := Except.ok.inj h
      exact List.Forall₂.nil
  | cons e es ih =>
      simp only [evalNodes, bind_eq_ok_iff, pure_eq_ok_iff] at h
      obtain ⟨n, hn, ns', hns, rfl⟩ := h
      exact List.Forall₂.cons hn (ih hns)

end Evaluation

end Markdown
