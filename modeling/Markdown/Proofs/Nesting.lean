import Markdown.Proofs.Outcomes
import Markdown.Proofs.Outlines
import Markdown.Proofs.Tables

/-!
# Nesting, enforced

The rules of nesting hold in everything that is made, and a fault that speaks of
them points at a place where they do not. Content reaches a constructor on three
ways, into a frame, item by item into a list, and child by child into a document;
a table fills a slot for each cell. On each of them

- success means that the kinds of all nodes are accepted, and that no sequence
  stands in a sequence outside a list (`eval_step_placed`);
- a fault about nesting names the kind that is being made and what is wrong with
  the content that it was made from (`Slot.Blames`).

Both are about one constructor. Induction on the expression carries them to all
constructor applications in it.
-/

namespace Markdown

/-- The kind of the node that an expression describes, whether or not it can be
made. A name describes what is stored under it. -/
def Expr.kind? (shelf : Shelf) : Expr → Option Kind
  | .fixed node => some node.kind
  | .leaf literal _ => some literal.kind
  | .wrap around _ _ => some around.kind
  | .list style _ _ => some style.kind
  | .table .. => some .table
  | .document _ => some .document
  | .stored name => (shelf name).map (·.kind)

/-! ## Sequences in sequences -/

def Operand.isItem : Operand → Bool
  | .sequence _ => false
  | _ => true

/-- The elements of a sequence. Any other operand is its own only element. -/
def Operand.elements : Operand → List Operand
  | .sequence os => os
  | o => [o]

/-- No sequence stands inside the sequence of an operand. -/
def Operand.Flat (o : Operand) : Prop :=
  ∀ d ∈ o.elements, d.isItem = true

/-- The operands that become one body each: the content of a constructor around
content, and the cells of a table. A list gives a meaning to nested sequences, so its
items are not among them. -/
def Expr.bodies : Expr → List Operand
  | .wrap _ content _ => [content]
  | .table headers rows _ _ => headers ++ rows.flatten
  | _ => []

section

variable {w : Writer} {shelf : Shelf}

theorem isItem_eval {o : Operand} {c : Content} (h : o.eval w shelf = .ok c) :
    c.isItem = o.isItem := by
  cases o with
  | literal t =>
      obtain rfl := Except.ok.inj h
      rfl
  | node e =>
      obtain ⟨n, -, rfl⟩ := map_eq_ok_iff.mp h
      rfl
  | sequence os =>
      obtain ⟨cs, -, rfl⟩ := map_eq_ok_iff.mp h
      rfl

theorem evalOperands_eq_ok_iff {os : List Operand} {cs : List Content} :
    evalOperands w shelf os = .ok cs ↔
      List.Forall₂ (fun o c => o.eval w shelf = .ok c) os cs := by
  rw [evalOperands_eq_mapM]
  exact mapM_eq_ok_iff fun _ _ => Iff.rfl

theorem Operand.eval_elements {o : Operand} {c : Content} (h : o.eval w shelf = .ok c) :
    List.Forall₂ (fun d e => d.eval w shelf = .ok e) o.elements c.elements := by
  cases o with
  | literal t =>
      obtain rfl := Except.ok.inj h
      exact .cons rfl .nil
  | node e =>
      obtain ⟨n, -, rfl⟩ := map_eq_ok_iff.mp h
      exact .cons h .nil
  | sequence os =>
      obtain ⟨cs, hcs, rfl⟩ := map_eq_ok_iff.mp h
      exact evalOperands_eq_ok_iff.mp hcs

theorem flat_eval_iff {o : Operand} {c : Content} (h : o.eval w shelf = .ok c) :
    c.Flat ↔ o.Flat := by
  apply forall_mem_iff_of_forall₂
  exact (Operand.eval_elements h).imp fun d e he => by rw [isItem_eval he]

theorem Operand.eval_leaves {o : Operand} {c : Content} (h : o.eval w shelf = .ok c)
    (hflat : c.Flat) :
    List.Forall₂ (fun d i => d.eval w shelf = .ok (.item i)) o.elements c.leaves := by
  have helements := Operand.eval_elements h
  rwa [flat_iff.mp hflat, List.forall₂_map_right_iff] at helements

theorem flat_evalOperands_iff {os : List Operand} {cs : List Content}
    (h : evalOperands w shelf os = .ok cs) :
    (∀ c ∈ cs, c.Flat) ↔ ∀ o ∈ os, o.Flat := by
  apply forall_mem_iff_of_forall₂
  exact (evalOperands_eq_ok_iff.mp h).imp fun o c hc => flat_eval_iff hc

theorem flat_evalRows_iff {rows : List (List Operand)} {css : List (List Content)}
    (h : evalRows w shelf rows = .ok css) :
    (∀ c ∈ css.flatten, c.Flat) ↔ ∀ o ∈ rows.flatten, o.Flat := by
  induction rows generalizing css with
  | nil =>
      obtain rfl := Except.ok.inj h
      simp
  | cons row rows ih =>
      simp only [evalRows, bind_eq_ok_iff, pure_eq_ok_iff] at h
      obtain ⟨cs, hcs, css, hcss, rfl⟩ := h
      rw [List.flatten_cons, List.flatten_cons, List.forall_mem_append,
        List.forall_mem_append, flat_evalOperands_iff hcs, ih hcss]

end

/-! ## What succeeds -/

theorem Slot.admits_iff {slot : Slot} {c : Content} :
    (∀ i ∈ c.leaves, slot.Admits i) ↔ ∀ n ∈ c.nodes, n.kind ∈ slot.accepts := by
  constructor
  · intro h n hn
    obtain ⟨i, hi, hnode⟩ := List.mem_filterMap.mp hn
    cases i with
    | literal t => exact absurd hnode nofun
    | node m =>
        obtain rfl : m = n := Option.some.inj hnode
        exact h _ hi
  · intro h i hi
    cases i with
    | literal t => trivial
    | node n => exact h n (List.mem_filterMap.mpr ⟨_, hi, rfl⟩)

section Success

variable {w : Writer} {shelf : Shelf} {e : Expr} {n : Node}

theorem kind_of_makes (h : Makes w shelf e n) : e.kind? shelf = some n.kind := by
  cases e with
  | fixed node =>
      obtain rfl := makes_fixed_iff.mp h
      cases node <;> rfl
  | leaf leaf escape =>
      obtain ⟨-, -, rfl⟩ := Leaf.make_eq_ok_iff.mp (makes_leaf_iff.mp h)
      cases leaf <;> rfl
  | wrap wrap content escape =>
      obtain ⟨c, -, hmake⟩ := makes_wrap_iff.mp h
      obtain ⟨-, -, -, -, rfl⟩ := Wrap.make_eq_ok_iff.mp hmake
      cases wrap <;> rfl
  | list style items escape =>
      obtain ⟨c, -, hmake⟩ := makes_list_iff.mp h
      obtain ⟨-, -, -, rfl⟩ := ListStyle.make_eq_ok_iff.mp hmake
      rfl
  | table headers rows alignments escape =>
      obtain ⟨header, -, body, -, hmake⟩ := makes_table_iff.mp h
      obtain ⟨-, -, aligned, -, -, -, rfl⟩ := table_eq_ok_iff.mp hmake
      rfl
  | document children =>
      obtain ⟨ns, -, hmake⟩ := makes_document_iff.mp h
      obtain ⟨-, rfl⟩ := Node.document_eq_ok_iff.mp hmake
      rfl
  | stored name =>
      rw [Expr.kind?, makes_stored_iff.mp h]
      rfl

/-- **A constructor takes only what it accepts.** -/
theorem eval_step_placed (h : Makes w shelf e n) :
    ∃ ns, List.Forall₂ (Makes w shelf) e.children ns ∧
      (∀ m ∈ ns, m.kind ∈ n.kind.accepts) ∧ ∀ o ∈ e.bodies, o.Flat := by
  cases e with
  | fixed node => exact ⟨[], .nil, nofun, nofun⟩
  | leaf leaf escape => exact ⟨[], .nil, nofun, nofun⟩
  | wrap wrap content escape =>
      obtain ⟨c, hc, hmake⟩ := makes_wrap_iff.mp h
      obtain ⟨-, -, hflat, hadmits, rfl⟩ := Wrap.make_eq_ok_iff.mp hmake
      refine ⟨c.nodes, Operand.eval_nodes hc, ?_, ?_⟩
      · intro m hm
        rw [Wrap.owner_frame, ← wrap.accepts_frame w]
        exact Slot.admits_iff.mp hadmits m hm
      · exact List.forall_mem_singleton.mpr ((flat_eval_iff hc).mp hflat)
  | list style items escape =>
      obtain ⟨c, hc, hmake⟩ := makes_list_iff.mp h
      obtain ⟨-, -, hadmits, rfl⟩ := ListStyle.make_eq_ok_iff.mp hmake
      exact ⟨c.nodes, Operand.eval_nodes hc, Slot.admits_iff.mp hadmits, nofun⟩
  | table headers rows alignments escape =>
      obtain ⟨header, hheader, body, hbody, hmake⟩ := makes_table_iff.mp h
      obtain ⟨-, -, aligned, -, -, hfits, rfl⟩ := table_eq_ok_iff.mp hmake
      obtain ⟨hheaderfits, hbodyfits⟩ := List.forall_mem_cons.mp hfits
      refine ⟨tableNodes header body,
        List.rel_append (evalOperands_nodes hheader) (evalRows_nodes hbody), ?_, ?_⟩
      · intro m hm
        rcases List.mem_append.mp hm with hm | hm
        · obtain ⟨c, hc, hm⟩ := List.mem_flatMap.mp hm
          exact Slot.admits_iff.mp (hheaderfits c hc).admits m hm
        · obtain ⟨row, hrow, hm⟩ := List.mem_flatMap.mp hm
          obtain ⟨c, hc, hm⟩ := List.mem_flatMap.mp hm
          exact Slot.admits_iff.mp (hbodyfits row hrow c hc).admits m hm
      · rw [Expr.bodies, List.forall_mem_append]
        constructor
        · exact (flat_evalOperands_iff hheader).mp fun c hc => (hheaderfits c hc).flat
        · apply (flat_evalRows_iff hbody).mp
          intro c hc
          obtain ⟨row, hrow, hc⟩ := List.mem_flatten.mp hc
          exact (hbodyfits row hrow c hc).flat
  | document children =>
      obtain ⟨ns, hns, hmake⟩ := makes_document_iff.mp h
      obtain ⟨haccepts, rfl⟩ := Node.document_eq_ok_iff.mp hmake
      exact ⟨ns, evalNodes_nodes hns, haccepts, nofun⟩
  | stored name => exact ⟨[], .nil, nofun, nofun⟩

/-- A constructor application was given only nodes that it accepts, and no sequence
in a sequence unless it is a list. -/
def Expr.Placed (w : Writer) (shelf : Shelf) (p : Expr) : Prop :=
  (∀ c ∈ p.children, ∃ m parent, c.eval w shelf = .ok m ∧
    p.kind? shelf = some parent ∧ m.kind ∈ parent.accepts) ∧
  ∀ o ∈ p.bodies, o.Flat

theorem Expr.placed_of_makes (h : Makes w shelf e n) :
    ∀ p ∈ e.parts, p.Placed w shelf := by
  induction e using Expr.induction generalizing n with
  | step e ih =>
    obtain ⟨ns, hns, haccepts, hflat⟩ := eval_step_placed h
    have hmade : ∀ c ∈ e.children, ∃ m ∈ ns, Makes w shelf c m := fun c hc =>
      exists_mem_of_forall₂ hns.flip hc
    refine Expr.forall_parts_iff.mpr ⟨?_, ?_⟩
    · refine ⟨fun c hc => ?_, hflat⟩
      obtain ⟨m, hm, hmakes⟩ := hmade c hc
      exact ⟨m, n.kind, hmakes, kind_of_makes h, haccepts m hm⟩
    · intro c hc
      obtain ⟨m, -, hmakes⟩ := hmade c hc
      exact ih c hc hmakes

end Success

/-! ## What fails -/

/-- A fault about nesting names what a slot was given: a node of a kind that it does
not accept, or a sequence in a sequence. Any other fault is about something else. -/
def Slot.Blames (slot : Slot) (nodes : List Node) (nested : Prop) : Fault → Prop
  | .nesting parent child =>
      parent = slot.owner ∧ child ∉ slot.accepts ∧ ∃ n ∈ nodes, n.kind = child
  | .nestedSequence parent => parent = slot.owner ∧ nested
  | _ => True

namespace Slot

variable {slot : Slot} {escape : Bool} {nodes nodes' : List Node} {nested nested' : Prop}

theorem Blames.mono (hnodes : nodes ⊆ nodes') (hnested : nested → nested') (f : Fault)
    (h : slot.Blames nodes nested f) : slot.Blames nodes' nested' f := by
  cases f with
  | nesting parent child =>
      obtain ⟨hparent, hchild, n, hn, hkind⟩ := h
      exact ⟨hparent, hchild, n, hnodes hn, hkind⟩
  | nestedSequence parent => exact ⟨h.1, hnested h.2⟩
  | _ => trivial

theorem failsOnly_allow (n : Node) (hn : n ∈ nodes) :
    FailsOnly (slot.Blames nodes nested) (slot.allow n.kind) :=
  FailsOnly.require fun hkind => ⟨rfl, hkind, n, hn, rfl⟩

theorem failsOnly_item (i : Item) (h : ∀ n, i = .node n → n ∈ nodes) :
    FailsOnly (slot.Blames nodes nested) (slot.item escape i) := by
  cases i with
  | literal t => exact FailsOnly.ok _
  | node n => exact (failsOnly_allow n (h n rfl)).bind fun _ _ => FailsOnly.ok _

theorem failsOnly_items (c : Content) :
    FailsOnly (slot.Blames nodes (¬c.Flat)) (c.items slot.owner) := by
  apply FailsOnly.mapM
  intro d hd
  cases d with
  | item i => exact FailsOnly.ok i
  | sequence es =>
      apply FailsOnly.error
      exact ⟨rfl, fun hflat => absurd (hflat _ hd) Bool.false_ne_true⟩

theorem failsOnly_fill (c : Content) :
    FailsOnly (slot.Blames c.nodes (¬c.Flat)) (slot.fill escape c) := by
  apply (failsOnly_items c).bind
  intro is his
  obtain ⟨-, rfl⟩ := items_eq_ok_iff.mp his
  refine FailsOnly.bind ?_ fun _ _ => FailsOnly.ok _
  apply FailsOnly.mapM
  intro i hi
  apply failsOnly_item
  rintro n rfl
  exact List.mem_filterMap.mpr ⟨_, hi, rfl⟩

end Slot

section Constructors

variable {w : Writer} {escape : Bool}

theorem Frame.failsOnly_build (f : Frame) (safe : Bool) (c : Content) :
    FailsOnly (f.Blames c.nodes (¬c.Flat)) (f.build safe c escape) :=
  (FailsOnly.require fun _ => trivial).bind fun _ _ =>
    (Slot.failsOnly_fill c).bind fun _ _ => FailsOnly.ok _

theorem Leaf.failsOnly_make (leaf : Leaf) :
    FailsOnly (leaf.frame.Blames [] False) (leaf.make w escape) := by
  intro f hf
  rcases Leaf.make_eq_error_iff.mp hf with hcheck | ⟨-, -, rfl⟩
  · cases leaf with
    | codeBlock t language =>
        obtain ⟨-, rfl⟩ := require_eq_error_iff.mp hcheck
        trivial
    | _ => exact absurd hcheck nofun
  · trivial

theorem Wrap.failsOnly_make (wrap : Wrap) (c : Content) :
    FailsOnly ((wrap.frame w).Blames c.nodes (¬c.Flat)) (wrap.make w c escape) := by
  have hcheck : FailsOnly ((wrap.frame w).Blames c.nodes (¬c.Flat)) wrap.check := by
    cases wrap with
    | heading level => exact FailsOnly.require fun _ => trivial
    | _ => exact FailsOnly.ok ()
  rw [Wrap.make_eq]
  exact hcheck.bind fun _ _ => (wrap.frame w).failsOnly_build w.safeMode c

theorem failsOnly_writeList (kind : Kind) (m : Marking) (items : List Content) :
    FailsOnly ((listSlot kind).Blames (items.flatMap Content.nodes) False)
      (writeList kind m items escape) := by
  rw [writeList, ← listSlot, levelPieces_eq_mapM]
  refine FailsOnly.bind ?_ fun _ _ => FailsOnly.ok _
  apply FailsOnly.mapM
  intro e he
  refine FailsOnly.bind ?_ fun _ _ => FailsOnly.ok _
  apply Slot.failsOnly_item
  intro n hn
  have hitem : Item.node n ∈ leavesOfAll items := by
    rw [← map_item_outlineLevel items 0 m, ← hn]
    exact List.mem_map_of_mem he
  rw [← nodes_sequence]
  exact List.mem_filterMap.mpr ⟨_, hitem, rfl⟩

theorem ListStyle.failsOnly_make (style : ListStyle) (c : Content) :
    FailsOnly ((listSlot style.kind).Blames c.nodes False) (style.make w c escape) := by
  have hwrite : ∀ kind m, FailsOnly ((listSlot kind).Blames c.nodes False)
      (writeList kind m c.elements escape) := by
    intro kind m
    rw [← flatMap_nodes_elements c]
    exact failsOnly_writeList kind m c.elements
  cases style with
  | bullets => exact (FailsOnly.require fun _ => trivial).bind fun _ _ => hwrite _ _
  | numbers start =>
      exact (FailsOnly.require fun _ => trivial).bind fun _ _ =>
        (FailsOnly.require fun _ => trivial).bind fun _ _ =>
          (FailsOnly.require fun _ => trivial).bind fun _ _ => hwrite _ _
  | boxes checks =>
      refine FailsOnly.bind (FailsOnly.require fun _ => trivial) fun _ _ => ?_
      cases checks with
      | none => exact hwrite _ _
      | some flags => exact (FailsOnly.require fun _ => trivial).bind fun _ _ => hwrite _ _

theorem failsOnly_cellPiece (row : Option Nat) (column : Nat) (c : Content) :
    FailsOnly (cellSlot.Blames c.nodes (¬c.Flat)) (cellPiece escape row column c) :=
  (Slot.failsOnly_fill c).bind fun _ _ =>
    (FailsOnly.require fun _ => trivial).bind fun _ _ => FailsOnly.ok _

theorem failsOnly_rowPiece (row : Option Nat) (cells : List Content) :
    FailsOnly (cellSlot.Blames (cells.flatMap Content.nodes) (¬∀ c ∈ cells, c.Flat))
      (rowPiece escape row cells) := by
  refine FailsOnly.bind ?_ fun _ _ => FailsOnly.ok _
  apply FailsOnly.mapM
  rintro ⟨c, column⟩ hx
  have hc : c ∈ cells := forall_mem_zipIdx.mpr (fun _ h => h) _ hx
  refine FailsOnly.mono (Slot.Blames.mono ?_ ?_) (failsOnly_cellPiece row column c)
  · exact fun n hn => List.mem_flatMap.mpr ⟨c, hc, hn⟩
  · exact fun hnested hall => hnested (hall c hc)

theorem failsOnly_alignmentCells {P : Fault → Prop} (hcount : ∀ m n, P (.alignmentCount m n))
    (hword : ∀ word, P (.alignment word)) (columns : Nat) (words : List Text) :
    FailsOnly P (alignmentCells columns words) := by
  rw [alignmentCells]
  split
  · exact FailsOnly.ok _
  · refine FailsOnly.bind (FailsOnly.require fun _ => hcount _ _) fun _ _ => ?_
    apply FailsOnly.mapM
    intro word _
    apply FailsOnly.map
    fun_cases Alignment.parse word with
    | case4 => exact FailsOnly.error (hword word)
    | _ => exact FailsOnly.ok _

theorem failsOnly_requireWidth {P : Fault → Prop} (hwidth : ∀ row m n, P (.rowWidth row m n))
    (columns : Nat) (rows : List (List Content)) :
    FailsOnly P (requireWidth columns rows) := by
  rw [requireWidth]
  split
  · exact FailsOnly.error (hwidth _ _ _)
  · exact FailsOnly.ok ()

theorem Writer.failsOnly_table (headers : List Content) (rows : List (List Content))
    (alignments : List Text) :
    FailsOnly
      (cellSlot.Blames (tableNodes headers rows) (¬∀ c ∈ headers ++ rows.flatten, c.Flat))
      (w.table headers rows alignments escape) := by
  refine FailsOnly.bind (FailsOnly.require fun _ => trivial) fun _ _ => ?_
  refine FailsOnly.bind (FailsOnly.require fun _ => trivial) fun _ _ => ?_
  refine FailsOnly.bind (failsOnly_alignmentCells (fun _ _ => trivial) (fun _ => trivial) _ _)
    fun _ _ => ?_
  refine FailsOnly.bind (failsOnly_requireWidth (fun _ _ _ => trivial) _ _) fun _ _ => ?_
  refine FailsOnly.bind ?header fun _ _ => FailsOnly.bind ?body fun _ _ => FailsOnly.ok _
  case header =>
    refine FailsOnly.mono (Slot.Blames.mono ?_ ?_) (failsOnly_rowPiece none headers)
    · exact List.subset_append_left _ _
    · exact fun hnested hall => hnested fun c hc => hall c (List.mem_append_left _ hc)
  case body =>
    apply FailsOnly.mapM
    rintro ⟨cells, row⟩ hx
    have hcells : cells ∈ rows := forall_mem_zipIdx.mpr (fun _ h => h) _ hx
    refine FailsOnly.mono (Slot.Blames.mono ?_ ?_) (failsOnly_rowPiece (some row) cells)
    · exact fun n hn => List.mem_append_right _ (List.mem_flatMap.mpr ⟨cells, hcells, hn⟩)
    · intro hnested hall
      apply hnested
      intro c hc
      exact hall c (List.mem_append_right _ (List.mem_flatten.mpr ⟨cells, hcells, hc⟩))

theorem Node.failsOnly_document (ns : List Node) :
    FailsOnly (Slot.Blames { owner := .document } ns False) (Node.document ns) := by
  refine FailsOnly.bind ?_ fun _ _ => FailsOnly.ok _
  apply FailsOnly.mapM
  intro n hn
  exact (Slot.failsOnly_allow n hn).bind fun _ _ => FailsOnly.ok _

end Constructors

/-! ## Expressions -/

section Evaluation

variable {w : Writer} {shelf : Shelf}

/-- A fault about nesting points at a constructor application in an expression, and
at what was handed over to it: a node that it made, of a kind that the application
does not accept, or a sequence in a sequence. -/
def Expr.Accounts (w : Writer) (shelf : Shelf) (e : Expr) : Fault → Prop
  | .nesting parent child =>
      ∃ p ∈ e.parts, p.kind? shelf = some parent ∧ child ∉ parent.accepts ∧
        ∃ c ∈ p.children, ∃ n, c.eval w shelf = .ok n ∧ n.kind = child
  | .nestedSequence parent =>
      ∃ p ∈ e.parts, p.kind? shelf = some parent ∧ ∃ o ∈ p.bodies, ¬o.Flat
  | _ => True

theorem Expr.Accounts.of_child {e c : Expr} (hc : c ∈ e.children) {f : Fault}
    (h : c.Accounts w shelf f) : e.Accounts w shelf f := by
  have hparts : ∀ p ∈ c.parts, p ∈ e.parts := fun p hp =>
    Expr.mem_parts_iff.mpr (Or.inr ⟨c, hc, hp⟩)
  cases f with
  | nesting parent child =>
      obtain ⟨p, hp, hrest⟩ := h
      exact ⟨p, hparts p hp, hrest⟩
  | nestedSequence parent =>
      obtain ⟨p, hp, hrest⟩ := h
      exact ⟨p, hparts p hp, hrest⟩
  | _ => trivial

/-- What a slot blames on its content, the expression that is being made accounts
for. -/
theorem Expr.Accounts.of_blames {e : Expr} {slot : Slot} {ns : List Node} {nested : Prop}
    (hkind : e.kind? shelf = some slot.owner) (haccepts : slot.accepts = slot.owner.accepts)
    (hns : List.Forall₂ (Makes w shelf) e.children ns)
    (hnested : nested → ∃ o ∈ e.bodies, ¬o.Flat) (f : Fault) (h : slot.Blames ns nested f) :
    e.Accounts w shelf f := by
  have hself : e ∈ e.parts := Expr.mem_parts_iff.mpr (Or.inl rfl)
  cases f with
  | nesting parent child =>
      obtain ⟨rfl, hchild, n, hn, rfl⟩ := h
      rw [haccepts] at hchild
      obtain ⟨c, hc, hmakes⟩ := exists_mem_of_forall₂ hns hn
      exact ⟨e, hself, hkind, hchild, c, hc, n, hmakes, rfl⟩
  | nestedSequence parent =>
      obtain ⟨rfl, hn⟩ := h
      exact ⟨e, hself, hkind, hnested hn⟩
  | _ => trivial

section Children

variable {P : Fault → Prop}

theorem Operand.failsOnly_eval {o : Operand}
    (h : ∀ e ∈ o.exprs, FailsOnly P (e.eval w shelf)) : FailsOnly P (o.eval w shelf) := by
  induction o using Operand.induction with
  | literal t => exact FailsOnly.ok _
  | node e => exact (h e List.mem_cons_self).map Content.node
  | sequence os ih =>
      rw [Operand.eval, evalOperands_eq_mapM]
      refine FailsOnly.map _ (FailsOnly.mapM fun o ho => ih o ho fun e he => ?_)
      exact h e (mem_exprsOfAll_iff.mpr ⟨o, ho, he⟩)

theorem failsOnly_evalOperands {os : List Operand}
    (h : ∀ e ∈ exprsOfAll os, FailsOnly P (e.eval w shelf)) :
    FailsOnly P (evalOperands w shelf os) := by
  rw [evalOperands_eq_mapM]
  refine FailsOnly.mapM fun o ho => Operand.failsOnly_eval fun e he => ?_
  exact h e (mem_exprsOfAll_iff.mpr ⟨o, ho, he⟩)

theorem failsOnly_evalRows {rows : List (List Operand)}
    (h : ∀ e ∈ exprsOfRows rows, FailsOnly P (e.eval w shelf)) :
    FailsOnly P (evalRows w shelf rows) := by
  rw [evalRows_eq_mapM]
  refine FailsOnly.mapM fun row hrow => failsOnly_evalOperands fun e he => ?_
  exact h e (mem_exprsOfRows_iff.mpr ⟨row, hrow, he⟩)

theorem failsOnly_evalNodes {es : List Expr}
    (h : ∀ e ∈ es, FailsOnly P (e.eval w shelf)) : FailsOnly P (evalNodes w shelf es) := by
  rw [evalNodes_eq_mapM]
  exact FailsOnly.mapM h

end Children

theorem Expr.failsOnly_step {e : Expr}
    (h : ∀ c ∈ e.children, FailsOnly (e.Accounts w shelf) (c.eval w shelf)) :
    FailsOnly (e.Accounts w shelf) (e.eval w shelf) := by
  cases e with
  | fixed node => exact FailsOnly.ok _
  | leaf literal escape =>
      refine FailsOnly.mono (Expr.Accounts.of_blames ?_ ?_ .nil nofun)
        (literal.failsOnly_make (w := w))
      · cases literal <;> rfl
      · cases literal <;> rfl
  | wrap around content escape =>
      refine (Operand.failsOnly_eval h).bind fun c hc => ?_
      refine FailsOnly.mono (Expr.Accounts.of_blames ?_ ?_ (Operand.eval_nodes hc) ?_)
        (around.failsOnly_make c)
      · rw [Wrap.owner_frame, Expr.kind?]
      · rw [Wrap.owner_frame, Wrap.accepts_frame]
      · intro hnested
        exact ⟨content, List.mem_singleton_self _, mt (flat_eval_iff hc).mpr hnested⟩
  | list style items escape =>
      refine (Operand.failsOnly_eval h).bind fun c hc => ?_
      exact FailsOnly.mono (Expr.Accounts.of_blames rfl rfl (Operand.eval_nodes hc) nofun)
        (style.failsOnly_make c)
  | table headers rows alignments escape =>
      obtain ⟨hheaders, hrows⟩ := List.forall_mem_append.mp h
      refine (failsOnly_evalOperands hheaders).bind fun header hheader => ?_
      refine (failsOnly_evalRows hrows).bind fun body hbody => ?_
      have hmakes : List.Forall₂ (Makes w shelf) (exprsOfAll headers ++ exprsOfRows rows)
          (tableNodes header body) :=
        List.rel_append (evalOperands_nodes hheader) (evalRows_nodes hbody)
      refine FailsOnly.mono (Expr.Accounts.of_blames rfl rfl hmakes ?_)
        (w.failsOnly_table header body alignments)
      intro hnested
      have hflat : ¬∀ o ∈ headers ++ rows.flatten, o.Flat := by
        rwa [List.forall_mem_append, ← flat_evalOperands_iff hheader,
          ← flat_evalRows_iff hbody, ← List.forall_mem_append]
      simpa only [Expr.bodies, not_forall, exists_prop] using hflat
  | document children =>
      refine (failsOnly_evalNodes h).bind fun ns hns => ?_
      exact FailsOnly.mono (Expr.Accounts.of_blames rfl rfl (evalNodes_nodes hns) nofun)
        (Node.failsOnly_document ns)
  | stored name =>
      rw [Expr.eval]
      split
      · exact FailsOnly.ok _
      · exact FailsOnly.error trivial

/-- **A fault about nesting has its cause in the expression.** -/
theorem Expr.failsOnly_eval (w : Writer) (shelf : Shelf) (e : Expr) :
    FailsOnly (e.Accounts w shelf) (e.eval w shelf) := by
  induction e using Expr.induction with
  | step e ih =>
    apply Expr.failsOnly_step
    intro c hc
    exact (ih c hc).mono fun f hf => hf.of_child hc

end Evaluation

/-- **The rules of nesting hold in what is made, and only they are enforced.** If an
expression can be made, each constructor in it accepts the kind of each node that it
is given, at any depth of its operands, and no sequence stands in a sequence unless
both are items of a list. A fault that names a parent and a child is about a
constructor of the one kind that was given a node of the other and does not accept
it. A fault of shape is about a sequence in a sequence outside a list. -/
theorem eval_placed (w : Writer) (shelf : Shelf) (e : Expr) :
    (∀ n, e.eval w shelf = .ok n → ∀ p ∈ e.parts,
      (∀ c ∈ p.children, ∃ m parent, c.eval w shelf = .ok m ∧
        p.kind? shelf = some parent ∧ m.kind ∈ parent.accepts) ∧
      ∀ o ∈ p.bodies, o.Flat) ∧
    (∀ parent child, e.eval w shelf = .error (.nesting parent child) →
      ∃ p ∈ e.parts, p.kind? shelf = some parent ∧ child ∉ parent.accepts ∧
        ∃ c ∈ p.children, ∃ m, c.eval w shelf = .ok m ∧ m.kind = child) ∧
    (∀ f, e.eval w shelf = .error f → f.family = .shape →
      ∃ p ∈ e.parts, ∃ o ∈ p.bodies, ¬o.Flat) := by
  refine ⟨?_, ?_, ?_⟩
  · exact fun n hn => Expr.placed_of_makes hn
  · exact fun parent child h => Expr.failsOnly_eval w shelf e _ h
  · intro f h hshape
    cases f with
    | nestedSequence parent =>
        obtain ⟨p, hp, -, hnested⟩ := Expr.failsOnly_eval w shelf e _ h
        exact ⟨p, hp, hnested⟩
    | _ => exact absurd hshape nofun

/-- A sublist is made around strong text. In a heading the same sequence is refused
for its shape, and a link within the link of a cell for its kind. -/
theorem eval_placed_link :
    let shelf : Shelf := fun _ => none
    let sublist : Operand := .sequence [.literal "a".toList,
      .sequence [.node (.wrap .bold (.literal "b".toList) true)]]
    let link (c : Operand) : Operand := .node (.wrap (.link "u".toList) c true)
    let list : Expr := .list .bullets sublist true
    let heading : Expr := .document [list, .wrap (.heading 1) sublist true]
    let table : Expr := .table [.literal "h".toList]
      [[.sequence [.literal "c".toList, link (link (.literal "d".toList))]]] [] true
    (∀ p ∈ list.parts,
      (∀ c ∈ p.children, ∃ m parent, c.eval {} shelf = .ok m ∧
        p.kind? shelf = some parent ∧ m.kind ∈ parent.accepts) ∧
      ∀ o ∈ p.bodies, o.Flat) ∧
    (∃ p ∈ table.parts, p.kind? shelf = some .link ∧ .link ∉ Kind.link.accepts ∧
      ∃ c ∈ p.children, ∃ m, c.eval {} shelf = .ok m ∧ m.kind = .link) ∧
    ∃ p ∈ heading.parts, ∃ o ∈ p.bodies, ¬o.Flat := by
  intro shelf sublist link list heading table
  have hlist : list.eval {} shelf = .ok ⟨.bulletList, "- a\n  - **b**\n\n".toList, true⟩ := rfl
  have htable : table.eval {} shelf = .error (.nesting .link .link) := rfl
  have hheading : heading.eval {} shelf = .error (.nestedSequence .heading) := rfl
  exact ⟨(eval_placed {} shelf list).1 _ hlist, (eval_placed {} shelf table).2.1 _ _ htable,
    (eval_placed {} shelf heading).2.2 _ hheading rfl⟩

end Markdown
