import Markdown.Proofs.Blur
import Markdown.Proofs.Outcomes
import Markdown.Proofs.Outlines
import Markdown.Proofs.Tables

/-!
# The choice of marks

Two writers with the same safe mode and different marks accept the same content,
and make nodes that differ in their marks only. The proof runs an expression with
both. Outcomes agree if they are the same fault or related results (`Agree`), and
results are related if blurring the marks makes them equal.

Rules are not alike when blurred, as some have spaces in them, so a horizontal rule
and a document are related in their texts only if both writers use the same rule
(`Node.Alike`). No other node holds a rule, since only a document accepts one and
nothing accepts a document (`unruled_of_accepts`).
-/

namespace Markdown

def Kind.ruled : Kind → Bool
  | .horizontalRule | .document => true
  | _ => false

/-- Two nodes that differ in marks only, and in rules unless `rules` forbids it. -/
structure Node.Alike (rules : Prop) (m n : Node) : Prop where
  kind : m.kind = n.kind
  escaped : m.escaped = n.escaped
  text : (m.kind.ruled = true → rules) → m.text.blur = n.text.blur

inductive Item.Alike (rules : Prop) : Item → Item → Prop
  | literal (t : Text) : Alike rules (.literal t) (.literal t)
  | node {m n : Node} (h : m.Alike rules n) : Alike rules (.node m) (.node n)

inductive Content.Alike (rules : Prop) : Content → Content → Prop
  | item {i j : Item} (h : i.Alike rules j) : Alike rules (.item i) (.item j)
  | sequence {cs ds : List Content} (h : List.Forall₂ (Alike rules) cs ds) :
      Alike rules (.sequence cs) (.sequence ds)

/-- Two pieces that differ in marks only. Their texts may differ in more if they are
not `shown`. -/
structure Piece.Alike (shown : Prop) (p q : Piece) : Prop where
  escaped : p.escaped = q.escaped
  text : shown → p.text.blur = q.text.blur

inductive Marking.Alike : Marking → Marking → Prop
  | bullets {s t : Text} (h : s.blur = t.blur) : Alike (.bullets s) (.bullets t)
  | numbers (next : Nat) : Alike (.numbers next) (.numbers next)
  | boxes {s t : Text} (h : s.blur = t.blur) (checks : List Bool) :
      Alike (.boxes s checks) (.boxes t checks)

structure Entry.Alike (rules : Prop) (d e : Entry) : Prop where
  depth : d.depth = e.depth
  marker : d.marker.blur = e.marker.blur
  item : d.item.Alike rules e.item

/-- Two writers with the same safe mode whose marks are alike. Nothing is said of
their rules. -/
structure Writer.Alike (v w : Writer) : Prop where
  strong : v.strong.blur = w.strong.blur
  emphasis : v.emphasis.blur = w.emphasis.blur
  bullet : v.bullet.blur = w.bullet.blur
  safeMode : v.safeMode = w.safeMode

theorem Writer.Valid.alike {v w : Writer} (hv : v.Valid) (hw : w.Valid)
    (hmode : v.safeMode = w.safeMode) : v.Alike w := by
  have hstrong : ∀ m ∈ strongMarks, m.blur = "**".toList := by decide
  have hemphasis : ∀ m ∈ emphasisMarks, m.blur = "*".toList := by decide
  have hbullet : ∀ m ∈ bulletMarks, m.blur = "*".toList := by decide
  obtain ⟨hv₁, hv₂, hv₃, -⟩ := hv
  obtain ⟨hw₁, hw₂, hw₃, -⟩ := hw
  exact ⟨(hstrong _ hv₁).trans (hstrong _ hw₁).symm,
    (hemphasis _ hv₂).trans (hemphasis _ hw₂).symm,
    (hbullet _ hv₃).trans (hbullet _ hw₃).symm, hmode⟩

/-- Only a document accepts nodes that show rules. -/
theorem unruled_of_accepts {parent child : Kind} (hparent : parent ≠ .document)
    (h : child ∈ parent.accepts) : child.ruled = false := by
  cases child with
  | horizontalRule =>
      cases parent <;> first | exact absurd rfl hparent | exact absurd h (by decide)
  | document =>
      cases parent <;> first | exact absurd rfl hparent | exact absurd h (by decide)
  | _ => rfl

section Pieces

variable {rules shown : Prop} {escape : Bool}

theorem Node.Alike.refl (n : Node) : n.Alike rules n :=
  ⟨rfl, rfl, fun _ => rfl⟩

theorem Piece.Alike.refl (p : Piece) : p.Alike shown p :=
  ⟨rfl, fun _ => rfl⟩

theorem Piece.alike_join {ps qs : List Piece} (h : List.Forall₂ (Piece.Alike shown) ps qs)
    (separator : Text) : (Piece.join separator ps).Alike shown (Piece.join separator qs) := by
  constructor
  · exact all_eq_of_forall₂ (h.imp fun _ _ hpq => hpq.escaped)
  · intro hshown
    have htexts : ps.map (·.text.blur) = qs.map (·.text.blur) :=
      map_eq_of_forall₂ (h.imp fun _ _ hpq => hpq.text hshown)
    simp only [Piece.join, Text.blur_intercalate, List.map_map]
    exact congrArg (separator.blur.intercalate ·) htexts

/-! ## Slots and frames -/

theorem Content.Alike.elements {c d : Content} (h : c.Alike rules d) :
    List.Forall₂ (Content.Alike rules) c.elements d.elements := by
  cases h with
  | item h => exact .cons (.item h) .nil
  | sequence h => exact h

theorem Content.Alike.isItem {c d : Content} (h : c.Alike rules d) : c.isItem = d.isItem := by
  cases h <;> rfl

theorem Content.agree_items {c d : Content} (h : c.Alike rules d) (owner : Kind) :
    Agree (List.Forall₂ (Item.Alike rules)) (c.items owner) (d.items owner) := by
  apply Agree.mapM
  apply h.elements.imp
  intro c d h
  cases h with
  | item h => exact h
  | sequence h => exact rfl

def Slot.Unruled (slot : Slot) : Prop :=
  ∀ k ∈ slot.accepts, k.ruled = false

/-- Alike items are both refused by a slot, or both written alike. -/
theorem Slot.agree_item {slot : Slot} (hslot : slot.Unruled) {i j : Item}
    (h : i.Alike rules j) :
    Agree (Piece.Alike True) (slot.item escape i) (slot.item escape j) := by
  cases h with
  | literal t => exact Piece.Alike.refl _
  | @node m n h =>
      rw [Slot.item, Slot.item, Slot.allow, Slot.allow, h.kind]
      refine Agree.bind_same _ fun _ hallowed => ⟨h.escaped, fun _ => h.text ?_⟩
      have hkind : m.kind.ruled = false := hslot _ (h.kind ▸ require_eq_ok_iff.mp hallowed)
      exact fun hruled => absurd hruled (by simp [hkind])

theorem Slot.agree_fill {slot : Slot} (hslot : slot.Unruled) {c d : Content}
    (h : c.Alike rules d) :
    Agree (Piece.Alike True) (slot.fill escape c) (slot.fill escape d) := by
  refine (Content.agree_items h slot.owner).bind fun is js his => ?_
  refine (Agree.mapM (his.imp fun i j hij => Slot.agree_item hslot hij)).bind fun ps qs hps => ?_
  have hjoin := Piece.alike_join hps []
  exact ⟨congrArg (escape && ·) hjoin.escaped, hjoin.text⟩

/-- Two frames that differ in the marks around the body only. -/
structure Frame.Alike (f g : Frame) : Prop where
  slot : f.toSlot = g.toSlot
  opening : f.opening.blur = g.opening.blur
  closing : f.closing.blur = g.closing.blur
  finish : ∀ s t : Text, s.blur = t.blur → (f.finish s).blur = (g.finish t).blur

theorem Frame.agree_build {f g : Frame} (hfg : f.Alike g) (hslot : f.toSlot.Unruled)
    (safe : Bool) {c d : Content} (h : c.Alike rules d) :
    Agree (Node.Alike rules) (f.build safe c escape) (g.build safe d escape) := by
  refine Agree.bind_same _ fun _ _ => ?_
  rw [← hfg.slot]
  refine (Slot.agree_fill hslot h).bind fun p q hpq => ⟨rfl, hpq.escaped, fun _ => ?_⟩
  rw [Text.blur_append, Text.blur_append, Text.blur_append, Text.blur_append,
    hfg.opening, hfg.closing, hfg.finish _ _ (hpq.text trivial)]

variable {v w : Writer}

theorem Wrap.alike_frame (hvw : v.Alike w) (wrap : Wrap) :
    (wrap.frame v).Alike (wrap.frame w) := by
  have hid : ∀ s t : Text, s.blur = t.blur → (id s : Text).blur = (id t : Text).blur :=
    fun _ _ h => h
  cases wrap with
  | bold => exact ⟨rfl, hvw.strong, hvw.strong, hid⟩
  | italic => exact ⟨rfl, hvw.emphasis, hvw.emphasis, hid⟩
  | blockquote => exact ⟨rfl, rfl, rfl, fun s t h => by
      rw [Wrap.frame, Wrap.frame, blur_quote, blur_quote, h]⟩
  | _ => exact ⟨rfl, rfl, rfl, hid⟩

theorem Wrap.agree_make (hvw : v.Alike w) (wrap : Wrap) {c d : Content}
    (h : c.Alike rules d) :
    Agree (Node.Alike rules) (wrap.make v c escape) (wrap.make w d escape) := by
  rw [Wrap.make_eq, Wrap.make_eq, hvw.safeMode]
  refine Agree.bind_same _ fun _ _ => Frame.agree_build (wrap.alike_frame hvw) ?_ _ h
  intro k hk
  rw [Wrap.accepts_frame] at hk
  have hkind : wrap.kind ≠ .document := by cases wrap <;> exact nofun
  exact unruled_of_accepts hkind hk

theorem Leaf.agree_make (hmode : v.safeMode = w.safeMode) (leaf : Leaf) :
    Agree (Node.Alike rules) (leaf.make v escape) (leaf.make w escape) := by
  rw [Leaf.make_eq, Leaf.make_eq, hmode]
  exact Agree.of_same Node.Alike.refl _

theorem Fixed.alike_make (hrule : rules → v.rule = w.rule) (fixed : Fixed) :
    (fixed.make v).Alike rules (fixed.make w) := by
  cases fixed with
  | horizontalRule =>
      refine ⟨rfl, rfl, fun hruled => ?_⟩
      rw [Fixed.make, Fixed.make, Writer.horizontalRule, Writer.horizontalRule,
        hrule (hruled rfl)]
  | _ => exact Node.Alike.refl _

theorem Node.agree_document {ms ns : List Node} (h : List.Forall₂ (Node.Alike rules) ms ns) :
    Agree (Node.Alike rules) (Node.document ms) (Node.document ns) := by
  refine Agree.bind (R := List.Forall₂ (Piece.Alike rules))
    (Agree.mapM (h.imp fun m n hmn => ?_)) fun ps qs hps => ?_
  · rw [hmn.kind]
    refine Agree.bind_same _ fun _ _ => ⟨hmn.escaped, fun hrules => ?_⟩
    rw [Text.blur_chomp, Text.blur_chomp, hmn.text fun _ => hrules]
  · have hjoin := Piece.alike_join hps ['\n']
    exact ⟨rfl, hjoin.escaped, fun hruled => hjoin.text (hruled rfl)⟩

/-! ## Lists -/

namespace Marking.Alike

variable {k m : Marking}

theorem marker (h : k.Alike m) : k.marker.blur = m.marker.blur := by
  cases h with
  | bullets h => rw [Marking.marker, Marking.marker, Text.blur_append, Text.blur_append, h]
  | numbers next => rfl
  | boxes h checks => rw [Marking.marker, Marking.marker, Text.blur_append, Text.blur_append, h]

theorem after (h : k.Alike m) {c d : Content} (hcd : c.isItem = d.isItem) :
    (k.after c).Alike (m.after d) := by
  cases h with
  | bullets h => exact .bullets h
  | numbers next =>
      rw [Marking.after, Marking.after, hcd]
      exact .numbers _
  | boxes h checks => exact .boxes h _

theorem sublist (h : k.Alike m) : k.sublist.Alike m.sublist := by
  cases h with
  | bullets h => exact .bullets h
  | numbers next => exact .numbers 1
  | boxes h checks => exact .boxes h []

end Marking.Alike

mutual

theorem Content.alike_outline : ∀ {c d : Content} {k m : Marking} (depth : Nat),
    c.Alike rules d → k.Alike m →
      List.Forall₂ (Entry.Alike rules) (c.outline depth k) (d.outline depth m)
  | .item _, .item _, _, _, _, .item hij, hkm => .cons ⟨rfl, hkm.marker, hij⟩ .nil
  | .sequence _, .sequence _, _, _, depth, .sequence h, hkm =>
      alike_outlineLevel (depth + 1) h hkm.sublist
termination_by structural c => c

theorem alike_outlineLevel : ∀ {cs ds : List Content} {k m : Marking} (depth : Nat),
    List.Forall₂ (Content.Alike rules) cs ds → k.Alike m →
      List.Forall₂ (Entry.Alike rules) (outlineLevel depth k cs) (outlineLevel depth m ds)
  | [], [], _, _, _, .nil, _ => .nil
  | _ :: _, _ :: _, _, _, depth, .cons h hrest, hkm =>
      List.rel_append (Content.alike_outline depth h hkm)
        (alike_outlineLevel depth hrest (hkm.after h.isItem))
termination_by structural cs => cs

end

theorem blur_itemBlock (depth : Nat) (marker body : Text) :
    (itemBlock depth marker body).blur = itemBlock depth marker.blur body.blur := by
  have hspaces : ∀ n, Text.blur (List.replicate n ' ') = List.replicate n ' ' := by
    intro n
    exact List.map_replicate
  simp only [itemBlock, levelIndent, Text.blur_append, blur_hang, hspaces, Text.length_blur]

theorem Item.Alike.body {i j : Item} (hij : i.Alike rules j) {p q : Piece}
    (h : p.text.blur = q.text.blur) : (itemBody i p).blur = (itemBody j q).blur := by
  cases hij with
  | literal t => exact h
  | node _ => rw [itemBody, itemBody, Text.blur_trim, Text.blur_trim, h]

theorem Slot.agree_entry {slot : Slot} (hslot : slot.Unruled) {d e : Entry}
    (h : d.Alike rules e) :
    Agree (Piece.Alike True) (slot.entry escape d) (slot.entry escape e) := by
  refine (Slot.agree_item hslot h.item).bind fun p q hpq => ⟨hpq.escaped, fun _ => ?_⟩
  rw [blur_itemBlock, blur_itemBlock, h.depth, h.marker, h.item.body (hpq.text trivial)]

theorem agree_writeList {kind : Kind} (hkind : kind ≠ .document) {k m : Marking}
    (hkm : k.Alike m) {cs ds : List Content} (h : List.Forall₂ (Content.Alike rules) cs ds) :
    Agree (Node.Alike rules) (writeList kind k cs escape) (writeList kind m ds escape) := by
  have hslot : (listSlot kind).Unruled := fun child hchild =>
    unruled_of_accepts hkind hchild
  rw [writeList, writeList, ← listSlot, levelPieces_eq_mapM, levelPieces_eq_mapM]
  refine Agree.bind (R := List.Forall₂ (Piece.Alike True))
    (Agree.mapM ((alike_outlineLevel 0 h hkm).imp fun d e hde => Slot.agree_entry hslot hde))
    fun ps qs hps => ?_
  have hjoin := Piece.alike_join hps ['\n']
  refine ⟨rfl, congrArg (escape && ·) hjoin.escaped, fun _ => ?_⟩
  rw [Text.blur_append, Text.blur_append, hjoin.text trivial]

theorem ListStyle.agree_make (hvw : v.Alike w) (style : ListStyle) {c d : Content}
    (h : c.Alike rules d) :
    Agree (Node.Alike rules) (style.make v c escape) (style.make w d escape) := by
  cases style with
  | bullets =>
      rw [make, make, Writer.bulletList, Writer.bulletList, hvw.safeMode]
      exact Agree.bind_same _ fun _ _ =>
        agree_writeList (by decide) (.bullets hvw.bullet) h.elements
  | numbers start =>
      have hcount : c.elements.countP (·.isItem) = d.elements.countP (·.isItem) :=
        countP_eq_of_forall₂ (h.elements.imp fun _ _ hcd => hcd.isItem)
      rw [make, make, Writer.orderedList, Writer.orderedList, hvw.safeMode, hcount]
      exact Agree.bind_same _ fun _ _ => Agree.bind_same _ fun _ _ =>
        Agree.bind_same _ fun _ _ => agree_writeList (by decide) (.numbers _) h.elements
  | boxes checks =>
      rw [make, make]
      unfold Writer.checklist
      rw [hvw.safeMode]
      refine Agree.bind_same _ fun _ _ => ?_
      cases checks with
      | none => exact agree_writeList (by decide) (.boxes hvw.bullet []) h.elements
      | some flags =>
          rw [h.elements.length_eq]
          exact Agree.bind_same _ fun _ _ =>
            agree_writeList (by decide) (.boxes hvw.bullet flags) h.elements

/-! ## Tables -/

theorem agree_cellPiece (row : Option Nat) (column : Nat) {c d : Content}
    (h : c.Alike rules d) :
    Agree (Piece.Alike True) (cellPiece escape row column c)
      (cellPiece escape row column d) := by
  have hslot : cellSlot.Unruled := fun k hk =>
    unruled_of_accepts (show Kind.table ≠ .document by decide) hk
  refine (Slot.agree_fill hslot h).bind fun p q hpq => ?_
  have hbreaks : p.text.any isBreak = q.text.any isBreak := by
    rw [← Text.any_blur isBreak_blurMark, hpq.text trivial, Text.any_blur isBreak_blurMark]
  rw [hbreaks]
  refine Agree.bind_same _ fun _ _ => ⟨hpq.escaped, fun _ => ?_⟩
  rw [blur_escapeBars, blur_escapeBars, hpq.text trivial]

theorem agree_rowPiece (row : Option Nat) {cs ds : List Content}
    (h : List.Forall₂ (Content.Alike rules) cs ds) :
    Agree (Piece.Alike True) (rowPiece escape row cs) (rowPiece escape row ds) := by
  refine Agree.bind (R := List.Forall₂ (Piece.Alike True))
    (Agree.mapM ((forall₂_zipIdx h 1).imp ?_)) fun ps qs hps => Piece.alike_join hps _
  rintro ⟨c, column⟩ ⟨d, _⟩ ⟨hcd, rfl⟩
  exact agree_cellPiece row column hcd

theorem Writer.agree_table (hvw : v.Alike w) {cs ds : List Content}
    (hheader : List.Forall₂ (Content.Alike rules) cs ds) {css dss : List (List Content)}
    (hrows : List.Forall₂ (List.Forall₂ (Content.Alike rules)) css dss)
    (alignments : List Text) :
    Agree (Node.Alike rules) (v.table cs css alignments escape)
      (w.table ds dss alignments escape) := by
  have hwidths : css.map List.length = dss.map List.length :=
    map_eq_of_forall₂ (hrows.imp fun _ _ hrow => hrow.length_eq)
  have hcolumns : cs.length = ds.length := hheader.length_eq
  have hempty : cs ≠ [] ↔ ds ≠ [] := ne_nil_iff_of_forall₂ hheader
  rw [table, table, hvw.safeMode, hcolumns, requireWidth_congr _ hwidths]
  simp only [hempty]
  refine Agree.bind_same _ fun _ _ => Agree.bind_same _ fun _ _ =>
    Agree.bind_same _ fun aligned _ => Agree.bind_same _ fun _ _ =>
    (agree_rowPiece none hheader).bind fun p q hpq =>
    Agree.bind (R := List.Forall₂ (Piece.Alike True))
      (Agree.mapM ((forall₂_zipIdx hrows 1).imp ?_)) fun ps qs hps => ?_
  · rintro ⟨cells, row⟩ ⟨cells', _⟩ ⟨hcells, rfl⟩
    exact agree_rowPiece (some row) hcells
  · have hlines := List.Forall₂.cons hpq (.cons (Piece.Alike.refl
      ⟨cellSeparator.intercalate aligned, true⟩) hps)
    have hjoin := Piece.alike_join hlines ['\n']
    refine ⟨rfl, congrArg (escape && ·) hjoin.escaped, fun _ => ?_⟩
    rw [Text.blur_append, Text.blur_append, hjoin.text trivial]

/-! ## Expressions -/

section Evaluation

variable {shelf : Shelf}

/-- An expression has agreeing outcomes with two writers. -/
def Expr.Agrees (rules : Prop) (v w : Writer) (shelf : Shelf) (e : Expr) : Prop :=
  Agree (Node.Alike rules) (e.eval v shelf) (e.eval w shelf)

theorem Operand.agree_eval {o : Operand} (h : ∀ e ∈ o.exprs, e.Agrees rules v w shelf) :
    Agree (Content.Alike rules) (o.eval v shelf) (o.eval w shelf) := by
  induction o using Operand.induction with
  | literal t => exact .item (.literal t)
  | node e => exact (h e List.mem_cons_self).map fun _ _ hmn => .item (.node hmn)
  | sequence os ih =>
      rw [Operand.eval, Operand.eval, evalOperands_eq_mapM, evalOperands_eq_mapM]
      refine Agree.map (Agree.mapM (List.forall₂_same.mpr fun o ho => ?_))
        fun _ _ hcs => Content.Alike.sequence hcs
      exact ih o ho fun e he => h e (mem_exprsOfAll_iff.mpr ⟨o, ho, he⟩)

theorem agree_evalOperands {os : List Operand}
    (h : ∀ e ∈ exprsOfAll os, e.Agrees rules v w shelf) :
    Agree (List.Forall₂ (Content.Alike rules)) (evalOperands v shelf os)
      (evalOperands w shelf os) := by
  rw [evalOperands_eq_mapM, evalOperands_eq_mapM]
  refine Agree.mapM (List.forall₂_same.mpr fun o ho => Operand.agree_eval fun e he => ?_)
  exact h e (mem_exprsOfAll_iff.mpr ⟨o, ho, he⟩)

theorem agree_evalRows {rows : List (List Operand)}
    (h : ∀ e ∈ exprsOfRows rows, e.Agrees rules v w shelf) :
    Agree (List.Forall₂ (List.Forall₂ (Content.Alike rules))) (evalRows v shelf rows)
      (evalRows w shelf rows) := by
  rw [evalRows_eq_mapM, evalRows_eq_mapM]
  refine Agree.mapM (List.forall₂_same.mpr fun row hrow => agree_evalOperands fun e he => ?_)
  exact h e (mem_exprsOfRows_iff.mpr ⟨row, hrow, he⟩)

theorem agree_evalNodes {es : List Expr} (h : ∀ e ∈ es, e.Agrees rules v w shelf) :
    Agree (List.Forall₂ (Node.Alike rules)) (evalNodes v shelf es) (evalNodes w shelf es) := by
  rw [evalNodes_eq_mapM, evalNodes_eq_mapM]
  exact Agree.mapM (List.forall₂_same.mpr h)

/-- **A choice of marks is a choice of marks only.** -/
theorem Expr.agrees_eval (hvw : v.Alike w) (hrule : rules → v.rule = w.rule) (shelf : Shelf)
    (e : Expr) : e.Agrees rules v w shelf := by
  induction e using Expr.induction with
  | step e h =>
    cases e with
    | fixed fixed => exact Fixed.alike_make hrule fixed
    | leaf leaf escape => exact Leaf.agree_make hvw.safeMode leaf
    | wrap wrap content escape =>
        exact (Operand.agree_eval h).bind fun _ _ hcd => wrap.agree_make hvw hcd
    | list style items escape =>
        exact (Operand.agree_eval h).bind fun _ _ hcd => style.agree_make hvw hcd
    | table headers rows alignments escape =>
        obtain ⟨hheaders, hrows⟩ := List.forall_mem_append.mp h
        exact (agree_evalOperands hheaders).bind fun _ _ hheader =>
          (agree_evalRows hrows).bind fun _ _ hbody =>
            Writer.agree_table hvw hheader hbody alignments
    | document children =>
        exact (agree_evalNodes h).bind fun _ _ hns => Node.agree_document hns
    | stored name => exact Agree.of_same Node.Alike.refl _

end Evaluation

end Pieces

/-- **Which marks are used makes no difference to what can be written.** Two valid
writers with the same safe mode fail on an expression with the same fault, or both
make a node, of the same kind and both escaped or both not. If they also use the same
rule, the two texts are equal once every underscore, dash and plus sign in them is
read as a star. -/
theorem eval_marks {v w : Writer} (hv : v.Valid) (hw : w.Valid)
    (hmode : v.safeMode = w.safeMode) (shelf : Shelf) (e : Expr) :
    (∃ f, e.eval v shelf = .error f ∧ e.eval w shelf = .error f) ∨
    ∃ m n, e.eval v shelf = .ok m ∧ e.eval w shelf = .ok n ∧
      m.kind = n.kind ∧ m.escaped = n.escaped ∧
      (v.rule = w.rule → m.text.blur = n.text.blur) := by
  have hagree : e.Agrees (v.rule = w.rule) v w shelf :=
    Expr.agrees_eval (hv.alike hw hmode) id shelf e
  refine hagree.cases.imp_right ?_
  rintro ⟨m, n, hm, hn, hmn⟩
  exact ⟨m, n, hm, hn, hmn.kind, hmn.escaped, fun hrule => hmn.text fun _ => hrule⟩

/-- Strong and emphasized text with a break in it, in a sublist and in a cell. The
two sublists differ in marks, and both tables refuse the break. -/
theorem eval_marks_break :
    let v : Writer := { strong := "__".toList, bullet := "+".toList }
    let w : Writer := { emphasis := "_".toList, bullet := "*".toList }
    let shelf : Shelf := fun _ => none
    let list : Expr := .list .bullets (.sequence [.literal "c".toList, .sequence [.node
      (.wrap .bold (.node (.wrap .italic (.literal "a\nb".toList) true)) true)]]) true
    let table : Expr := .table [.literal "h".toList]
      [[.node (.wrap .bold (.literal "a\nb".toList) true)]] [] true
    v.Valid ∧ w.Valid ∧
    (∃ m n, list.eval v shelf = .ok m ∧ list.eval w shelf = .ok n ∧
      m.text ≠ n.text ∧ m.text.blur = n.text.blur) ∧
    ∃ f, table.eval v shelf = .error f ∧ table.eval w shelf = .error f := by
  intro v w shelf list table
  have hv : v.Valid := by decide
  have hw : w.Valid := by decide
  have hlist : list.eval { strong := "__".toList, bullet := "+".toList } shelf =
      .ok ⟨.bulletList, "+ c\n  + __*a\n    b*__\n\n".toList, true⟩ := rfl
  have hlist' : list.eval { emphasis := "_".toList, bullet := "*".toList } shelf =
      .ok ⟨.bulletList, "* c\n  * **_a\n    b_**\n\n".toList, true⟩ := rfl
  have htable : table.eval { strong := "__".toList, bullet := "+".toList } shelf =
      .error (.cellBreak (some 1) 1) := rfl
  refine ⟨hv, hw, ?_, ?_⟩
  · rcases eval_marks hv hw rfl shelf list with ⟨f, hf, -⟩ | ⟨m, n, hm, hn, -, -, htexts⟩
    · exact absurd (hlist.symm.trans hf) nofun
    · refine ⟨m, n, hm, hn, ?_, htexts rfl⟩
      obtain rfl := Except.ok.inj (hlist.symm.trans hm)
      obtain rfl := Except.ok.inj (hlist'.symm.trans hn)
      decide
  · rcases eval_marks hv hw rfl shelf table with h | ⟨m, n, hm, -⟩
    · exact h
    · exact absurd (htable.symm.trans hm) nofun

end Markdown
