import Markdown.Proofs.Nesting
import Markdown.Proofs.Taint

/-!
# What stands inside what

The rules of nesting speak of the nodes that a constructor is given. What stands
further in is up to the constructors on the way, so a kind that is refused by one of
them can still be inside it. Two facts about the table of rules decide which can.

- A set of kinds that holds whatever its members accept also holds all that is inside
  a node of one of them (`kinds_parts`). No set of this sort that has strong text in it
  is without links.
- What is inside a constructor that does not accept it is inside one of its children,
  and this child accepts something (`inside_of_not_accepted`).

Around a finished node a constructor looks at the kind of the node and at nothing else
(`makes_wrap_node_iff`), so one constructor in between is enough.
-/

namespace Markdown

/-- The constructor applications inside an expression, at any depth. -/
def Expr.inside (e : Expr) : List Expr :=
  e.children.flatMap parts

theorem Expr.mem_inside_iff {q e : Expr} : q ∈ e.inside ↔ ∃ c ∈ e.children, q ∈ c.parts :=
  List.mem_flatMap

theorem Expr.mem_inside_iff_child {q e : Expr} :
    q ∈ e.inside ↔ q ∈ e.children ∨ ∃ c ∈ e.children, q ∈ c.inside := by
  have hparts : ∀ c : Expr, q ∈ c.parts ↔ q = c ∨ q ∈ c.inside := fun c => by
    rw [parts_eq, List.mem_cons, inside]
  rw [mem_inside_iff]
  constructor
  · rintro ⟨c, hc, hq⟩
    rcases (hparts c).mp hq with rfl | hq
    · exact Or.inl hc
    · exact Or.inr ⟨c, hc, hq⟩
  · rintro (hq | ⟨c, hc, hq⟩)
    · exact ⟨q, hq, (hparts q).mpr (Or.inl rfl)⟩
    · exact ⟨c, hc, (hparts c).mpr (Or.inr hq)⟩

/-! ## Closed sets of kinds -/

/-- A set of kinds holds whatever its members accept. -/
def Kinds.Closed (s : Kinds) : Prop :=
  ∀ k ∈ s.toList, ∀ j ∈ k.accepts.toList, j ∈ s

instance (s : Kinds) : Decidable s.Closed :=
  inferInstanceAs (Decidable (∀ k ∈ s.toList, ∀ j ∈ k.accepts.toList, j ∈ s))

theorem Kinds.Closed.mem {s : Kinds} (hs : s.Closed) {j k : Kind} (hk : k ∈ s)
    (hj : j ∈ k.accepts) : j ∈ s :=
  hs k (mem_toList.mpr hk) j (mem_toList.mpr hj)

/-- What the text of a link may hold, and what that may hold in turn. -/
def Kinds.withinLink : Kinds :=
  linkText ∪ ofList [.link]

theorem Kinds.closed_withinLink : withinLink.Closed := by
  decide

section

variable {w : Writer} {shelf : Shelf} {e : Expr} {n : Node}

/-- **A closed set of kinds keeps what is inside.** -/
theorem kinds_parts {s : Kinds} (hs : s.Closed) (h : Makes w shelf e n) (hn : n.kind ∈ s) :
    ∀ q ∈ e.parts, ∃ k ∈ s, q.kind? shelf = some k := by
  induction e using Expr.induction generalizing n with
  | step e ih =>
    obtain ⟨ns, hns, haccepts, -⟩ := eval_step_placed h
    refine Expr.forall_parts_iff.mpr ⟨⟨n.kind, hn, kind_of_makes h⟩, ?_⟩
    intro c hc
    obtain ⟨m, hm, hmakes⟩ := exists_mem_of_forall₂ hns.flip hc
    exact ih c hc hmakes (hs.mem hn (haccepts m hm))

theorem exists_makes_of_mem_children (h : Makes w shelf e n) {c : Expr}
    (hc : c ∈ e.children) : ∃ m, Makes w shelf c m ∧ m.kind ∈ n.kind.accepts := by
  obtain ⟨ns, hns, haccepts, -⟩ := eval_step_placed h
  obtain ⟨m, hm, hmakes⟩ := exists_mem_of_forall₂ hns.flip hc
  exact ⟨m, hmakes, haccepts m hm⟩

theorem kinds_inside {s : Kinds} (hs : s.Closed) (h : Makes w shelf e n)
    (hn : ∀ j ∈ n.kind.accepts.toList, j ∈ s) :
    ∀ q ∈ e.inside, ∃ k ∈ s, q.kind? shelf = some k := by
  intro q hq
  obtain ⟨c, hc, hq⟩ := Expr.mem_inside_iff.mp hq
  obtain ⟨m, hmakes, haccepted⟩ := exists_makes_of_mem_children h hc
  exact kinds_parts hs hmakes (hn _ (Kinds.mem_toList.mpr haccepted)) q hq

theorem child_accepted (h : Makes w shelf e n) {c : Expr} (hc : c ∈ e.children) {k : Kind}
    (hk : c.kind? shelf = some k) : k ∈ n.kind.accepts := by
  obtain ⟨m, hmakes, haccepted⟩ := exists_makes_of_mem_children h hc
  obtain rfl : m.kind = k := Option.some.inj ((kind_of_makes hmakes).symm.trans hk)
  exact haccepted

/-- **The way inside.** What is inside a constructor that does not accept its kind is
inside a child that accepts something. -/
theorem inside_of_not_accepted (h : Makes w shelf e n) {q : Expr} (hq : q ∈ e.inside)
    {k : Kind} (hk : q.kind? shelf = some k) (hrefused : k ∉ n.kind.accepts) :
    ∃ b ∈ e.children, ∃ j ∈ n.kind.accepts, b.kind? shelf = some j ∧ j.accepts ≠ ∅ ∧
      q ∈ b.inside := by
  rcases Expr.mem_inside_iff_child.mp hq with hchild | ⟨b, hb, hq⟩
  · exact absurd (child_accepted h hchild hk) hrefused
  · obtain ⟨m, hmakes, haccepted⟩ := exists_makes_of_mem_children h hb
    refine ⟨b, hb, m.kind, haccepted, kind_of_makes hmakes, ?_, hq⟩
    obtain ⟨c, hc, -⟩ := Expr.mem_inside_iff.mp hq
    obtain ⟨l, -, hl⟩ := exists_makes_of_mem_children hmakes hc
    intro hempty
    rw [hempty] at hl
    exact Kinds.not_mem_empty _ hl

/-- **Around a finished node**, only the kind of the node matters. -/
theorem makes_wrap_node_iff (h : Makes w shelf e n) {around : Wrap} {escape : Bool} :
    (∃ m, Makes w shelf (.wrap around (.node e) escape) m) ↔
      around.check = .ok () ∧ (escape = true ∨ w.safeMode = false) ∧
        n.kind ∈ around.kind.accepts := by
  have hcontent : ∀ c, (Operand.node e).eval w shelf = .ok c ↔ Content.node n = c := by
    intro c
    rw [Operand.eval, show e.eval w shelf = .ok n from h]
    exact pure_eq_ok_iff
  have hflat : (Content.node n).Flat := List.forall_mem_singleton.mpr rfl
  have hleaves : (Content.node n).leaves = [.node n] := rfl
  simp only [makes_wrap_iff, hcontent, exists_eq_left', Wrap.make_eq_ok_iff, hflat,
    hleaves, List.forall_mem_singleton, Slot.Admits, Wrap.accepts_frame, true_and,
    exists_and_left, exists_eq', and_true]

end

/-! ## Links and struck text -/

def Kind.isLink (k : Kind) : Bool :=
  k == .link || k == .referenceLink

theorem Kind.accepts_of_isLink {k : Kind} (hk : k.isLink = true) :
    k.accepts = Kinds.linkText := by
  cases k with
  | link => rfl
  | referenceLink => rfl
  | _ => exact absurd hk Bool.false_ne_true

theorem Kind.withinLink_of_isLink {k : Kind} (hk : k.isLink = true) :
    ∀ j ∈ k.accepts.toList, j ∈ Kinds.withinLink := by
  rw [accepts_of_isLink hk]
  decide

theorem Kind.not_isLink_of_accepted {k j : Kind} (hk : k.isLink = true)
    (hj : j ∈ k.accepts) : j.isLink = false := by
  have hall : ∀ j ∈ Kind.all, j ∈ Kinds.linkText → j.isLink = false := by
    decide
  exact hall j (mem_all j) (accepts_of_isLink hk ▸ hj)

/-- What a link accepts and what accepts something is emphasis. -/
theorem Kind.emphasis_of_isLink {k j : Kind} (hk : k.isLink = true) (hj : j ∈ k.accepts)
    (haccepts : j.accepts ≠ ∅) : j ∈ [Kind.bold, .italic, .strikethrough] := by
  have hall : ∀ j ∈ Kind.all, j ∈ Kinds.linkText → j.accepts ≠ ∅ →
      j ∈ [Kind.bold, .italic, .strikethrough] := by
    decide
  exact hall j (mem_all j) (accepts_of_isLink hk ▸ hj) haccepts

theorem Kind.carrier_of_strikethrough {j : Kind} (hj : j ∈ Kind.strikethrough.accepts)
    (haccepts : j.accepts ≠ ∅) : j ∈ [Kind.bold, .italic, .link] := by
  have hall : ∀ j ∈ Kind.all, j ∈ Kind.strikethrough.accepts → j.accepts ≠ ∅ →
      j ∈ [Kind.bold, .italic, .link] := by
    decide
  exact hall j (mem_all j) hj haccepts

section

variable {w : Writer} {shelf : Shelf} {e : Expr} {n : Node}

theorem inside_link (h : Makes w shelf e n) (hlink : n.kind.isLink = true) :
    (∀ c ∈ e.children, ∀ k, c.kind? shelf = some k → k.isLink = false) ∧
      ∀ q ∈ e.inside, q.kind? shelf ≠ some .referenceLink ∧
        (q.kind? shelf = some .link →
          ∃ b ∈ e.children, ∃ j ∈ [Kind.bold, .italic, .strikethrough],
            b.kind? shelf = some j ∧ q ∈ b.inside) := by
  refine ⟨?children, fun q hq => ⟨?reference, fun hk => ?link⟩⟩
  case children =>
    intro c hc k hk
    exact Kind.not_isLink_of_accepted hlink (child_accepted h hc hk)
  case reference =>
    intro hk
    obtain ⟨k, hkind, hq⟩ :=
      kinds_inside Kinds.closed_withinLink h (Kind.withinLink_of_isLink hlink) q hq
    obtain rfl : Kind.referenceLink = k := Option.some.inj (hk.symm.trans hq)
    exact absurd hkind (by decide)
  case link =>
    have hrefused : Kind.link ∉ n.kind.accepts := fun haccepted =>
      absurd (Kind.not_isLink_of_accepted hlink haccepted) (by decide)
    obtain ⟨b, hb, j, hj, hbkind, haccepts, hq⟩ := inside_of_not_accepted h hq hk hrefused
    exact ⟨b, hb, j, Kind.emphasis_of_isLink hlink hj haccepts, hbkind, hq⟩

theorem inside_strikethrough (h : Makes w shelf e n) (hstruck : n.kind = .strikethrough) :
    (∀ c ∈ e.children, c.kind? shelf ≠ some .strikethrough) ∧
      ∀ q ∈ e.inside, q.kind? shelf = some .strikethrough →
        ∃ b ∈ e.children, ∃ j ∈ [Kind.bold, .italic, .link],
          b.kind? shelf = some j ∧ q ∈ b.inside := by
  have hrefused : Kind.strikethrough ∉ n.kind.accepts := by
    rw [hstruck]
    decide
  refine ⟨fun c hc hk => hrefused (child_accepted h hc hk), ?_⟩
  intro q hq hk
  obtain ⟨b, hb, j, hj, hbkind, haccepts, hq⟩ := inside_of_not_accepted h hq hk hrefused
  rw [hstruck] at hj
  exact ⟨b, hb, j, Kind.carrier_of_strikethrough hj haccepts, hbkind, hq⟩

theorem Wrap.check_eq_ok {around : Wrap} (h : around.kind ≠ .heading) :
    around.check = .ok () := by
  cases around with
  | heading level => exact absurd rfl h
  | _ => rfl

/-- Two constructors around a finished node succeed if the inner one accepts the node
and the outer one the kind of the inner. -/
theorem exists_makes_wrap_wrap (h : Makes w shelf e n) {outer between : Wrap} {escape : Bool}
    (hescape : escape = true ∨ w.safeMode = false) (houter : outer.check = .ok ())
    (hbetween : between.check = .ok ()) (hinner : n.kind ∈ between.kind.accepts)
    (haccepted : between.kind ∈ outer.kind.accepts) :
    ∃ m, Makes w shelf (.wrap outer (.node (.wrap between (.node e) escape)) escape) m := by
  obtain ⟨l, hl⟩ := (makes_wrap_node_iff h).mpr ⟨hbetween, hescape, hinner⟩
  have hkind : l.kind = between.kind := Option.some.inj (kind_of_makes hl).symm
  exact (makes_wrap_node_iff hl).mpr ⟨houter, hescape, hkind ▸ haccepted⟩

end

/-- **How far links and struck text keep apart.** In whatever is made, a link of either
kind is not a child of a link, and no reference link is inside one. A link can be inside
one, but only inside a child that is emphasis or struck text. Struck text is not a child
of struck text, and is inside it only inside a child that is emphasis or a link. One
such child is enough each time: around a finished link, or finished struck text, both
constructors succeed. -/
theorem eval_inside (w : Writer) (shelf : Shelf) (e : Expr) (n : Node)
    (h : e.eval w shelf = .ok n) :
    (∀ p ∈ e.parts, ∀ parent, p.kind? shelf = some parent →
      (parent.isLink = true →
        (∀ c ∈ p.children, ∀ k, c.kind? shelf = some k → k.isLink = false) ∧
        ∀ q ∈ p.inside, q.kind? shelf ≠ some .referenceLink ∧
          (q.kind? shelf = some .link →
            ∃ b ∈ p.children, ∃ j ∈ [Kind.bold, .italic, .strikethrough],
              b.kind? shelf = some j ∧ q ∈ b.inside)) ∧
      (parent = .strikethrough →
        (∀ c ∈ p.children, c.kind? shelf ≠ some .strikethrough) ∧
        ∀ q ∈ p.inside, q.kind? shelf = some .strikethrough →
          ∃ b ∈ p.children, ∃ j ∈ [Kind.bold, .italic, .link],
            b.kind? shelf = some j ∧ q ∈ b.inside)) ∧
    ∀ escape, escape = true ∨ w.safeMode = false →
      (n.kind = .link → ∀ outer : Wrap, outer.kind.isLink = true →
        ∀ between : Wrap, between.kind ∈ [Kind.bold, .italic, .strikethrough] → ∃ m,
          (Expr.wrap outer (.node (.wrap between (.node e) escape)) escape).eval w shelf =
            .ok m) ∧
      (n.kind = .strikethrough →
        ∀ between : Wrap, between.kind ∈ [Kind.bold, .italic, .link] → ∃ m,
          (Expr.wrap .strikethrough (.node (.wrap between (.node e) escape)) escape).eval
            w shelf = .ok m) := by
  constructor
  · intro p hp parent hparent
    obtain ⟨m, hm⟩ := exists_makes_of_mem_parts h hp
    obtain rfl : m.kind = parent := Option.some.inj ((kind_of_makes hm).symm.trans hparent)
    exact ⟨inside_link hm, inside_strikethrough hm⟩
  · intro escape hescape
    constructor
    · intro hn outer houter between hbetween
      have hkinds : ∀ k ∈ [Kind.bold, .italic, .strikethrough],
          k ≠ .heading ∧ .link ∈ k.accepts ∧ k ∈ Kinds.linkText := by
        decide
      obtain ⟨hheading, hinner, haccepted⟩ := hkinds _ hbetween
      have houterheading : outer.kind ≠ .heading := fun hk => by
        rw [hk] at houter
        exact absurd houter Bool.false_ne_true
      exact exists_makes_wrap_wrap h hescape (Wrap.check_eq_ok houterheading)
        (Wrap.check_eq_ok hheading) (hn ▸ hinner)
        (Kind.accepts_of_isLink houter ▸ haccepted)
    · intro hn between hbetween
      have hkinds : ∀ k ∈ [Kind.bold, .italic, .link],
          k ≠ .heading ∧ .strikethrough ∈ k.accepts ∧ k ∈ Kind.strikethrough.accepts := by
        decide
      obtain ⟨hheading, hinner, haccepted⟩ := hkinds _ hbetween
      exact exists_makes_wrap_wrap h hescape rfl (Wrap.check_eq_ok hheading) (hn ▸ hinner)
        haccepted

/-- A link in strong text in a link. What is found inside it is inside the strong text,
and around it, with one more constructor in between, a reference link succeeds. -/
theorem eval_inside_strong :
    let shelf : Shelf := fun _ => none
    let inner : Expr := .wrap (.link "u".toList) (.literal "a".toList) true
    let e : Expr := .wrap (.link "v".toList) (.node (.wrap .bold (.node inner) true)) true
    e.eval {} shelf = .ok ⟨.link, "[**[a](u)**](v)".toList, true⟩ ∧
    (∀ q ∈ e.inside, q.kind? shelf = some .link →
      ∃ b ∈ e.children, ∃ j ∈ [Kind.bold, .italic, .strikethrough],
        b.kind? shelf = some j ∧ q ∈ b.inside) ∧
    ∃ m, (Expr.wrap (.referenceLink "r".toList) (.node (.wrap .italic (.node e) true))
      true).eval {} shelf = .ok m := by
  intro shelf inner e
  have he : e.eval {} shelf = .ok ⟨.link, "[**[a](u)**](v)".toList, true⟩ := rfl
  obtain ⟨hparts, haround⟩ := eval_inside {} shelf e _ he
  have hself : e ∈ e.parts := Expr.mem_parts_iff.mpr (Or.inl rfl)
  refine ⟨he, fun q hq => ?_, ?_⟩
  · exact (((hparts e hself .link rfl).1 rfl).2 q hq).2
  · exact (haround true (Or.inl rfl)).1 rfl (.referenceLink "r".toList) rfl .italic (by decide)

/-- Strong text carries a link into a link, and emphasis struck text into struck
text. -/
theorem link_inside_link :
    let shelf : Shelf := fun _ => none
    let link (url : Text) (c : Operand) : Expr := .wrap (.link url) c true
    let struck (c : Operand) : Expr := .wrap .strikethrough c true
    let strong (c : Operand) : Expr := .wrap .bold c true
    let emphasis (c : Operand) : Expr := .wrap .italic c true
    let a : Operand := .literal "a".toList
    let outerLink := link "v".toList (.node (strong (.node (link "u".toList a))))
    let outerStruck := struck (.node (emphasis (.node (struck a))))
    outerLink.eval {} shelf = .ok ⟨.link, "[**[a](u)**](v)".toList, true⟩ ∧
    (link "u".toList a ∈ outerLink.inside ∧
      (link "u".toList a).kind? shelf = some .link) ∧
    outerStruck.eval {} shelf = .ok ⟨.strikethrough, "~~*~~a~~*~~".toList, true⟩ ∧
    struck a ∈ outerStruck.inside ∧ (struck a).kind? shelf = some .strikethrough := by
  intro shelf link struck strong emphasis a outerLink outerStruck
  have hgrandchild : ∀ p c q : Expr, p.children = [c] → c.children = [q] → q ∈ p.inside := by
    intro p c q hp hc
    refine Expr.mem_inside_iff_child.mpr (Or.inr ⟨c, hp ▸ List.mem_singleton_self c, ?_⟩)
    exact Expr.mem_inside_iff_child.mpr (Or.inl (hc ▸ List.mem_singleton_self q))
  exact ⟨rfl, ⟨hgrandchild _ _ _ rfl rfl, rfl⟩, rfl, hgrandchild _ _ _ rfl rfl, rfl⟩

end Markdown
