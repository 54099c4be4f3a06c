import Markdown.Proofs.Columns
import Markdown.Proofs.Containment
import Markdown.Proofs.Delimiters
import Markdown.Proofs.Fences
import Markdown.Proofs.Neighbours

/-!
# Exclamation marks before links

An image differs from a link by the exclamation mark in front of it, and an exclamation
mark is not escaped. Within one literal this does no harm, since its brackets are. At a
seam it does: text that ends in an exclamation mark, with a link behind it, is an image
to a reader.

`Profile` has what a seam depends on: how the text of an operand starts and ends as a
reader meets it, and whether an image opens in it. The profiles of the operands in a
sequence give the profile of a constructor around them, and from there induction on the
expression tells where images open.
-/

namespace Markdown

/-- An exclamation mark and a bracket stand next to each other, each by itself. -/
def Text.OpensImage (t : Text) : Prop :=
  [Glyph.bare '!', .bare '['] <:+: t.glyphs

instance (t : Text) : Decidable t.OpensImage :=
  inferInstanceAs (Decidable (_ <:+: _))

namespace Operand

/-- The literal text of an operand that is nothing but literal text. -/
def plain? : Operand → Option Text
  | .literal t => some t
  | .node (.leaf (.text t) _) => some t
  | _ => none

def isLink : Operand → Bool
  | .node (.wrap (.link _) _ _) => true
  | _ => false

theorem plain?_eq_some_iff {o : Operand} {t : Text} :
    o.plain? = some t ↔ o = .literal t ∨ ∃ escape, o = .node (.leaf (.text t) escape) := by
  constructor
  · fun_cases plain? o with
    | case1 l => exact fun h => Or.inl (congrArg literal (Option.some.inj h))
    | case2 l escape =>
        intro h
        obtain rfl : l = t := Option.some.inj h
        exact Or.inr ⟨escape, rfl⟩
    | case3 => exact nofun
  · rintro (rfl | ⟨escape, rfl⟩)
    · rfl
    · rfl

theorem isLink_iff {o : Operand} :
    o.isLink = true ↔ ∃ url content escape, o = .node (.wrap (.link url) content escape) := by
  constructor
  · fun_cases isLink o with
    | case1 url content escape => exact fun _ => ⟨url, content, escape, rfl⟩
    | case2 => exact nofun
  · rintro ⟨url, content, escape, rfl⟩
    rfl

/-- A link comes right behind text that ends in an exclamation mark. Text that is empty
does not count. -/
def MarksLink (o : Operand) : Prop :=
  Meets (·.plain?.bind List.getLast? = some '!') (·.isLink = true) (·.plain? = some [])
    o.elements

instance (o : Operand) : Decidable o.MarksLink :=
  inferInstanceAs (Decidable (Meets _ _ _ o.elements))

end Operand

/-- An image opens in what a constructor itself puts together: at a seam of its content,
or in its code. -/
def Expr.OpensImage : Expr → Prop
  | .leaf (.code t) _ => (codeSpan t).OpensImage
  | .wrap _ content _ => content.MarksLink
  | _ => False

/-- An image opens in a node of an operand. -/
def Operand.HoldsImage (o : Operand) : Prop :=
  ∃ e ∈ o.exprs, ∃ p ∈ e.parts, p.OpensImage

theorem Operand.holdsImage_node_iff {e : Expr} :
    (Operand.node e).HoldsImage ↔
      e.OpensImage ∨ ∃ c ∈ e.children, ∃ p ∈ c.parts, p.OpensImage := by
  have hself : (Operand.node e).HoldsImage ↔ ∃ p ∈ e.parts, p.OpensImage := by
    simp [HoldsImage, Operand.exprs]
  rw [hself, Expr.exists_parts_iff]

theorem Operand.mem_exprs_iff {e : Expr} {o : Operand} :
    e ∈ o.exprs ↔ ∃ d ∈ o.elements, e ∈ d.exprs := by
  cases o with
  | sequence os => exact mem_exprsOfAll_iff
  | literal t => simp [Operand.elements]
  | node c => simp [Operand.elements]

theorem Operand.holdsImage_iff_elements {o : Operand} :
    o.HoldsImage ↔ ∃ d ∈ o.elements, d.HoldsImage := by
  constructor
  · rintro ⟨e, he, himage⟩
    obtain ⟨d, hd, he⟩ := mem_exprs_iff.mp he
    exact ⟨d, hd, e, he, himage⟩
  · rintro ⟨d, hd, e, he, himage⟩
    exact ⟨e, mem_exprs_iff.mpr ⟨d, hd, he⟩, himage⟩

/-! ## Profiles -/

/-- What a reader meets at the ends of the text of an operand, and in it. -/
structure Profile (o : Operand) (t : Text) : Prop where
  closed : t.Closed
  opens : t.glyphs.head? = some (.bare '[') ↔ o.isLink = true
  ends : t.glyphs.getLast? = some (.bare '!') ↔ o.plain?.bind List.getLast? = some '!'
  blank : t.glyphs = [] ↔ o.plain? = some []
  image : t.OpensImage ↔ o.HoldsImage

theorem bracket_notMem_escape {ctx : Context} (h : ctx ≠ .code) (t : Text) :
    .bare '[' ∉ (ctx.escape t).glyphs := fun hmem =>
  (Context.inert_escape h t _ hmem).1 (by decide)

theorem escaped_bang_notMem_escape {ctx : Context} (h : ctx ≠ .code) (t : Text) :
    .escaped '!' ∉ (ctx.escape t).glyphs := by
  have hwrite : ∀ c, ∀ g ∈ (ctx.write c).glyphs, g ≠ .escaped '!' := by
    refine Context.write_induction (P := fun _ t => ∀ g ∈ t.glyphs, g ≠ .escaped '!') ?_ ?_
    · cases ctx <;> decide
    · intro c hc g hg
      have hbackslash : c ≠ '\\' := fun e => hc (e ▸ List.mem_cons_self)
      rw [Text.glyphs_cons hbackslash, Text.glyphs_nil, List.mem_singleton] at hg
      rw [hg]
      exact nofun
  have hguard : ∀ c ∈ ['#', '-', '+', '.'], Glyph.escaped c ≠ .escaped '!' := by decide
  exact fun hmem => Context.forall_glyphs_escape h nofun hguard hwrite t _ hmem rfl

theorem getLast?_glyphs_escape_iff {ctx : Context} (hcode : ctx ≠ .code) (hurl : ctx ≠ .url)
    {t : Text} :
    (ctx.escape t).glyphs.getLast? = some (.bare '!') ↔ t.getLast? = some '!' := by
  have hshown := unescape_escape_of_ne hcode hurl t
  rw [← Text.getLast?_plainEndings, ← hshown, Text.unescape]
  constructor
  · intro h
    obtain ⟨gs, hgs⟩ := List.getLast?_eq_some_iff.mp h
    rw [hgs, List.filterMap_append, List.getLast?_append]
    rfl
  · intro h
    rcases List.eq_nil_or_concat' (ctx.escape t).glyphs with hnil | ⟨gs, g, hgs⟩
    · rw [hnil] at h
      exact absurd h.symm (Option.some_ne_none _)
    · have hmem : g ∈ (ctx.escape t).glyphs := hgs ▸ List.mem_append_right gs List.mem_cons_self
      rw [hgs, List.filterMap_append, List.getLast?_append] at h
      rw [hgs, List.getLast?_concat]
      cases g with
      | bare c =>
          obtain rfl : c = '!' := Option.some.inj h
          rfl
      | escaped c =>
          obtain rfl : c = '!' := Option.some.inj h
          exact absurd hmem (escaped_bang_notMem_escape hcode t)
      | dangling => exact absurd hmem (Context.inert_escape hcode t).closed

/-- The profile of literal text, whether it is a literal or a node. -/
theorem Profile.escape {ctx : Context} (hcode : ctx ≠ .code) (hurl : ctx ≠ .url) {o : Operand}
    {t : Text} (hplain : o.plain? = some t) : Profile o (ctx.escape t) where
  closed := (Context.inert_escape hcode t).closed
  opens := by
    refine iff_of_false (fun h => bracket_notMem_escape hcode t (List.mem_of_head? h)) ?_
    obtain rfl | ⟨escape, rfl⟩ := Operand.plain?_eq_some_iff.mp hplain
    · exact Bool.false_ne_true
    · exact Bool.false_ne_true
  ends := by
    rw [getLast?_glyphs_escape_iff hcode hurl, hplain, Option.bind_some]
  blank := by
    rw [Text.glyphs_eq_nil_iff, escape_eq_nil_iff hcode hurl, hplain, Option.some.injEq]
  image := by
    refine iff_of_false (fun h => ?_) ?_
    · exact bracket_notMem_escape hcode t (h.subset (by simp))
    obtain rfl | ⟨escape, rfl⟩ := Operand.plain?_eq_some_iff.mp hplain
    · rintro ⟨e, he, -⟩
      exact absurd he List.not_mem_nil
    · rw [Operand.holdsImage_node_iff]
      rintro (h | ⟨c, hc, -⟩)
      · exact h
      · exact absurd hc List.not_mem_nil

theorem Profile.code (t : Text) (escape : Bool) :
    Profile (.node (.leaf (.code t) escape)) (codeSpan t) := by
  obtain ⟨r, hr⟩ := codeSpan_eq_cons t
  obtain ⟨r', hr'⟩ := codeSpan_eq_concat t
  have hhead : (codeSpan t).glyphs = .bare '\x60' :: Text.glyphs r := by
    rw [hr, Text.glyphs_cons (by decide)]
  obtain ⟨gs, g, hgs, hg⟩ := Text.exists_glyphs_concat (c := '\x60') (by decide) r'
  rw [← hr'] at hgs
  have hplain : (Operand.node (.leaf (.code t) escape)).plain? = none := rfl
  constructor
  case closed => exact hr' ▸ Text.closed_concat (by decide) r'
  case opens =>
    rw [hhead, List.head?_cons]
    exact iff_of_false nofun Bool.false_ne_true
  case ends =>
    rw [hgs, List.getLast?_concat, hplain]
    refine iff_of_false ?_ nofun
    rintro ⟨rfl⟩
    exact absurd hg (by decide)
  case blank => exact iff_of_false (by rw [hhead]; exact nofun) nofun
  case image =>
    rw [Operand.holdsImage_node_iff]
    refine (or_iff_left ?_).symm
    rintro ⟨c, hc, -⟩
    exact absurd hc List.not_mem_nil

/-! ## Constructors around content -/

section

variable {w : Writer} {around : Wrap}

def spanMarks : List Text :=
  Writer.strongMarks ++ Writer.emphasisMarks ++ [['~', '~']]

/-- A constructor whose kind can stand within a link writes the same mark on both sides of
its content, or is a link. -/
theorem Wrap.marks_of_withinLink (hw : w.Valid) (h : around.kind ∈ Kinds.withinLink) :
    (∃ m ∈ spanMarks, (around.frame w).opening = m ∧ (around.frame w).closing = m ∧
        ∀ url, around ≠ .link url) ∨ ∃ url, around = .link url := by
  cases around with
  | bold =>
      have hmark : w.strong ∈ spanMarks := List.mem_append_left _ (List.mem_append_left _ hw.1)
      exact Or.inl ⟨w.strong, hmark, rfl, rfl, nofun⟩
  | italic =>
      have hmark : w.emphasis ∈ spanMarks :=
        List.mem_append_left _ (List.mem_append_right _ hw.2.1)
      exact Or.inl ⟨w.emphasis, hmark, rfl, rfl, nofun⟩
  | strikethrough => exact Or.inl ⟨['~', '~'], by decide, rfl, rfl, nofun⟩
  | link url => exact Or.inr ⟨url, rfl⟩
  | referenceLink label => exact absurd h (show Kind.referenceLink ∉ Kinds.withinLink by decide)
  | paragraph => exact absurd h (by decide)
  | heading level => exact absurd h (show Kind.heading ∉ Kinds.withinLink by decide)
  | blockquote => exact absurd h (by decide)

/-- What a constructor writes before its content starts with a bracket only for a link,
and has no exclamation mark. -/
theorem Wrap.opening_glyphs (hw : w.Valid) (h : around.kind ∈ Kinds.withinLink) :
    (around.frame w).opening.glyphs ≠ [] ∧ .bare '!' ∉ (around.frame w).opening.glyphs ∧
      ((around.frame w).opening.glyphs.head? = some (.bare '[') ↔
        ∃ url, around = .link url) := by
  have hmarks : ∀ m ∈ spanMarks, m.glyphs ≠ [] ∧ .bare '!' ∉ m.glyphs ∧
      m.glyphs.head? ≠ some (.bare '[') := by
    decide
  rcases Wrap.marks_of_withinLink hw h with ⟨m, hm, hopening, -, hlink⟩ | ⟨url, rfl⟩
  · obtain ⟨hne, hbang, hhead⟩ := hmarks m hm
    rw [hopening]
    exact ⟨hne, hbang, iff_of_false hhead fun ⟨url, heq⟩ => hlink url heq⟩
  · have hopening : ((Wrap.link url).frame w).opening.glyphs = [.bare '['] := rfl
    rw [hopening]
    exact ⟨List.cons_ne_nil _ _, by decide, iff_of_true rfl ⟨url, rfl⟩⟩

/-- What a constructor writes behind its content has no bracket that opens, and no
exclamation mark at its end. -/
theorem Wrap.closing_glyphs (hw : w.Valid) (h : around.kind ∈ Kinds.withinLink) :
    .bare '[' ∉ (around.frame w).closing.glyphs ∧
      ∃ g, (around.frame w).closing.glyphs.getLast? = some g ∧ g ≠ .bare '!' := by
  have hmarks : ∀ m ∈ spanMarks, .bare '[' ∉ m.glyphs ∧
      m.glyphs.getLast? ∈ [some (.bare '*'), some (.bare '_'), some (.bare '~')] := by
    decide
  rcases Wrap.marks_of_withinLink hw h with ⟨m, hm, -, hclosing, -⟩ | ⟨url, rfl⟩
  · obtain ⟨hbracket, hlast⟩ := hmarks m hm
    rw [hclosing]
    refine ⟨hbracket, ?_⟩
    simp only [List.mem_cons, List.not_mem_nil, or_false] at hlast
    rcases hlast with hlast | hlast | hlast <;> exact ⟨_, hlast, nofun⟩
  · have hopen : Text.Closed [']', '('] := by decide
    have hurl : (Context.url.escape url).Closed := (Context.inert_escape (by decide) url).closed
    have hclosing : ((Wrap.link url).frame w).closing.glyphs =
        [.bare ']', .bare '('] ++ (Context.url.escape url).glyphs ++ [.bare ')'] := by
      rw [show ((Wrap.link url).frame w).closing =
        [']', '('] ++ Context.url.escape url ++ [')'] from rfl,
        Text.glyphs_append (hopen.append hurl), Text.glyphs_append hopen]
      rfl
    rw [hclosing, List.getLast?_concat]
    refine ⟨?_, .bare ')', rfl, by decide⟩
    have hbracket := bracket_notMem_escape (show Context.url ≠ .code by decide) url
    simp [hbracket]

end

/-- **Images in a sequence.** An image opens in one of the pieces, or where two pieces
meet. -/
theorem Profile.opensImage_flatMap {α : Type} {f : α → Text} {o : Operand} {xs : List α}
    (h : List.Forall₂ (fun d x => Profile d (f x)) o.elements xs) :
    Text.Closed (xs.flatMap f) ∧
      (Text.OpensImage (xs.flatMap f) ↔ o.HoldsImage ∨ o.MarksLink) := by
  have hclosed : ∀ x ∈ xs, (f x).Closed := by
    intro x hx
    obtain ⟨d, -, hd⟩ := exists_mem_of_forall₂ h hx
    exact hd.closed
  refine ⟨Text.closed_flatMap hclosed, ?_⟩
  have himages : (∃ x ∈ xs, (f x).OpensImage) ↔ ∃ d ∈ o.elements, d.HoldsImage :=
    exists_mem_iff_of_forall₂ (h.imp fun _ _ hd => hd.image)
  rw [Text.OpensImage, Text.glyphs_flatMap xs hclosed, pair_infix_flatMap_iff,
    Operand.holdsImage_iff_elements, ← himages]
  exact or_congr_right
    (meets_iff_of_forall₂ (h.imp fun _ _ hd => ⟨hd.ends.symm, hd.opens.symm, hd.blank.symm⟩)).symm

section

variable {w : Writer} {around : Wrap} {body : Text}

theorem Wrap.opensImage_frame (hw : w.Valid) (h : around.kind ∈ Kinds.withinLink)
    (hbody : body.Closed) :
    Text.OpensImage ((around.frame w).opening ++ body ++ (around.frame w).closing) ↔
      body.OpensImage := by
  have hopen : (around.frame w).opening.Closed := (around.reads_opening hw).1
  obtain ⟨-, hbang, -⟩ := Wrap.opening_glyphs hw h
  obtain ⟨hbracket, -⟩ := Wrap.closing_glyphs hw h
  rw [Text.OpensImage, Text.glyphs_append (hopen.append hbody), Text.glyphs_append hopen,
    pair_infix_append_iff, pair_infix_append_iff]
  constructor
  · rintro ((himage | ⟨hlast, -⟩ | himage) | ⟨-, hhead⟩ | himage)
    · exact absurd (himage.subset List.mem_cons_self) hbang
    · exact absurd (List.mem_of_getLast? hlast) hbang
    · exact himage
    · exact absurd (List.mem_of_head? hhead) hbracket
    · exact absurd (himage.subset (by simp)) hbracket
  · exact fun himage => Or.inl (Or.inr (Or.inr himage))

theorem Profile.wrap (hw : w.Valid) (h : around.kind ∈ Kinds.withinLink) {content : Operand}
    {escape : Bool} (hbody : body.Closed)
    (himage : body.OpensImage ↔ content.HoldsImage ∨ content.MarksLink) :
    Profile (.node (.wrap around content escape))
      ((around.frame w).opening ++ body ++ (around.frame w).closing) := by
  have hopen : (around.frame w).opening.Closed := (around.reads_opening hw).1
  have hclose : (around.frame w).closing.Closed := (around.reads_closing hw).1
  obtain ⟨hne, -, hhead⟩ := Wrap.opening_glyphs hw h
  obtain ⟨-, g, hlast, hg⟩ := Wrap.closing_glyphs hw h
  have hglyphs : Text.glyphs ((around.frame w).opening ++ body ++ (around.frame w).closing) =
      (around.frame w).opening.glyphs ++ body.glyphs ++ (around.frame w).closing.glyphs := by
    rw [Text.glyphs_append (hopen.append hbody), Text.glyphs_append hopen]
  have hplain : (Operand.node (.wrap around content escape)).plain? = none := rfl
  constructor
  case closed => exact (hopen.append hbody).append hclose
  case opens =>
    have hlink : (Operand.node (.wrap around content escape)).isLink = true ↔
        ∃ url, around = .link url := by
      cases around <;> simp [Operand.isLink]
    rw [hglyphs, List.append_assoc, List.head?_append_of_ne_nil _ hne, hhead, hlink]
  case ends =>
    rw [hglyphs, List.getLast?_append, hlast, hplain]
    refine iff_of_false ?_ nofun
    rintro ⟨rfl⟩
    exact hg rfl
  case blank =>
    rw [hglyphs, hplain]
    refine iff_of_false ?_ nofun
    intro hnil
    exact hne (List.append_eq_nil_iff.mp (List.append_eq_nil_iff.mp hnil).1).1
  case image =>
    rw [Wrap.opensImage_frame hw h hbody, himage, Operand.holdsImage_node_iff, or_comm]
    rfl

end

/-! ## Expressions -/

section

variable {w : Writer} {shelf : Shelf}

/-- The items of a content have the profiles of the elements that they are made from, if
the nodes among them have. -/
theorem Profile.items (slot : Slot) (hcode : slot.context ≠ .code) (hurl : slot.context ≠ .url)
    {o : Operand} {c : Content} (ho : o.eval w shelf = .ok c) (hflat : c.Flat)
    (hnodes : ∀ e ∈ o.exprs, ∀ n, Makes w shelf e n → Profile (.node e) n.text) :
    List.Forall₂ (fun d i => Profile d (slot.write true i)) o.elements c.leaves := by
  refine forall₂_imp_of_mem (Operand.eval_leaves ho hflat) fun d hd i hi => ?_
  cases d with
  | literal t =>
      obtain rfl : Item.literal t = i := Content.item.inj (Except.ok.inj hi)
      exact Profile.escape hcode hurl rfl
  | node e =>
      obtain ⟨n, hn, hi⟩ := map_eq_ok_iff.mp hi
      obtain rfl : Item.node n = i := Content.item.inj hi
      exact hnodes e (Operand.mem_exprs_iff.mpr ⟨_, hd, List.mem_singleton_self e⟩) n hn
  | sequence os =>
      obtain ⟨cs, -, hi⟩ := map_eq_ok_iff.mp hi
      exact absurd hi nofun

theorem ListStyle.kind_notMem_withinLink (style : ListStyle) :
    style.kind ∉ Kinds.withinLink := by
  cases style with
  | bullets => exact show Kind.bulletList ∉ Kinds.withinLink by decide
  | numbers start => exact show Kind.orderedList ∉ Kinds.withinLink by decide
  | boxes checks => exact show Kind.checklist ∉ Kinds.withinLink by decide

theorem Profile.of_make_leaf {leaf : Leaf} {n : Node} (h : leaf.make w true = .ok n)
    (hn : n.kind ∈ Kinds.withinLink) : Profile (.node (.leaf leaf true)) n.text := by
  obtain ⟨-, -, rfl⟩ := Leaf.make_eq_ok_iff.mp h
  cases leaf with
  | text t =>
      have htext : [] ++ Context.plain.escape t ++ [] = Context.plain.escape t :=
        List.append_nil _
      exact htext ▸ @Profile.escape .plain (by decide) (by decide) _ t rfl
  | code t =>
      have htext : [] ++ codeSpan t ++ [] = codeSpan t := List.append_nil _
      exact htext ▸ Profile.code t true
  | image alt url => exact absurd hn (show Kind.image ∉ Kinds.withinLink by decide)
  | codeBlock t language => exact absurd hn (show Kind.codeBlock ∉ Kinds.withinLink by decide)

theorem Profile.of_make_wrap (hw : w.Valid) {around : Wrap} {content : Operand} {c : Content}
    {n : Node} (hc : content.eval w shelf = .ok c) (h : around.make w c true = .ok n)
    (hkind : around.kind ∈ Kinds.withinLink)
    (hnodes : ∀ e ∈ content.exprs, ∀ m, Makes w shelf e m → Profile (.node e) m.text) :
    Profile (.node (.wrap around content true)) n.text := by
  obtain ⟨-, -, hflat, -, rfl⟩ := Wrap.make_eq_ok_iff.mp h
  have hquotation : around ≠ .blockquote := by
    rintro rfl
    exact absurd hkind (by decide)
  have hcode : (around.frame w).context ≠ .code := by
    rw [Wrap.context_frame]
    decide
  have hurl : (around.frame w).context ≠ .url := by
    rw [Wrap.context_frame]
    decide
  obtain ⟨hclosed, himage⟩ :=
    Profile.opensImage_flatMap (Profile.items (around.frame w).toSlot hcode hurl hc hflat hnodes)
  rw [Wrap.finish_frame hquotation]
  exact Profile.wrap hw hkind hclosed himage

/-- **The profile of what can stand within a link**, if everything in it is escaped. -/
theorem Profile.of_makes (hw : w.Valid) {e : Expr} {n : Node} (h : Makes w shelf e n)
    (hn : n.kind ∈ Kinds.withinLink) (hescape : ∀ p ∈ e.parts, p.escape? = some true) :
    Profile (.node e) n.text := by
  induction e using Expr.induction generalizing n with
  | step e ih =>
    obtain ⟨hself, hchildren⟩ := Expr.forall_parts_iff.mp hescape
    cases e with
    | leaf leaf escape =>
        obtain rfl : escape = true := Option.some.inj hself
        exact Profile.of_make_leaf (makes_leaf_iff.mp h) hn
    | wrap around content escape =>
        obtain rfl : escape = true := Option.some.inj hself
        obtain ⟨c, hc, hmake⟩ := makes_wrap_iff.mp h
        have hkind : around.kind = n.kind := Option.some.inj (kind_of_makes h)
        refine Profile.of_make_wrap hw hc hmake (hkind ▸ hn) fun d hd m hm => ?_
        have haccepted := child_accepted h hd (kind_of_makes hm)
        exact ih d hd hm (Kinds.closed_withinLink.mem hn haccepted) (hchildren d hd)
    | list style items escape =>
        have hkind : style.kind = n.kind := Option.some.inj (kind_of_makes h)
        exact absurd (hkind ▸ hn) (ListStyle.kind_notMem_withinLink style)
    | table headers rows alignments escape =>
        have hkind : Kind.table = n.kind := Option.some.inj (kind_of_makes h)
        exact absurd (hkind ▸ hn) (by decide)
    | fixed node => exact absurd hself nofun
    | document children => exact absurd hself nofun
    | stored name => exact absurd hself nofun

/-! ## Sequences of text and links -/

theorem opensImage_escapeBars_iff {t : Text} : (escapeBars t).OpensImage ↔ t.OpensImage := by
  have hsame : ∀ c, c ≠ '|' → ∀ g : Glyph, g.hideBar = .bare c ↔ g = .bare c := by
    intro c hc g
    fun_cases Glyph.hideBar g with
    | case1 => exact iff_of_false Glyph.noConfusion fun h => hc (Glyph.bare.inj h).symm
    | case2 => rfl
  rw [Text.OpensImage, glyphs_escapeBars,
    pair_infix_map_iff (hsame '!' (by decide)) (hsame '[' (by decide))]
  rfl

theorem kind_of_plain_or_link {o : Operand} (ho : o.plain?.isSome = true ∨ o.isLink = true)
    {e : Expr} (he : e ∈ o.exprs) {n : Node} (h : Makes w shelf e n) :
    n.kind ∈ [Kind.text, .link] := by
  have hkind := kind_of_makes h
  rcases ho with hplain | hlink
  · obtain ⟨t, ht⟩ := Option.isSome_iff_exists.mp hplain
    obtain rfl | ⟨escape, rfl⟩ := Operand.plain?_eq_some_iff.mp ht
    · exact absurd he List.not_mem_nil
    · obtain rfl := List.mem_singleton.mp he
      rw [← Option.some.inj hkind]
      exact show Kind.text ∈ [Kind.text, .link] by decide
  · obtain ⟨url, content, escape, rfl⟩ := Operand.isLink_iff.mp hlink
    obtain rfl := List.mem_singleton.mp he
    rw [← Option.some.inj hkind]
    exact show Kind.link ∈ [Kind.text, .link] by decide

theorem Operand.isItem_of_plain_or_link {o : Operand}
    (ho : o.plain?.isSome = true ∨ o.isLink = true) : o.isItem = true := by
  cases o with
  | sequence os => exact absurd ho (by simp [plain?, isLink])
  | _ => rfl

end

/-- **Exclamation marks before links.** Around a sequence of literals, text and links, all
of them escaped, emphasis and struck text are made. In their text, and in that of a cell,
an image opens exactly if a link comes right behind text that ends in an exclamation mark,
in the sequence or in the content of a node in it, or if the code of a node in it reads so
by itself. -/
theorem opensImage_sequence_iff {w : Writer} (hw : w.Valid) {shelf : Shelf} {os : List Operand}
    {c : Content} (hos : ∀ o ∈ os, o.plain?.isSome = true ∨ o.isLink = true)
    (hescape : ∀ e ∈ exprsOfAll os, ∀ p ∈ e.parts, p.escape? = some true)
    (hc : (Operand.sequence os).eval w shelf = .ok c) :
    (∀ around ∈ [Wrap.bold, .italic, .strikethrough], ∃ n,
      around.make w c true = .ok n ∧
        (n.text.OpensImage ↔
          (Operand.sequence os).MarksLink ∨ (Operand.sequence os).HoldsImage)) ∧
    ∀ row column p, cellPiece true row column c = .ok p →
      (p.text.OpensImage ↔
        (Operand.sequence os).MarksLink ∨ (Operand.sequence os).HoldsImage) := by
  have hflat : c.Flat := (flat_eval_iff hc).mpr fun o ho =>
    Operand.isItem_of_plain_or_link (hos o ho)
  have hkind : ∀ e ∈ exprsOfAll os, ∀ n, Makes w shelf e n → n.kind ∈ [Kind.text, .link] := by
    intro e he n hn
    obtain ⟨o, ho, he⟩ := mem_exprsOfAll_iff.mp he
    exact kind_of_plain_or_link (hos o ho) he hn
  have hnodes : ∀ e ∈ exprsOfAll os, ∀ n, Makes w shelf e n → Profile (.node e) n.text := by
    intro e he n hn
    have hwithin : ∀ k ∈ [Kind.text, .link], k ∈ Kinds.withinLink := by decide
    exact Profile.of_makes hw hn (hwithin _ (hkind e he n hn)) (hescape e he)
  constructor
  · intro around haround
    have haccepts : ∀ around ∈ [Wrap.bold, .italic, .strikethrough], around.kind ≠ .heading ∧
        around.kind ∈ Kinds.withinLink ∧ ∀ k ∈ [Kind.text, .link], k ∈ around.kind.accepts := by
      decide
    obtain ⟨hheading, hwithin, haccepts⟩ := haccepts around haround
    have hadmits : ∀ i ∈ c.leaves, (around.frame w).Admits i := by
      rw [Slot.admits_iff, Wrap.accepts_frame]
      intro n hn
      obtain ⟨e, he, hmakes⟩ := exists_mem_of_forall₂ (Operand.eval_nodes hc) hn
      exact haccepts _ (hkind e he n hmakes)
    have hmake := Wrap.make_eq_ok_iff.mpr
      ⟨Wrap.check_eq_ok hheading, Or.inl rfl, hflat, hadmits, rfl⟩
    refine ⟨_, hmake, ?_⟩
    rw [(Profile.of_make_wrap hw hc hmake hwithin hnodes).image, Operand.holdsImage_node_iff]
    rfl
  · intro row column p hp
    obtain ⟨-, rfl⟩ := cellPiece_eq_ok_iff.mp hp
    have hitems := Profile.items cellSlot (by decide) (by decide) hc hflat hnodes
    rw [cellOf, opensImage_escapeBars_iff, cellBody, (Profile.opensImage_flatMap hitems).2,
      or_comm]

/-- A link between exclamation marks that do not touch it, with one at the end of its
text. No image opens, neither in strong text nor in a cell. -/
theorem opensImage_sequence_apart :
    let shelf : Shelf := fun _ => none
    let link : Expr := .wrap (.link "u".toList) (.literal "[!".toList) true
    let os := [Operand.literal "![".toList, .node link, .literal "!".toList]
    let c : Content := .sequence [.literal "![".toList,
      .node ⟨.link, "[\\[!](u)".toList, true⟩, .literal "!".toList]
    Writer.Valid {} ∧ (∀ o ∈ os, o.plain?.isSome = true ∨ o.isLink = true) ∧
    (∀ e ∈ exprsOfAll os, ∀ p ∈ e.parts, p.escape? = some true) ∧
    (Operand.sequence os).eval {} shelf = .ok c ∧
    ¬((Operand.sequence os).MarksLink ∨ (Operand.sequence os).HoldsImage) ∧
    (∃ n, Wrap.bold.make {} c true = .ok n ∧ ¬n.text.OpensImage) ∧
    ∃ p, cellPiece true none 1 c = .ok p ∧ ¬p.text.OpensImage := by
  intro shelf link os c
  have hos : ∀ o ∈ os, o.plain?.isSome = true ∨ o.isLink = true := by
    simp [os, link, Operand.plain?, Operand.isLink]
  have hescape : ∀ e ∈ exprsOfAll os, ∀ p ∈ e.parts, p.escape? = some true := by
    intro e he p hp
    obtain rfl : e = link := List.mem_singleton.mp he
    obtain rfl : p = link := List.mem_singleton.mp hp
    rfl
  have hc : (Operand.sequence os).eval {} shelf = .ok c := rfl
  have hapart : ¬((Operand.sequence os).MarksLink ∨ (Operand.sequence os).HoldsImage) := by
    rintro (hmarks | ⟨e, he, p, hp, himage⟩)
    · exact absurd hmarks (by decide)
    · obtain rfl : e = link := List.mem_singleton.mp he
      obtain rfl : p = link := List.mem_singleton.mp hp
      exact absurd himage (show ¬(Operand.literal "[!".toList).MarksLink by decide)
  have hcell : ∃ p, cellPiece true none 1 c = .ok p := ⟨_, rfl⟩
  have hvalid := Writer.valid_default false
  obtain ⟨hspans, hcells⟩ := opensImage_sequence_iff hvalid hos hescape hc
  obtain ⟨n, hn, hbold⟩ := hspans .bold List.mem_cons_self
  obtain ⟨p, hp⟩ := hcell
  exact ⟨hvalid, hos, hescape, hc, hapart, ⟨n, hn, mt hbold.mp hapart⟩,
    p, hp, mt (hcells none 1 p hp).mp hapart⟩

/-- An exclamation mark and a link, in strong text and in a cell. A reader takes the link
for an image. -/
theorem link_opens_image :
    let shelf : Shelf := fun _ => none
    let link : Expr := .wrap (.link "u".toList) (.literal "a".toList) true
    let content : Operand := .sequence [.literal "!".toList, .node link]
    (Expr.wrap .bold content true).eval {} shelf =
      .ok ⟨.bold, "**![a](u)**".toList, true⟩ ∧
    Text.OpensImage "**![a](u)**".toList ∧
    (Expr.table [content] [] [] true).eval {} shelf =
      .ok ⟨.table, "![a](u)\n---\n\n".toList, true⟩ ∧
    Text.OpensImage "![a](u)".toList :=
  ⟨rfl, by decide, rfl, by decide⟩

end Markdown
