import Markdown.Proofs.Escaping
import Markdown.Proofs.Frames

/-!
# Delimiters

What a reader acts upon in a node is what its constructors have written, and
nothing else. A piece of a node is read to some delimiters if it leaves no
backslash open and has them, in order, by themselves (`Reads`). Pieces that are
read one by one are read together (`Reads.append`); literals are read to
nothing, since escaped text is inert; and what a constructor writes around its
content is read to its own delimiters. Induction on the expression does the rest.
-/

namespace Markdown

/-- A reader takes in a text to its end and acts upon certain delimiters. -/
def Reads (t ds : Text) : Prop :=
  t.Closed ∧ t.active.filter (· ∈ delimiters) = ds

instance (t ds : Text) : Decidable (Reads t ds) :=
  inferInstanceAs (Decidable (_ ∧ _))

namespace Reads

theorem nil : Reads [] [] :=
  ⟨Text.closed_nil, rfl⟩

theorem append {a b ds es : Text} (ha : Reads a ds) (hb : Reads b es) :
    Reads (a ++ b) (ds ++ es) := by
  obtain ⟨hclosed, rfl⟩ := ha
  obtain ⟨hclosed', rfl⟩ := hb
  refine ⟨hclosed.append hclosed', ?_⟩
  rw [Text.active_append hclosed, List.filter_append]

theorem of_inert {ctx : Context} {t : Text} (h : t.Inert ctx) : Reads t [] := by
  refine ⟨h.closed, List.filter_eq_nil_iff.mpr fun c hc => ?_⟩
  simpa using (h.of_mem_active hc).1

theorem of_neutral {t : Text} (h : ∀ c ∈ t, c ≠ '\\' ∧ c ∉ delimiters) : Reads t [] := by
  have hbackslash : '\\' ∉ t := fun hmem => (h _ hmem).1 rfl
  refine ⟨Text.closed_of_backslash_notMem hbackslash, ?_⟩
  rw [Text.active, Text.glyphs_eq_map hbackslash, List.filterMap_map, List.filter_eq_nil_iff]
  intro c hc
  have hmem : c ∈ t := by simpa [Function.comp_def, Glyph.active?] using hc
  simpa using (h c hmem).2

theorem escape {ctx : Context} (h : ctx ≠ .code) (t : Text) : Reads (ctx.escape t) [] :=
  of_inert (Context.inert_escape h t)

theorem items {slot : Slot} (hslot : slot.context ≠ .code) {is : List Item}
    {dss : List Text}
    (h : List.Forall₂ (fun ds n => Reads n.text ds) dss (is.filterMap Item.node?)) :
    Reads (is.flatMap (slot.write true)) dss.flatten := by
  induction is generalizing dss with
  | nil =>
      obtain rfl := List.forall₂_nil_right_iff.mp h
      exact nil
  | cons i is ih =>
      rw [List.flatMap_cons]
      cases i with
      | literal t =>
          have hliteral : Reads (slot.write true (.literal t)) [] := escape hslot t
          exact hliteral.append (ih h)
      | node n =>
          obtain ⟨ds, dss, hn, hrest, rfl⟩ := List.forall₂_cons_right_iff.mp h
          exact append hn (ih hrest)

end Reads

/-! ## Constructors -/

/-- The delimiters that a constructor writes before its content. -/
def Wrap.before (w : Writer) : Wrap → Text
  | .bold => w.strong
  | .italic => w.emphasis
  | .strikethrough => ['~', '~']
  | .link _ => ['[']
  | .referenceLink _ => ['[']
  | .paragraph => []
  | .heading _ => []
  | .blockquote => []

def Wrap.after (w : Writer) : Wrap → Text
  | .bold => w.strong
  | .italic => w.emphasis
  | .strikethrough => ['~', '~']
  | .link _ => [']', '(', ')']
  | .referenceLink _ => [']', '[', ']']
  | .paragraph => []
  | .heading _ => []
  | .blockquote => []

section Wrap

variable {w : Writer}

theorem reads_strong (hw : w.Valid) : Reads w.strong w.strong := by
  have hmarks : ∀ m ∈ Writer.strongMarks, Reads m m := by decide
  exact hmarks w.strong hw.1

theorem reads_emphasis (hw : w.Valid) : Reads w.emphasis w.emphasis := by
  have hmarks : ∀ m ∈ Writer.emphasisMarks, Reads m m := by decide
  exact hmarks w.emphasis hw.2.1

theorem Wrap.reads_opening (hw : w.Valid) (wrap : Wrap) :
    Reads (wrap.frame w).opening (wrap.before w) := by
  cases wrap with
  | bold => exact reads_strong hw
  | italic => exact reads_emphasis hw
  | strikethrough =>
      show Reads ['~', '~'] ['~', '~']
      decide
  | link url =>
      show Reads ['['] ['[']
      decide
  | referenceLink label =>
      show Reads ['['] ['[']
      decide
  | paragraph => exact Reads.nil
  | heading level =>
      apply Reads.of_neutral
      intro c hc
      rcases List.mem_append.mp hc with hc | hc
      · obtain rfl := List.eq_of_mem_replicate hc
        decide
      · obtain rfl := List.mem_singleton.mp hc
        decide
  | blockquote => exact Reads.nil

theorem Wrap.reads_closing (hw : w.Valid) (wrap : Wrap) :
    Reads (wrap.frame w).closing (wrap.after w) := by
  have hdestination : ∀ t, Reads (Context.url.escape t) [] := Reads.escape (by decide)
  have hblank : Reads blankLine [] := by decide
  cases wrap with
  | bold => exact reads_strong hw
  | italic => exact reads_emphasis hw
  | strikethrough =>
      show Reads ['~', '~'] ['~', '~']
      decide
  | link url =>
      have hopen : Reads [']', '('] [']', '('] := by decide
      have hclose : Reads [')'] [')'] := by decide
      exact (hopen.append (hdestination url)).append hclose
  | referenceLink label =>
      have hopen : Reads [']', '['] [']', '['] := by decide
      have hclose : Reads [']'] [']'] := by decide
      exact (hopen.append (hdestination label)).append hclose
  | paragraph => exact hblank
  | heading level => exact hblank
  | blockquote => exact hblank

/-- A constructor of running text. A quotation is not, since it breaks up the
lines of its content. -/
def Wrap.isProse : Wrap → Bool
  | .blockquote => false
  | _ => true

/-- A constructor of running text is read to what its nodes are read to, between
the delimiters of its own. -/
theorem Wrap.reads_make (hw : w.Valid) {wrap : Wrap} (hprose : wrap.isProse = true)
    {c : Content} {dss : List Text}
    (hnodes : List.Forall₂ (fun ds m => Reads m.text ds) dss c.nodes) {n : Node}
    (h : wrap.make w c true = .ok n) :
    Reads n.text (wrap.before w ++ dss.flatten ++ wrap.after w) := by
  obtain ⟨-, -, -, -, rfl⟩ := Wrap.make_eq_ok_iff.mp h
  have hcontext : (wrap.frame w).context ≠ .code := by
    rw [Wrap.context_frame]
    decide
  have hquotation : wrap ≠ .blockquote := by
    rintro rfl
    exact Bool.false_ne_true hprose
  have hbody := Reads.items hcontext hnodes
  rw [Wrap.finish_frame hquotation]
  exact ((wrap.reads_opening hw).append hbody).append (wrap.reads_closing hw)

/-- The delimiters that a constructor writes around literal text. -/
def Leaf.delimiters : Leaf → Text
  | .image .. => ['[', ']', '(', ')']
  | _ => []

/-- A constructor of running text. Code is not, since it shows its literal as it
is. -/
def Leaf.isProse : Leaf → Bool
  | .text _ => true
  | .image .. => true
  | _ => false

theorem Leaf.reads_make {leaf : Leaf} (hprose : leaf.isProse = true) {n : Node}
    (h : leaf.make w true = .ok n) : Reads n.text leaf.delimiters := by
  obtain ⟨-, -, rfl⟩ := Leaf.make_eq_ok_iff.mp h
  have hliteral : ∀ t, Reads (Context.plain.escape t) [] := Reads.escape (by decide)
  cases leaf with
  | text t => exact (Reads.nil.append (hliteral t)).append Reads.nil
  | image alt url =>
      have hopen : Reads ['!', '['] ['['] := by decide
      have hmiddle : Reads [']', '('] [']', '('] := by decide
      have hurl : Reads (Context.url.escape url) [] := Reads.escape (by decide) url
      have hclose : Reads [')'] [')'] := by decide
      exact (hopen.append (hliteral alt)).append ((hmiddle.append hurl).append hclose)
  | code t => exact absurd hprose Bool.false_ne_true
  | codeBlock t language => exact absurd hprose Bool.false_ne_true

end Wrap

/-! ## Expressions -/

/-- A constructor of running text that escapes its literals. -/
def Expr.isProse : Expr → Bool
  | .fixed node => node = .lineBreak
  | .leaf literal escape => literal.isProse && escape
  | .wrap around _ escape => around.isProse && escape
  | _ => false

/-- The delimiters that the constructors of an expression write, from left to
right. -/
def Expr.delimiters (w : Writer) : Expr → Text :=
  fold fun e inner =>
    match e with
    | .leaf literal _ => literal.delimiters
    | .wrap around _ _ => around.before w ++ inner.flatten ++ around.after w
    | _ => inner.flatten

theorem delimiters_wrap (w : Writer) (wrap : Wrap) (content : Operand) (escape : Bool) :
    (Expr.wrap wrap content escape).delimiters w =
      wrap.before w ++ (content.exprs.map (Expr.delimiters w)).flatten ++ wrap.after w := by
  rw [Expr.delimiters, Expr.fold_eq]
  rfl

theorem reads_eval {w : Writer} (hw : w.Valid) {shelf : Shelf} {e : Expr} {n : Node}
    (hprose : ∀ p ∈ e.parts, p.isProse = true) (h : Makes w shelf e n) :
    Reads n.text (e.delimiters w) := by
  induction e using Expr.induction generalizing n with
  | step e ih =>
    obtain ⟨hown, hinner⟩ := Expr.forall_parts_iff.mp hprose
    cases e with
    | fixed node =>
        obtain rfl : node = .lineBreak := of_decide_eq_true hown
        obtain rfl := makes_fixed_iff.mp h
        show Reads [' ', ' ', '\n'] []
        decide
    | leaf leaf escape =>
        obtain ⟨hleaf, rfl⟩ := Bool.and_eq_true_iff.mp hown
        exact Leaf.reads_make hleaf (makes_leaf_iff.mp h)
    | wrap wrap content escape =>
        obtain ⟨hwrap, rfl⟩ := Bool.and_eq_true_iff.mp hown
        obtain ⟨c, hc, hmake⟩ := makes_wrap_iff.mp h
        have hnodes : List.Forall₂ (fun ds m => Reads m.text ds)
            (content.exprs.map (Expr.delimiters w)) c.nodes := by
          rw [List.forall₂_map_left_iff]
          apply forall₂_imp_of_mem (Operand.eval_nodes hc)
          exact fun child hchild m hm => ih child hchild (hinner child hchild) hm
        rw [delimiters_wrap]
        exact Wrap.reads_make hw hwrap hnodes hmake
    | list style items escape => exact absurd hown Bool.false_ne_true
    | table headers rows alignments escape => exact absurd hown Bool.false_ne_true
    | document children => exact absurd hown Bool.false_ne_true
    | stored name => exact absurd hown Bool.false_ne_true

/-- **Only constructors write delimiters.** Running text has no open backslash at
its end, and what a reader acts upon in it are the delimiters of its
constructors, all of them and in their order. -/
theorem active_eval {w : Writer} (hw : w.Valid) {shelf : Shelf} {e : Expr} {n : Node}
    (hprose : ∀ p ∈ e.parts, p.isProse = true) (h : e.eval w shelf = .ok n) :
    n.text.Closed ∧ n.text.active.filter (· ∈ delimiters) = e.delimiters w :=
  reads_eval hw hprose h

/-- Literals that end on a backslash or are delimiters themselves, next to the
delimiters of the constructors. -/
theorem active_eval_backslashes :
    let w : Writer := { strong := "__".toList }
    let shelf : Shelf := fun _ => none
    let e : Expr := .wrap .paragraph (.sequence [.literal "*\\".toList,
      .node (.wrap .bold (.sequence [
        .node (.wrap (.link "(b)\\".toList) (.literal "]\\".toList) true),
        .literal "_\\".toList]) true),
      .node (.leaf (.image "[".toList ")\\".toList) true)]) true
    let n : Node := ⟨.paragraph,
      "\\*\\\\__[\\]\\\\](\\%28b\\%29\\\\)\\_\\\\__![\\[](\\%29\\\\)\n\n".toList, true⟩
    w.Valid ∧ (∀ p ∈ e.parts, p.isProse = true) ∧ e.eval w shelf = .ok n ∧
      e.delimiters w = "__[]()__[]()".toList ∧
      n.text.Closed ∧ n.text.active.filter (· ∈ delimiters) = e.delimiters w := by
  intro w shelf e n
  have hvalid : w.Valid := by decide
  have hprose : ∀ p ∈ e.parts, p.isProse = true := by decide
  have heval : e.eval w shelf = .ok n := by
    subst w
    rfl
  exact ⟨hvalid, hprose, heval, rfl, active_eval hvalid hprose heval⟩

end Markdown
