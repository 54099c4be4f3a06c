import Markdown.Proofs.Escaping
import Markdown.Proofs.Fences
import Markdown.Proofs.Neighbours
import Markdown.Proofs.Nesting

/-!
# Code spans among text

A reader looks for code spans from left to right: a backslash takes up the character
after it, and a run of backticks opens a span if a later run has its length. `tokens` is
what such a reader meets, glyph by glyph and span by span.

The fence of a span is as long as its own code demands. Escaped text beside it cannot
make it longer, for no backtick of it stands by itself. The fence of another span can:
where two spans touch, their fences are one run, and neither span is found
(`tokens_codeSpan_iff`). Everywhere else a reader meets what was written
(`paragraph_tokens_iff`).
-/

namespace Markdown

/-- What a reader of code spans meets in a text. -/
inductive Token where
  | glyph (g : Glyph)
  | code (inside : Text)
deriving DecidableEq, Repr

def Token.code? : Token → Option Text
  | .glyph _ => none
  | .code inside => some inside

namespace Text

/-- The tokens of a text whose first `skip` characters belong to a token before it. A
run of backticks that opens no span stands for itself. -/
def tokensFrom : Nat → Text → List Token
  | _, [] => []
  | skip + 1, _ :: rest => tokensFrom skip rest
  | 0, ['\\'] => [.glyph .dangling]
  | 0, '\\' :: c :: rest => .glyph (.escaped c) :: tokensFrom 0 rest
  | 0, c :: rest =>
    if c = '\x60' then
      match readCodeSpan (c :: rest) with
      | some (inside, after) => .code inside :: tokensFrom (rest.length - after.length) rest
      | none =>
        let run := openingRun (c :: rest)
        List.replicate run (.glyph (.bare c)) ++ tokensFrom (run - 1) rest
    else
      .glyph (.bare c) :: tokensFrom 0 rest

def tokens (t : Text) : List Token :=
  tokensFrom 0 t

theorem tokensFrom_append (a b : Text) : tokensFrom a.length (a ++ b) = tokens b := by
  induction a with
  | nil => rfl
  | cons c a ih =>
      rw [List.cons_append, List.length_cons, tokensFrom]
      exact ih

theorem tokens_cons {c : Char} (hbackslash : c ≠ '\\') (hbacktick : c ≠ '\x60') (t : Text) :
    tokens (c :: t) = .glyph (.bare c) :: tokens t := by
  rw [tokens, tokensFrom, if_neg hbacktick]
  · rfl
  · exact fun hc _ => hbackslash hc
  · exact fun _ _ hc _ => hbackslash hc

theorem tokens_of_span {t inside after : Text}
    (h : readCodeSpan ('\x60' :: t) = some (inside, after)) :
    tokens ('\x60' :: t) = .code inside :: tokensFrom (t.length - after.length) t := by
  rw [tokens, tokensFrom, if_pos rfl, h]
  · exact fun hc _ => absurd hc (by decide)
  · exact fun _ _ hc _ => absurd hc (by decide)

theorem head?_tokens_of_no_span {t : Text} (h : readCodeSpan ('\x60' :: t) = none) :
    (tokens ('\x60' :: t)).head? = some (.glyph (.bare '\x60')) := by
  have hrun : openingRun ('\x60' :: t) = openingRun t + 1 := by
    rw [openingRun, List.takeWhile_cons_of_pos (by decide), List.length_cons, openingRun]
  rw [tokens, tokensFrom, if_pos rfl, h, hrun]
  · rfl
  · exact fun hc _ => absurd hc (by decide)
  · exact fun _ _ hc _ => absurd hc (by decide)

/-- **Closed text without a backtick by itself is read glyph by glyph**, whatever comes
after it. -/
theorem tokens_append {a : Text} (h : Closed a) (hbacktick : .bare '\x60' ∉ a.glyphs)
    (b : Text) : tokens (a ++ b) = a.glyphs.map .glyph ++ tokens b := by
  fun_induction glyphs a with
  | case1 => rfl
  | case2 => exact absurd List.mem_cons_self h
  | case3 c rest ih =>
      have hrest : Closed rest := fun hmem => h (List.mem_cons_of_mem _ hmem)
      have htokens := ih hrest fun hmem => hbacktick (List.mem_cons_of_mem _ hmem)
      exact congrArg (.glyph (.escaped c) :: ·) htokens
  | case4 c rest hlast hpair ih =>
      have hc : c ≠ '\\' := ne_backslash hlast hpair
      have hc' : c ≠ '\x60' := by
        rintro rfl
        exact hbacktick List.mem_cons_self
      rw [Closed, glyphs_cons hc] at h
      have hrest : Closed rest := fun hmem => h (List.mem_cons_of_mem _ hmem)
      have htokens := ih hrest fun hmem => hbacktick (List.mem_cons_of_mem _ hmem)
      rw [List.cons_append, tokens_cons hc hc', htokens]
      rfl

end Text

/-! ## Spans that touch -/

/-- A run that is too long does not end the code, which goes on with its backticks. -/
theorem backticks_infix_of_upToRun {n run : Nat} {t inside after : Text} (hrun : n < run)
    (h : upToRun n run t = some (inside, after)) : backticks n <:+: inside := by
  induction t generalizing run with
  | nil =>
      rw [upToRun, if_neg (Nat.ne_of_gt hrun)] at h
      exact absurd h.symm (Option.some_ne_none _)
  | cons c t ih =>
      by_cases hc : c = '\x60'
      · rw [upToRun, if_pos hc] at h
        exact ih (Nat.lt_succ_of_lt hrun) h
      · rw [upToRun, if_neg hc, if_neg (Nat.ne_of_gt hrun), Option.map_eq_some_iff] at h
        obtain ⟨⟨later, rest⟩, -, heq⟩ := h
        obtain ⟨rfl, -⟩ := Prod.mk.inj heq
        have hshorter : backticks n <+: backticks run := by
          obtain ⟨k, rfl⟩ := Nat.exists_eq_add_of_lt hrun
          rw [backticks, backticks, Nat.add_assoc, List.replicate_add]
          exact List.prefix_append _ _
        exact (hshorter.trans (List.prefix_append _ _)).isInfix

theorem exists_of_isPadded {t : Text} (h : isPadded t = true) :
    ∃ code, t = ' ' :: (code ++ [' ']) := by
  simp only [isPadded, Bool.and_eq_true, beq_iff_eq] at h
  obtain ⟨⟨hhead, hlast⟩, hany⟩ := h
  obtain ⟨u, rfl⟩ := List.head?_eq_some_iff.mp hhead
  obtain ⟨v, hv⟩ := List.getLast?_eq_some_iff.mp hlast
  cases v with
  | nil =>
      obtain rfl : u = [] := (List.cons.inj hv).2
      exact absurd hany (by decide)
  | cons c v =>
      obtain ⟨rfl, rfl⟩ := List.cons.inj hv
      exact ⟨v, rfl⟩

theorem backticks_infix_stripPadding {n : Nat} {t : Text} (h : backticks n <:+: t) :
    backticks n <:+: stripPadding t := by
  rw [stripPadding]
  split
  · next hpadded =>
      obtain ⟨code, rfl⟩ := exists_of_isPadded hpadded
      rw [List.tail_cons, List.dropLast_concat]
      exact backticks_infix_spaced_iff.mp h
  · exact h

/-- Where a backtick touches the closing fence, a span that starts at the opening fence
has more than the code in it. -/
theorem ne_of_readCodeSpan_touched {t : Text} (ht : foldBreaks t ≠ []) {rest inside after : Text}
    (h : readCodeSpan (codeSpan t ++ '\x60' :: rest) = some (inside, after)) :
    inside ≠ foldBreaks t := by
  rw [readCodeSpan_codeSpan_append ht, upToRun_backtick, Option.map_eq_some_iff] at h
  obtain ⟨⟨later, after'⟩, hlater, heq⟩ := h
  obtain ⟨rfl, -⟩ := Prod.mk.inj heq
  have hfence : backticks ((foldBreaks t).longestRun '\x60' + 1) <:+:
      stripPadding (padded (foldBreaks t) ++ later) :=
    backticks_infix_stripPadding
      ((backticks_infix_of_upToRun (Nat.lt_succ_self _) hlater).trans List.infix_append_right)
  intro hcode
  rw [hcode] at hfence
  exact backticks_not_infix (Nat.lt_succ_self _) hfence

/-- **A span beside a text.** A reader finds the span and goes on behind it if the text
does not start with a backtick. Otherwise it does not find a span with this code here. -/
theorem tokens_codeSpan_iff {t : Text} (ht : foldBreaks t ≠ []) {rest : Text}
    {later : List Token} :
    Text.tokens (codeSpan t ++ rest) = .code (foldBreaks t) :: later ↔
      rest.head? ≠ some '\x60' ∧ rest.tokens = later := by
  obtain ⟨r, hr⟩ := codeSpan_eq_cons t
  have happend : ∀ b, codeSpan t ++ b = '\x60' :: (r ++ b) := fun b => by
    rw [hr, List.cons_append]
  by_cases hhead : rest.head? = some '\x60'
  · refine iff_of_false (fun htokens => ?_) fun h => h.1 hhead
    obtain ⟨rest, rfl⟩ := List.head?_eq_some_iff.mp hhead
    -- the opening run stands for itself, or it finds an end too far away
    cases hread : readCodeSpan (codeSpan t ++ '\x60' :: rest) with
    | none =>
        rw [happend] at htokens hread
        have hglyph := Text.head?_tokens_of_no_span hread
        rw [htokens, List.head?_cons] at hglyph
        exact absurd hglyph nofun
    | some found =>
        obtain ⟨inside, after⟩ := found
        have hne := ne_of_readCodeSpan_touched ht hread
        rw [happend] at htokens hread
        rw [Text.tokens_of_span hread] at htokens
        exact hne (Token.code.inj (List.cons.inj htokens).1)
  · have hread := readCodeSpan_codeSpan_of_ne ht hhead
    have hlater : Text.tokensFrom ((r ++ rest).length - rest.length) (r ++ rest) =
        rest.tokens := by
      rw [List.length_append, Nat.add_sub_cancel]
      exact Text.tokensFrom_append r rest
    rw [happend] at hread ⊢
    rw [Text.tokens_of_span hread, hlater]
    simp [hhead]

/-! ## Text and code in one paragraph -/

/-- An element of running text: literal text, or code. -/
inductive Bit where
  | literal (t : Text)
  | code (t : Text) (escape : Bool)
deriving DecidableEq, Repr

namespace Bit

def operand : Bit → Operand
  | .literal t => .literal t
  | .code t escape => .node (.leaf (.code t) escape)

def item : Bit → Item
  | .literal t => .literal t
  | .code t escape => .node ⟨.code, codeSpan t, escape⟩

def text : Bit → Text
  | .literal t => Context.plain.escape t
  | .code t _ => codeSpan t

def code? : Bit → Option Text
  | .literal _ => none
  | .code t _ => some (spaceEndings t)

/-- What a reader should meet: the glyphs of escaped text, or the span with its code. -/
def tokens : Bit → List Token
  | .literal t => (Context.plain.escape t).glyphs.map .glyph
  | .code t _ => [.code (spaceEndings t)]

/-- A bit can be made: its code is not empty, and safe mode does not refuse it. -/
def Sound (w : Writer) : Bit → Prop
  | .literal _ => True
  | .code t escape => t ≠ [] ∧ (escape = true ∨ w.safeMode = false)

end Bit

/-- Two code spans have nothing but empty literals between them. -/
def CodeTouches (bits : List Bit) : Prop :=
  Meets (·.code?.isSome) (·.code?.isSome) (· = .literal []) bits

instance (bits : List Bit) : Decidable (CodeTouches bits) :=
  inferInstanceAs (Decidable (Meets _ _ _ bits))

section

variable {w : Writer} {bits : List Bit}

theorem head?_text_bits :
    (bits.flatMap Bit.text).head? = some '\x60' ↔
      Leads (·.code?.isSome) (· = .literal []) bits := by
  rw [head?_flatMap_iff]
  apply leads_iff_of_forall₂
  rw [List.forall₂_same]
  intro b _
  cases b with
  | literal t =>
      have hhead : (Context.plain.escape t).head? ≠ some '\x60' :=
        (Context.inert_escape (by decide) t).head?_ne (by decide)
      refine ⟨iff_of_false hhead Bool.false_ne_true, ?_⟩
      rw [Bit.text, escape_eq_nil_iff (by decide) (by decide), Bit.literal.injEq]
  | code t escape =>
      obtain ⟨r, hr⟩ := codeSpan_eq_cons t
      refine ⟨iff_of_true ?_ rfl, iff_of_false ?_ nofun⟩
      · rw [Bit.text, hr, List.head?_cons]
      · rw [Bit.text, hr]
        exact List.cons_ne_nil _ _

/-- **What a reader meets in running text** is what was written, bit by bit, unless two
code spans touch. -/
theorem tokens_bits_iff (h : ∀ b ∈ bits, b.Sound w) :
    Text.tokens (bits.flatMap Bit.text) = bits.flatMap Bit.tokens ↔ ¬CodeTouches bits := by
  induction bits with
  | nil => exact iff_of_true rfl not_meets_nil
  | cons b bits ih =>
      obtain ⟨hb, hbits⟩ := List.forall_mem_cons.mp h
      rw [List.flatMap_cons, List.flatMap_cons, CodeTouches, meets_cons_iff, not_or,
        ← CodeTouches, ← ih hbits]
      cases b with
      | literal t =>
          have hinert : (Context.plain.escape t).Inert .plain := Context.inert_escape (by decide) t
          have hbacktick : .bare '\x60' ∉ (Context.plain.escape t).glyphs := fun hmem =>
            (hinert _ hmem).1 (by decide)
          rw [Bit.text, Bit.tokens, Text.tokens_append hinert.closed hbacktick,
            List.append_right_inj]
          exact (and_iff_right fun hcode => Bool.false_ne_true hcode.1).symm
      | code t escape =>
          have ht : foldBreaks t ≠ [] := foldBreaks_eq t ▸ spaceEndings_ne_nil hb.1
          rw [Bit.text, Bit.tokens, List.singleton_append, ← foldBreaks_eq,
            tokens_codeSpan_iff ht, Ne, head?_text_bits]
          exact and_congr_left fun _ => not_congr (and_iff_right rfl).symm

theorem filterMap_code?_tokens (bits : List Bit) :
    (bits.flatMap Bit.tokens).filterMap Token.code? = bits.filterMap Bit.code? := by
  induction bits with
  | nil => rfl
  | cons b bits ih =>
      rw [List.flatMap_cons, List.filterMap_append, ih]
      cases b with
      | literal t =>
          have hglyphs : ((Context.plain.escape t).glyphs.map Token.glyph).filterMap
              Token.code? = [] := by
            rw [List.filterMap_map]
            exact List.filterMap_eq_nil_iff.mpr fun _ _ => rfl
          rw [Bit.tokens, hglyphs]
          rfl
      | code t escape => rfl

/-! ## Paragraphs -/

theorem Bit.eval_operand {shelf : Shelf} {b : Bit} (h : b.Sound w) :
    b.operand.eval w shelf = .ok (.item b.item) := by
  cases b with
  | literal t => rfl
  | code t escape =>
      have hmake : Makes w shelf (.leaf (.code t) escape) ⟨.code, codeSpan t, escape⟩ := by
        refine makes_leaf_iff.mpr (Leaf.make_eq_ok_iff.mpr ⟨rfl, h.2, ?_⟩)
        simp [Leaf.frame, Leaf.literal, Slot.write, Context.escape]
      exact map_eq_ok_iff.mpr ⟨_, hmake, rfl⟩

theorem eval_paragraph_bits {shelf : Shelf} (h : ∀ b ∈ bits, b.Sound w) :
    ∃ escaped, (Expr.wrap .paragraph (.sequence (bits.map Bit.operand)) true).eval w shelf =
      .ok ⟨.paragraph, bits.flatMap Bit.text ++ blankLine, escaped⟩ := by
  let c := Content.sequence ((bits.map Bit.item).map Content.item)
  have hc : (Operand.sequence (bits.map Bit.operand)).eval w shelf = .ok c := by
    refine map_eq_ok_iff.mpr ⟨_, evalOperands_eq_ok_iff.mpr ?_, rfl⟩
    rw [List.forall₂_map_left_iff, List.forall₂_map_right_iff, List.forall₂_map_right_iff,
      List.forall₂_same]
    exact fun b hb => Bit.eval_operand (h b hb)
  have hleaves : c.leaves = bits.map Bit.item := leaves_of_elements rfl
  have hflat : c.Flat := flat_iff.mpr (by rw [hleaves]; rfl)
  have hadmits : ∀ i ∈ c.leaves, (Wrap.paragraph.frame w).Admits i := by
    rw [hleaves, List.forall_mem_map]
    intro b _
    cases b with
    | literal t => trivial
    | code t escape => exact show Kind.code ∈ Kinds.paragraph by decide
  have hbody : c.leaves.flatMap ((Wrap.paragraph.frame w).write true) =
      bits.flatMap Bit.text := by
    rw [hleaves, List.flatMap_map]
    congr 1
    funext b
    cases b <;> rfl
  refine ⟨true && c.nodes.all (·.escaped), makes_wrap_iff.mpr ⟨c, hc, ?_⟩⟩
  rw [Wrap.make_eq_ok_iff]
  exact ⟨rfl, Or.inl rfl, hflat, hadmits,
    congrArg (fun t => Node.mk .paragraph (t ++ blankLine) _) hbody⟩

end

/-- **Code spans in a paragraph.** From literals and from code that is not empty a
paragraph is made. A reader meets in it just what was written, and so one span for each
piece of code, in order and with its code, unless two spans touch. Where two spans touch,
with at most empty literals between them, a reader meets something else. -/
theorem paragraph_tokens_iff (w : Writer) (shelf : Shelf) (bits : List Bit)
    (h : ∀ b ∈ bits, b.Sound w) :
    ∃ n body, (Expr.wrap .paragraph (.sequence (bits.map Bit.operand)) true).eval w shelf =
        .ok n ∧ n.text = body ++ blankLine ∧
      (Text.tokens body = bits.flatMap Bit.tokens ↔ ¬CodeTouches bits) ∧
      (¬CodeTouches bits →
        (Text.tokens body).filterMap Token.code? = bits.filterMap Bit.code?) := by
  obtain ⟨escaped, hparagraph⟩ := eval_paragraph_bits h
  refine ⟨_, _, hparagraph, rfl, tokens_bits_iff h, fun hapart => ?_⟩
  rw [(tokens_bits_iff h).mpr hapart, filterMap_code?_tokens]

/-- Literals that end in a backtick and in a backslash, before code of two lines and code
that is a backtick. -/
theorem paragraph_tokens_backticks :
    let shelf : Shelf := fun _ => none
    let bits := [Bit.literal "\x60".toList, .code "a\nb".toList true, .literal "\\".toList,
      .code "\x60".toList true]
    (∀ b ∈ bits, b.Sound {}) ∧ ¬CodeTouches bits ∧
    ∃ n body, (Expr.wrap .paragraph (.sequence (bits.map Bit.operand)) true).eval {} shelf =
        .ok n ∧ n.text = body ++ blankLine ∧ Text.tokens body = bits.flatMap Bit.tokens ∧
      (Text.tokens body).filterMap Token.code? = ["a b".toList, "\x60".toList] := by
  intro shelf bits
  have hsound : ∀ b ∈ bits, b.Sound {} := by
    simp [bits, Bit.Sound]
  have hapart : ¬CodeTouches bits := by decide
  obtain ⟨n, body, hn, hbody, htokens, hcodes⟩ := paragraph_tokens_iff {} shelf bits hsound
  exact ⟨hsound, hapart, n, body, hn, hbody, htokens.mpr hapart, hcodes hapart⟩

/-- Two code spans side by side. The two fences between them are one run, so a reader
finds a single span with both in it. -/
theorem paragraph_merges_code :
    let shelf : Shelf := fun _ => none
    let bits := [Bit.code "a".toList true, .code "b".toList true]
    (∀ b ∈ bits, b.Sound {}) ∧
    (Expr.wrap .paragraph (.sequence (bits.map Bit.operand)) true).eval {} shelf =
      .ok ⟨.paragraph, "\x60a\x60\x60b\x60".toList ++ blankLine, true⟩ ∧
    bits.filterMap Bit.code? = ["a".toList, "b".toList] ∧
    (Text.tokens "\x60a\x60\x60b\x60".toList).filterMap Token.code? =
      ["a\x60\x60b".toList] := by
  intro shelf bits
  have hsound : ∀ b ∈ bits, b.Sound {} := by
    simp [bits, Bit.Sound]
  exact ⟨hsound, rfl, rfl, rfl⟩

end Markdown
