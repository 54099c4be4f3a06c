import Markdown.Proofs.LineStarts

/-!
# Escaped text, read

Escaping works line by line and, within a line, character by character before
the line start is guarded (`escape_eq_unlines`). So texts that a line ending
parts are escaped one by one (`escape_linewise`), and what a reader makes of an
escaped text is put together from what it makes of single characters:

- every glyph of it is inert, which no reader acts upon, and no line opens a
  block (`escape_complete`);
- what it shows is the text that was escaped, up to line endings and to the
  percent-encoding of destinations (`escape_lossless`).
-/

namespace Markdown

/-- Whether something holds of all characters of a text is decided on the text,
not by going through all the characters there are. -/
instance Text.decidableForallMem (t : Text) (p : Char → Prop) [DecidablePred p] :
    Decidable (∀ c ∈ t, p c) :=
  List.decidableBAll p t

/-- The characters that a reader acts upon within a line. -/
def delimiters : Text :=
  ['*', '_', '\x60', '~', '[', ']', '(', ')', '<', '>', '&']

/-- A glyph without effect in a context. A backslash that takes up a line
ending is ruled out as well, for a line ending can lose a character when the
lines around it are read. -/
def Glyph.Inert (ctx : Context) : Glyph → Prop
  | .bare c => c ∉ delimiters ∧ (ctx = .tableCell → c ≠ '|')
  | .escaped c => isBreak c = false
  | .dangling => False

instance (ctx : Context) (g : Glyph) : Decidable (g.Inert ctx) :=
  match g with
  | .bare _ => inferInstanceAs (Decidable (_ ∧ _))
  | .escaped _ => inferInstanceAs (Decidable (_ = _))
  | .dangling => inferInstanceAs (Decidable False)

def Text.Inert (ctx : Context) (t : Text) : Prop :=
  ∀ g ∈ t.glyphs, g.Inert ctx

namespace Text

variable {ctx : Context}

theorem Inert.closed {t : Text} (h : t.Inert ctx) : t.Closed := fun hmem =>
  h .dangling hmem

theorem Inert.of_mem_active {t : Text} (h : t.Inert ctx) {c : Char}
    (hc : c ∈ t.active) : c ∉ delimiters ∧ (ctx = .tableCell → c ≠ '|') := by
  obtain ⟨g, hg, hactive⟩ := List.mem_filterMap.mp hc
  cases g with
  | bare d =>
      obtain rfl : d = c := Option.some.inj hactive
      exact h _ hg
  | escaped d => exact absurd hactive nofun
  | dangling => exact absurd hactive nofun

theorem Inert.head?_ne {t : Text} (h : t.Inert ctx) {c : Char} (hc : c ∈ delimiters) :
    t.head? ≠ some c := by
  intro hhead
  obtain ⟨rest, rfl⟩ := List.head?_eq_some_iff.mp hhead
  have hbackslash : c ≠ '\\' := by
    rintro rfl
    exact absurd hc (by decide)
  have hbare : Glyph.bare c ∈ glyphs (c :: rest) := by
    rw [glyphs_cons hbackslash]
    exact List.mem_cons_self
  exact (h _ hbare).1 hc

theorem inert_flatMap {α : Type} {f : α → Text} {xs : List α}
    (h : ∀ x ∈ xs, (f x).Inert ctx) : Text.Inert ctx (xs.flatMap f) := by
  intro g hg
  rw [glyphs_flatMap xs fun x hx => (h x hx).closed, List.mem_flatMap] at hg
  obtain ⟨x, hx, hg⟩ := hg
  exact h x hx g hg

theorem Inert.append {a b : Text} (ha : a.Inert ctx) (hb : b.Inert ctx) :
    Text.Inert ctx (a ++ b) := by
  rw [Text.Inert, glyphs_append ha.closed]
  exact List.forall_mem_append.mpr ⟨ha, hb⟩

theorem inert_unlines {ls : List Text} (h : ∀ l ∈ ls, l.Inert ctx) :
    (unlines ls).Inert ctx := by
  intro g hg
  rcases mem_glyphs_unlines (fun l hl => (h l hl).closed) hg with rfl | ⟨l, hl, hg⟩
  · exact ⟨by decide, fun _ => by decide⟩
  · exact h l hl g hg

/-- A line stays inert when a carriage return at its end goes into the line
ending: no backslash has waited for it. -/
theorem Inert.of_append_return {t : Text} (h : Text.Inert ctx (t ++ ['\r'])) :
    t.Inert ctx := by
  have hclosed : t.Closed := by
    refine Decidable.by_contra fun hopen => ?_
    have hbreak : isBreak '\r' = false := h _ (escaped_mem_of_not_closed hopen '\r' [])
    exact absurd hbreak (by decide)
  intro g hg
  apply h
  rw [glyphs_append hclosed]
  exact List.mem_append_left _ hg

theorem Inert.guardLine {line : Text} (h : line.Inert ctx) :
    (guardLine line).Inert ctx := by
  intro g hg
  rcases glyphs_guardLine line with hsame | ⟨before, c, after, hc, hline, hguard⟩
  · exact h g (hsame ▸ hg)
  · rw [hguard, List.mem_append, List.mem_cons] at hg
    rcases hg with hg | rfl | hg
    · exact h g (hline ▸ List.mem_append_left _ hg)
    · have hbreak : ∀ d ∈ ['#', '-', '+', '.'], isBreak d = false := by decide
      exact hbreak c hc
    · exact h g (hline ▸ List.mem_append_right _ (List.mem_cons_of_mem _ hg))

end Text

/-! ## Single characters -/

/-- The characters that some context writes in a way of their own. -/
def specials : Text :=
  '\\' :: '|' :: ' ' :: delimiters

namespace Context

variable {ctx : Context}

def write (ctx : Context) (c : Char) : Text :=
  (spellMarkup c).flatMap ctx.replace

theorem spell_eq_flatMap (t : Text) : ctx.spell t = t.flatMap ctx.write := by
  rw [spell, escapeMarkup, List.flatMap_assoc]
  rfl

theorem spell_cons (c : Char) (t : Text) :
    ctx.spell (c :: t) = ctx.write c ++ ctx.spell t := by
  rw [spell_eq_flatMap, spell_eq_flatMap, List.flatMap_cons]

theorem spell_append (a b : Text) : ctx.spell (a ++ b) = ctx.spell a ++ ctx.spell b := by
  rw [spell_eq_flatMap, spell_eq_flatMap, spell_eq_flatMap, List.flatMap_append]

theorem write_of_notMem {c : Char} (h : c ∉ specials) : ctx.write c = [c] := by
  have hmarkup : isMarkup c = false := by
    simp only [specials, delimiters, List.mem_cons, List.not_mem_nil, or_false,
      not_or] at h
    simp [isMarkup, h]
  have hreplace : ctx.replace c = [c] := by
    fun_cases Context.replace ctx c with
    | case1 => exact absurd (by decide) h
    | case2 => exact absurd (by decide) h
    | case3 => exact absurd (by decide) h
    | case4 => exact absurd (by decide) h
    | case5 => rfl
  simp [write, spellMarkup, hmarkup, hreplace]

/-- Every character is one of the special ones, which can be gone through, or
is written as it is. -/
theorem write_induction {P : Char → Text → Prop}
    (special : ∀ c ∈ specials, P c (ctx.write c))
    (plain : ∀ c ∉ specials, P c [c]) (c : Char) : P c (ctx.write c) := by
  by_cases h : c ∈ specials
  · exact special c h
  · rw [write_of_notMem h]
    exact plain c h

theorem inert_write (c : Char) : (ctx.write c).Inert ctx := by
  refine write_induction (P := fun _ t => t.Inert ctx) ?_ ?_ c
  · unfold Text.Inert
    cases ctx <;> decide
  · intro c hc
    simp only [specials, List.mem_cons, not_or] at hc
    obtain ⟨hbackslash, hbar, -, hdelimiter⟩ := hc
    intro g hg
    rw [Text.glyphs_cons hbackslash, Text.glyphs_nil, List.mem_singleton] at hg
    subst hg
    exact ⟨hdelimiter, fun _ => hbar⟩

theorem unescape_write (h : ctx ≠ .url) (c : Char) :
    (ctx.write c).unescape = [c] := by
  refine write_induction (P := fun c t => t.unescape = [c]) ?_ ?_ c
  · cases ctx with
    | url => exact absurd rfl h
    | _ => decide
  · intro c hc
    have hbackslash : c ≠ '\\' := fun e => hc (e ▸ List.mem_cons_self)
    rw [Text.unescape, Text.glyphs_cons hbackslash]
    rfl

theorem mem_write_of_isBreak {c d : Char} (hd : d ∈ ctx.write c)
    (hbreak : isBreak d = true) : d = c := by
  have key : ∀ d ∈ ctx.write c, isBreak d = true → d = c := by
    refine write_induction (P := fun c t => ∀ d ∈ t, isBreak d = true → d = c) ?_ ?_ c
    · cases ctx <;> decide
    · intro c _ d hd _
      exact List.mem_singleton.mp hd
  exact key d hd hbreak

theorem write_of_isBreak {c : Char} (h : isBreak c = true) : ctx.write c = [c] := by
  have hspecial : ∀ c ∈ specials, isBreak c = false := by decide
  apply write_of_notMem
  intro hc
  rw [hspecial c hc] at h
  exact Bool.false_ne_true h

theorem write_ne_nil (c : Char) : ctx.write c ≠ [] := by
  refine write_induction (P := fun _ t => t ≠ []) ?_ ?_ c
  · cases ctx <;> decide
  · exact fun c _ => List.cons_ne_nil c []

theorem spell_eq_nil_iff {t : Text} : ctx.spell t = [] ↔ t = [] := by
  cases t with
  | nil => exact Iff.intro (fun _ => rfl) (fun _ => rfl)
  | cons c t => simp [spell_cons, write_ne_nil]

theorem ne_of_mem_write_url {c d : Char} (h : d ∈ url.write c) :
    d ≠ ' ' ∧ d ≠ '(' ∧ d ≠ ')' := by
  have key : ∀ d ∈ url.write c, d ≠ ' ' ∧ d ≠ '(' ∧ d ≠ ')' := by
    refine write_induction
      (P := fun _ t => ∀ d ∈ t, d ≠ ' ' ∧ d ≠ '(' ∧ d ≠ ')') ?_ ?_ c
    · decide
    · intro c hc d hd
      obtain rfl : d = c := List.mem_singleton.mp hd
      refine ⟨?_, ?_, ?_⟩ <;>
        · rintro rfl
          exact hc (by decide)
  exact key d h

theorem write_eq (h : ctx ≠ .url) (c : Char) :
    ctx.write c = [c] ∨ ctx.write c = ['\\', c] := by
  refine write_induction (P := fun c t => t = [c] ∨ t = ['\\', c]) ?_ ?_ c
  · cases ctx with
    | url => exact absurd rfl h
    | _ => decide
  · exact fun c _ => Or.inl rfl

theorem write_of_isOpening (h : ctx ≠ .url) {c : Char} (hc : isOpening c = true) :
    ctx.write c = [c] := by
  have key : ∀ c ∈ specials, isOpening c = true → c = ' ' := by decide
  by_cases hspecial : c ∈ specials
  · obtain rfl := key c hspecial hc
    cases ctx with
    | url => exact absurd rfl h
    | _ => rfl
  · exact write_of_notMem hspecial

/-- Outside destinations, a spelled text starts with opening characters only if the
text itself does. -/
theorem spell_eq_append_iff (h : ctx ≠ .url) {a : Text}
    (ha : ∀ c ∈ a, isOpening c = true) {t b : Text} :
    ctx.spell t = a ++ b ↔ ∃ r, t = a ++ r ∧ b = ctx.spell r := by
  induction a generalizing t with
  | nil => simp [eq_comm]
  | cons c a ih =>
      obtain ⟨hc, hrest⟩ := List.forall_mem_cons.mp ha
      constructor
      · intro heq
        cases t with
        | nil => exact absurd heq nofun
        | cons d t =>
            rw [spell_cons] at heq
            rcases write_eq h d with hd | hd
            · rw [hd] at heq
              obtain ⟨rfl, htail⟩ := List.cons.inj heq
              obtain ⟨r, rfl, rfl⟩ := (ih hrest).mp htail
              exact ⟨r, rfl, rfl⟩
            · rw [hd] at heq
              obtain ⟨rfl, -⟩ := List.cons.inj heq
              exact absurd hc (by decide)
      · rintro ⟨r, rfl, rfl⟩
        rw [List.cons_append, spell_cons, write_of_isOpening h hc,
          (ih hrest).mpr ⟨r, rfl, rfl⟩]
        rfl

theorem prefix_spell_iff (h : ctx ≠ .url) {a : Text}
    (ha : ∀ c ∈ a, isOpening c = true) {t : Text} : a <+: ctx.spell t ↔ a <+: t := by
  constructor
  · rintro ⟨b, hb⟩
    obtain ⟨r, rfl, -⟩ := (spell_eq_append_iff h ha).mp hb.symm
    exact List.prefix_append a r
  · rintro ⟨r, rfl⟩
    exact ⟨ctx.spell r, ((spell_eq_append_iff h ha).mpr ⟨r, rfl, rfl⟩).symm⟩

theorem opensBlock_spell_iff (h : ctx ≠ .url) {t : Text} :
    OpensBlock (ctx.spell t) ↔ OpensBlock t := by
  rw [opensBlock_iff_opener, opensBlock_iff_opener]
  exact exists_congr fun q => and_congr_right fun hq => prefix_spell_iff h hq.isOpening

/-! ## Lines -/

theorem head?_spell_ne_feed {t : Text} (h : t.head? ≠ some '\n') :
    (ctx.spell t).head? ≠ some '\n' := by
  cases t with
  | nil => exact h
  | cons c t =>
      obtain ⟨d, rest, hwrite⟩ := List.exists_cons_of_ne_nil (@write_ne_nil ctx c)
      rw [spell_cons, hwrite, List.cons_append, List.head?_cons]
      intro hd
      obtain rfl : d = '\n' := Option.some.inj hd
      have hmem : '\n' ∈ ctx.write c := hwrite ▸ List.mem_cons_self
      have hc : '\n' = c := mem_write_of_isBreak hmem (by decide)
      exact h (by rw [← hc, List.head?_cons])

/-- What is written for a character that is no part of a line ending belongs to
the first line. -/
theorem lines_write_append {c : Char} (hc : c ≠ '\n') {t : Text}
    (h : c = '\r' → t.head? ≠ some '\n') :
    Text.lines (ctx.write c ++ ctx.spell t) =
      (ctx.spell t).lines.modifyHead (ctx.write c ++ ·) := by
  by_cases hr : c = '\r'
  · -- a carriage return by itself stays one, for no line feed comes to stand behind it
    subst hr
    rw [write_of_isBreak (by decide)]
    exact Text.lines_cons (by decide) fun _ => head?_spell_ne_feed (h rfl)
  · have hunbroken : isBreak c = false := by simp [isBreak, hr, hc]
    apply Text.lines_append_of_unbroken
    intro d hd
    cases hbreak : isBreak d with
    | false => rfl
    | true =>
        rw [← hbreak, mem_write_of_isBreak hd hbreak]
        exact hunbroken

/-- **Characters are spelled line by line.** -/
theorem lines_spell (t : Text) : (ctx.spell t).lines = t.lines.map ctx.spell := by
  have hreturn : ctx.write '\r' = ['\r'] := write_of_isBreak (by decide)
  have hfeed : ctx.write '\n' = ['\n'] := write_of_isBreak (by decide)
  induction t using Text.lines.induct with
  | case1 => rfl
  | case2 rest ih =>
      rw [spell_cons, spell_cons, hreturn, hfeed]
      exact congrArg ([] :: ·) ih
  | case3 rest ih =>
      rw [spell_cons, hfeed]
      exact congrArg ([] :: ·) ih
  | case4 c rest hending hc ih =>
      obtain ⟨first, later, hlines⟩ :=
        List.exists_cons_of_ne_nil (Text.lines_ne_nil rest)
      have hhead : c = '\r' → rest.head? ≠ some '\n' := Text.head_ne_feed hending
      rw [spell_cons, lines_write_append hc hhead, ih, Text.lines_cons hc hhead, hlines]
      simp only [List.map_cons, List.modifyHead_cons, spell_cons]

theorem splitOn_spell_return (t : Text) :
    (ctx.spell t).splitOn '\r' = (t.splitOn '\r').map ctx.spell := by
  induction t with
  | nil => rfl
  | cons c t ih =>
      obtain ⟨first, rest, hsplit⟩ :=
        List.exists_cons_of_ne_nil (List.splitOn_ne_nil '\r' t)
      rw [spell_cons]
      by_cases hc : c = '\r'
      · subst hc
        rw [write_of_isBreak (by decide), List.singleton_append, Text.splitOn_cons_self,
          Text.splitOn_cons_self, ih]
        rfl
      · have hwrite : '\r' ∉ ctx.write c := fun hmem =>
          hc (mem_write_of_isBreak hmem (by decide)).symm
        have hplain : '\r' ∉ [c] := fun hmem => hc (List.mem_singleton.mp hmem).symm
        rw [Text.splitOn_append_of_notMem hwrite, ih, ← List.singleton_append,
          Text.splitOn_append_of_notMem hplain, hsplit]
        simp only [List.map_cons, List.modifyHead_cons, List.singleton_append, spell_cons]

def escapeLine (ctx : Context) (line : Text) : Text :=
  guardLine (ctx.spell line)

/-- **Escaping works line by line.** -/
theorem escape_eq_unlines (h : ctx ≠ .code) (t : Text) :
    ctx.escape t = Text.unlines (t.lines.map ctx.escapeLine) := by
  have hescape : ctx.escape t = Text.unlines ((ctx.spell t).lines.map guardLine) := by
    cases ctx with
    | code => exact absurd rfl h
    | _ => rfl
  rw [hescape, lines_spell, List.map_map]
  rfl

theorem escapedLines_ne_nil (ctx : Context) (t : Text) :
    t.lines.map ctx.escapeLine ≠ [] := by
  simpa using t.lines_ne_nil

/-- A text that is two texts as far as its lines go is escaped as the two are. -/
theorem escape_of_lines_append (h : ctx ≠ .code) {t a b : Text}
    (hlines : t.lines = a.lines ++ b.lines) :
    ctx.escape t = ctx.escape a ++ '\n' :: ctx.escape b := by
  simp only [escape_eq_unlines h]
  rw [hlines, List.map_append,
    Text.unlines_append (escapedLines_ne_nil ctx a) (escapedLines_ne_nil ctx b)]

theorem inert_escapeLine (line : Text) : (ctx.escapeLine line).Inert ctx := by
  apply Text.Inert.guardLine
  rw [spell_eq_flatMap]
  exact Text.inert_flatMap fun c _ => inert_write c

theorem inert_of_mem_escapedLines {t l : Text} (h : l ∈ t.lines.map ctx.escapeLine) :
    l.Inert ctx := by
  obtain ⟨line, -, rfl⟩ := List.mem_map.mp h
  exact inert_escapeLine line

theorem mem_escapeLine {line : Text} {d : Char} (h : d ∈ ctx.escapeLine line) :
    d = '\\' ∨ ∃ c ∈ line, d ∈ ctx.write c := by
  rcases mem_guardLine h with h | h
  · exact Or.inl h
  · rw [spell_eq_flatMap] at h
    exact Or.inr (List.mem_flatMap.mp h)

theorem feed_notMem_escapeLine {line : Text} (h : '\n' ∉ line) :
    '\n' ∉ ctx.escapeLine line := by
  intro hmem
  rcases mem_escapeLine hmem with hd | ⟨c, hc, hd⟩
  · exact absurd hd (by decide)
  · rw [← mem_write_of_isBreak hd (by decide)] at hc
    exact h hc

theorem feed_notMem_of_mem_escapedLines {t l : Text}
    (h : l ∈ t.lines.map ctx.escapeLine) : '\n' ∉ l := by
  obtain ⟨line, hline, rfl⟩ := List.mem_map.mp h
  exact feed_notMem_escapeLine (Text.feed_notMem_of_mem_lines hline)

theorem mem_escape (h : ctx ≠ .code) {t : Text} {d : Char} (hd : d ∈ ctx.escape t) :
    d = '\n' ∨ d = '\\' ∨ ∃ c, d ∈ ctx.write c := by
  rw [escape_eq_unlines h] at hd
  rcases Text.mem_unlines hd with hd | ⟨l, hl, hd⟩
  · exact Or.inl hd
  · obtain ⟨line, -, rfl⟩ := List.mem_map.mp hl
    rcases mem_escapeLine hd with hd | ⟨c, -, hd⟩
    · exact Or.inr (Or.inl hd)
    · exact Or.inr (Or.inr ⟨c, hd⟩)

/-- A line of an escaped text is an escaped line, perhaps less the carriage
return at its end. -/
theorem mem_lines_escape (h : ctx ≠ .code) {t k : Text}
    (hk : k ∈ (ctx.escape t).lines) :
    ∃ line, ctx.escapeLine line = k ∨ ctx.escapeLine line = k ++ ['\r'] := by
  rw [escape_eq_unlines h] at hk
  obtain ⟨l, hl, hcase⟩ := Text.mem_lines_unlines (escapedLines_ne_nil ctx t)
    (fun _ => feed_notMem_of_mem_escapedLines) hk
  obtain ⟨line, -, rfl⟩ := List.mem_map.mp hl
  exact ⟨line, hcase⟩

theorem inert_escape (h : ctx ≠ .code) (t : Text) : (ctx.escape t).Inert ctx := by
  rw [escape_eq_unlines h]
  exact Text.inert_unlines fun _ => inert_of_mem_escapedLines

/-- What holds of the glyphs of single characters, of a line feed and of a guarded
character holds of all glyphs of an escaped text. -/
theorem forall_glyphs_escape (h : ctx ≠ .code) {P : Glyph → Prop} (hfeed : P (.bare '\n'))
    (hguard : ∀ c ∈ ['#', '-', '+', '.'], P (.escaped c))
    (hwrite : ∀ c, ∀ g ∈ (ctx.write c).glyphs, P g) (t : Text) :
    ∀ g ∈ (ctx.escape t).glyphs, P g := by
  have hspell : ∀ line, ∀ g ∈ (ctx.spell line).glyphs, P g := by
    intro line g hg
    rw [spell_eq_flatMap, Text.glyphs_flatMap line fun c _ => (inert_write c).closed,
      List.mem_flatMap] at hg
    obtain ⟨c, -, hg⟩ := hg
    exact hwrite c g hg
  have hline : ∀ line, ∀ g ∈ (ctx.escapeLine line).glyphs, P g := by
    intro line g hg
    rcases glyphs_guardLine (ctx.spell line) with hsame | ⟨before, c, after, hc, hplain, hguarded⟩
    · exact hspell line g (hsame ▸ hg)
    · rw [escapeLine, hguarded, List.mem_append, List.mem_cons] at hg
      rcases hg with hg | rfl | hg
      · exact hspell line g (hplain ▸ List.mem_append_left _ hg)
      · exact hguard c hc
      · exact hspell line g (hplain ▸ List.mem_append_right _ (List.mem_cons_of_mem _ hg))
  have hclosed : ∀ l ∈ t.lines.map ctx.escapeLine, l.Closed := fun _ hl =>
    (inert_of_mem_escapedLines hl).closed
  intro g hg
  rw [escape_eq_unlines h] at hg
  rcases Text.mem_glyphs_unlines hclosed hg with rfl | ⟨l, hl, hg⟩
  · exact hfeed
  · obtain ⟨line, -, rfl⟩ := List.mem_map.mp hl
    exact hline line g hg

end Context

/-- **Escaping works line by line.** A line ending between two texts comes out as a line
feed, and the texts on its two sides are escaped as if each stood by itself. A line feed
alone is a line ending only if no carriage return comes before it. So it makes no
difference whether the characters are spelled before the text is cut into lines, as they
are, or in each line by itself. -/
theorem escape_linewise {ctx : Context} (h : ctx ≠ .code) (a b t : Text) :
    ctx.escape (a ++ '\r' :: '\n' :: b) = ctx.escape a ++ '\n' :: ctx.escape b ∧
    (a.getLast? ≠ some '\r' →
      ctx.escape (a ++ '\n' :: b) = ctx.escape a ++ '\n' :: ctx.escape b) ∧
    ctx.escape t = Text.unlines (t.lines.map fun line => guardLine (ctx.spell line)) := by
  refine ⟨?_, fun hreturn => ?_, Context.escape_eq_unlines h t⟩
  · exact Context.escape_of_lines_append h (Text.lines_append_ending a b)
  · exact Context.escape_of_lines_append h (Text.lines_append_feed hreturn b)

/-- The line ending takes the second carriage return. The first one stays and makes its
line a numbered item, both before the line ending and at the end of a text. -/
theorem escape_linewise_returns :
    let item := "1.\r".toList
    let bars := "# |\\".toList
    Context.tableCell ≠ .code ∧ bars.getLast? ≠ some '\r' ∧
    Context.tableCell.escape (item ++ '\r' :: '\n' :: bars) =
      "1\\.\r\n\\# \\|\\\\".toList ∧
    Context.tableCell.escape (bars ++ '\n' :: item) = "\\# \\|\\\\\n1\\.\r".toList ∧
    Context.tableCell.escape "|\r\n|".toList =
      Text.unlines ((Text.lines "|\r\n|".toList).map fun line =>
        guardLine (Context.tableCell.spell line)) := by
  intro item bars
  have hcell : Context.tableCell ≠ .code := by decide
  have hreturn : bars.getLast? ≠ some '\r' := by decide
  obtain ⟨hending, -, hlines⟩ := escape_linewise hcell item bars "|\r\n|".toList
  obtain ⟨-, hfeed, -⟩ := escape_linewise hcell bars item []
  exact ⟨hcell, hreturn, hending, hfeed hreturn, hlines⟩

/-! ## Nothing is left to act upon -/

/-- **Escaping is complete.** In every line of an escaped text each backslash has
a character to take up, no delimiter stands by itself, nor in a cell a bar, and
the line opens no block. A destination has no space and no parenthesis at all. -/
theorem escape_complete {ctx : Context} (h : ctx ≠ .code) (t : Text) :
    (∀ line ∈ (ctx.escape t).lines,
      line.Closed ∧ (∀ c ∈ line.active, c ∉ delimiters) ∧
        (ctx = .tableCell → '|' ∉ line.active) ∧ ¬OpensBlock line) ∧
    (ctx = .url → ∀ c ∈ ctx.escape t, c ≠ ' ' ∧ c ≠ '(' ∧ c ≠ ')') := by
  constructor
  · intro k hk
    obtain ⟨line, hline⟩ := Context.mem_lines_escape h hk
    have hinert : k.Inert ctx := by
      have hescaped : (ctx.escapeLine line).Inert ctx := Context.inert_escapeLine line
      rcases hline with hline | hline
      · exact hline ▸ hescaped
      · exact Text.Inert.of_append_return (hline ▸ hescaped)
    -- a line that opens a block would still do so with a carriage return after it
    have hopens : ¬OpensBlock k := by
      have hguarded : ¬OpensBlock (ctx.escapeLine line) := not_opensBlock_guardLine _
      rcases hline with hline | hline
      · exact hline ▸ hguarded
      · exact fun hk => hguarded (hline ▸ hk.append ['\r'])
    refine ⟨hinert.closed, ?_, ?_, hopens⟩
    · exact fun c hc => (hinert.of_mem_active hc).1
    · exact fun hcell hbar => (hinert.of_mem_active hbar).2 hcell rfl
  · rintro rfl d hd
    rcases Context.mem_escape h hd with rfl | rfl | ⟨c, hc⟩
    · decide
    · decide
    · exact Context.ne_of_mem_write_url hc

/-- A first line that a carriage return makes a numbered item, and a last one
that a bar and a backslash end. -/
theorem escape_complete_at_ends :
    let t := "1.\r\r\n- (a)|\\".toList
    Context.tableCell ≠ .code ∧ Context.url ≠ .code ∧
    Context.tableCell.escape t = "1\\.\r\n\\- \\(a\\)\\|\\\\".toList ∧
    (∀ line ∈ (Context.tableCell.escape t).lines,
      line.Closed ∧ (∀ c ∈ line.active, c ∉ delimiters) ∧ '|' ∉ line.active ∧
        ¬OpensBlock line) ∧
    (∀ c ∈ Context.url.escape t, c ≠ ' ' ∧ c ≠ '(' ∧ c ≠ ')') := by
  refine ⟨by decide, by decide, rfl, ?_, (escape_complete (by decide) _).2 rfl⟩
  intro line hline
  obtain ⟨hclosed, hactive, hbar, hopens⟩ :=
    (escape_complete (by decide) _).1 line hline
  exact ⟨hclosed, hactive, hbar rfl, hopens⟩

/-! ## Nothing is lost -/

/-- A character as a destination spells it. -/
def percentChar : Char → Text
  | ' ' => "%20".toList
  | '(' => "%28".toList
  | ')' => "%29".toList
  | c => [c]

/-- A text with its spaces and parentheses percent-encoded. -/
def percentEncode (t : Text) : Text :=
  t.flatMap percentChar

theorem unescape_write_url (c : Char) :
    (Context.url.write c).unescape = percentChar c := by
  refine Context.write_induction (P := fun c t => t.unescape = percentChar c) ?_ ?_ c
  · decide
  · intro c hc
    have hbackslash : c ≠ '\\' := fun e => hc (e ▸ List.mem_cons_self)
    rw [Text.unescape, Text.glyphs_cons hbackslash]
    fun_cases percentChar c with
    | case1 => exact absurd (by decide) hc
    | case2 => exact absurd (by decide) hc
    | case3 => exact absurd (by decide) hc
    | case4 => rfl

theorem unescape_escape {ctx : Context} (h : ctx ≠ .code) (t : Text) :
    (ctx.escape t).unescape =
      t.plainEndings.flatMap fun c => (ctx.write c).unescape := by
  have hline : ∀ line, (ctx.escapeLine line).unescape =
      line.flatMap fun c => (ctx.write c).unescape := by
    intro line
    rw [Context.escapeLine, unescape_guardLine, Context.spell_eq_flatMap]
    exact Text.unescape_flatMap line fun c _ => (Context.inert_write c).closed
  have hclosed : ∀ l ∈ t.lines.map ctx.escapeLine, l.Closed := fun _ hl =>
    (Context.inert_of_mem_escapedLines hl).closed
  have hfeed : (ctx.write '\n').unescape = ['\n'] := by
    rw [Context.write_of_isBreak (by decide)]
    rfl
  rw [Context.escape_eq_unlines h, Text.unescape_unlines hclosed, List.map_map,
    ← Text.unlines_lines t, ← Text.unlines_map_flatMap hfeed]
  exact congrArg Text.unlines (List.map_congr_left fun line _ => hline line)

theorem unescape_escape_of_ne {ctx : Context} (hcode : ctx ≠ .code) (hurl : ctx ≠ .url)
    (t : Text) : (ctx.escape t).unescape = t.plainEndings := by
  rw [unescape_escape hcode]
  simp only [Context.unescape_write hurl, List.flatMap_singleton']

theorem unescape_escape_url (t : Text) :
    (Context.url.escape t).unescape = percentEncode t.plainEndings := by
  rw [unescape_escape (by decide)]
  simp only [unescape_write_url, percentEncode]

theorem escape_eq_nil_iff {ctx : Context} (hcode : ctx ≠ .code) (hurl : ctx ≠ .url)
    {t : Text} : ctx.escape t = [] ↔ t = [] := by
  constructor
  · intro h
    rw [← Text.plainEndings_eq_nil_iff, ← unescape_escape_of_ne hcode hurl t, h]
    rfl
  · rintro rfl
    rw [Context.escape_eq_unlines hcode]
    rfl

/-- **Escaping is lossless.** A reader shows an escaped text as it was, with
plain line endings and, in a destination, with spaces and parentheses encoded.
So outside destinations texts with different lines stay apart. -/
theorem escape_lossless :
    (∀ ctx ∈ [Context.plain, .listItem, .tableCell], ∀ t,
      (ctx.escape t).unescape = t.plainEndings) ∧
    (∀ t, (Context.url.escape t).unescape = percentEncode t.plainEndings) ∧
    (∀ ctx ∈ [Context.plain, .listItem, .tableCell], ∀ a b,
      ctx.escape a = ctx.escape b ↔ a.plainEndings = b.plainEndings) := by
  have hmem : ∀ ctx ∈ [Context.plain, .listItem, .tableCell],
      ctx ≠ .code ∧ ctx ≠ .url := by
    decide
  have hshown : ∀ ctx ∈ [Context.plain, .listItem, .tableCell], ∀ t,
      (ctx.escape t).unescape = t.plainEndings := by
    intro ctx hctx t
    obtain ⟨hcode, hurl⟩ := hmem ctx hctx
    rw [unescape_escape hcode]
    simp only [Context.unescape_write hurl, List.flatMap_singleton']
  refine ⟨hshown, ?_, ?_⟩
  · intro t
    rw [unescape_escape (by decide)]
    simp only [unescape_write_url, percentEncode]
  · intro ctx hctx a b
    constructor
    · intro h
      rw [← hshown ctx hctx a, h, hshown ctx hctx b]
    · intro h
      obtain ⟨hcode, -⟩ := hmem ctx hctx
      rw [Context.escape_eq_unlines hcode, Context.escape_eq_unlines hcode,
        Text.lines_inj.mpr h]

/-- One of two carriage returns before a line feed is part of the line ending. -/
theorem escape_lossless_returns :
    Context.tableCell ∈ [Context.plain, .listItem, .tableCell] ∧
    (Context.tableCell.escape "\\|\r\r\n".toList).unescape = "\\|\r\n".toList ∧
    (Context.url.escape "(\r\n%20".toList).unescape = "%28\n%20".toList ∧
    (Context.tableCell.escape "|\r\n".toList = Context.tableCell.escape "|\n".toList ↔
      Text.plainEndings "|\r\n".toList = Text.plainEndings "|\n".toList) :=
  ⟨by decide, escape_lossless.1 .tableCell (by decide) _, escape_lossless.2.1 _,
    escape_lossless.2.2 .tableCell (by decide) _ _⟩

end Markdown
