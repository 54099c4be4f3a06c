import Markdown.Proofs.Escaping
import Markdown.Proofs.Frames

/-!
# Links, read back

A link is a text in brackets and a second text beside it: a destination in parentheses or
a label in brackets. A reader has only the unescaped brackets to go by. The first one that
closes is the end of the first part, and the first one after that the end of the second
(`LinkForm.read`). Escaped text has no unescaped bracket, so no part ends early, whatever was
written into it (`links_readable`).

A label and its definition are escaped by the same rule, so a link finds the definition of
its label. Labels can still coincide: a space is written as the three characters `%20`.
`readLabel` reads back what is left, the parentheses too, which is all that a label tells.
-/

namespace Markdown

/-- A text before its first unescaped stop, and the rest from this stop on. -/
def Text.cutAt (stop : Char → Bool) : Text → Text × Text
  | [] => ([], [])
  | ['\\'] => (['\\'], [])
  | '\\' :: c :: rest => (cutAt stop rest).map ('\\' :: c :: ·) id
  | c :: rest => if stop c then ([], c :: rest) else (cutAt stop rest).map (c :: ·) id

def closesPart (c : Char) : Bool :=
  c == ')' || c == ']'

/-- How the two parts of a link are set, the first of them always before a bracket,
behind which `between` starts. -/
structure LinkForm where
  opening : Text
  between : Text
  closing : Text
  closing_stops : Text.cutAt closesPart closing = ([], closing) := by rfl

namespace LinkForm

def link : LinkForm := { opening := ['['], between := ['('], closing := [')'] }

def image : LinkForm := { opening := ['!', '['], between := ['('], closing := [')'] }

def reference : LinkForm := { opening := ['['], between := ['['], closing := [']'] }

/-- The definition of a label. No bracket closes its second part. -/
def definition : LinkForm := { opening := ['['], between := [':', ' '], closing := [] }

def write (form : LinkForm) (first second : Text) : Text :=
  form.opening ++ (first ++ (']' :: form.between ++ (second ++ form.closing)))

/-- The two parts that a reader finds in a text of a form. The first goes up to the first
unescaped bracket that closes, the second from there to the first unescaped parenthesis or
bracket that closes, and nothing is left over. -/
def read (form : LinkForm) (t : Text) : Option (Text × Text) := do
  let inside ← t.dropPrefix? form.opening
  let (first, rest) := Text.cutAt (· == ']') inside
  let beside ← rest.dropPrefix? (']' :: form.between)
  let (second, rest) := Text.cutAt closesPart beside
  if rest = form.closing then some (first, second) else none

end LinkForm

namespace Text

variable {stop : Char → Bool}

theorem cutAt_append {t : Text} (hclosed : t.Closed) (hstop : ∀ c ∈ t.active, stop c = false)
    (r : Text) : (t ++ r).cutAt stop = (r.cutAt stop).map (t ++ ·) id := by
  fun_induction glyphs t with
  | case1 => rfl
  | case2 => exact absurd List.mem_cons_self hclosed
  | case3 c rest ih =>
      have hrest : Closed rest := fun hmem => hclosed (List.mem_cons_of_mem _ hmem)
      rw [List.cons_append, List.cons_append, cutAt, ih hrest hstop]
      rfl
  | case4 c rest hlast hpair ih =>
      have hc : c ≠ '\\' := ne_backslash hlast hpair
      rw [Closed, glyphs_cons hc] at hclosed
      rw [active, glyphs_cons hc] at hstop
      obtain ⟨hhead, hstop⟩ := List.forall_mem_cons.mp hstop
      have hrest : Closed rest := fun hmem => hclosed (List.mem_cons_of_mem _ hmem)
      rw [List.cons_append, cutAt, if_neg (Bool.not_eq_true _ ▸ hhead), ih hrest hstop]
      · rfl
      · exact fun hc' _ => hc hc'
      · exact fun _ _ hc' _ => hc hc'

/-- Inert text is read up to the stop behind it. -/
theorem Inert.cutAt_append {ctx : Context} {t : Text} (h : t.Inert ctx)
    (hstop : ∀ c ∉ delimiters, stop c = false) {r : Text} (hr : r.cutAt stop = ([], r)) :
    (t ++ r).cutAt stop = (t, r) := by
  rw [Text.cutAt_append h.closed fun c hc => hstop c (h.of_mem_active hc).1, hr, Prod.map,
    List.append_nil]
  rfl

end Text

/-- **Inert parts are read back**, each of them up to the bracket that closes it. -/
theorem LinkForm.read_write {ctx ctx' : Context} {first second : Text}
    (hfirst : first.Inert ctx) (hsecond : second.Inert ctx') (form : LinkForm) :
    form.read (form.write first second) = some (first, second) := by
  have hbare {d : Char} (hd : d ∈ delimiters) : ∀ c ∉ delimiters, (c == d) = false := by
    intro c hc
    refine beq_eq_false_iff_ne.mpr ?_
    rintro rfl
    exact hc hd
  have hbracket : ∀ c ∉ delimiters, (c == ']') = false := hbare (by decide)
  have hparenthesis : ∀ c ∉ delimiters, (c == ')') = false := hbare (by decide)
  have hclose : ∀ c ∉ delimiters, closesPart c = false := by
    intro c hc
    rw [closesPart, hparenthesis c hc, hbracket c hc]
    rfl
  have hone : Text.cutAt (· == ']')
      (first ++ (']' :: form.between ++ (second ++ form.closing))) =
        (first, ']' :: form.between ++ (second ++ form.closing)) :=
    hfirst.cutAt_append hbracket rfl
  have htwo : Text.cutAt closesPart (second ++ form.closing) = (second, form.closing) :=
    hsecond.cutAt_append hclose form.closing_stops
  have hdrop (a b : Text) : (a ++ b).dropPrefix? a = some b :=
    List.dropPrefix?_append_of_beq b (beq_self_eq_true a)
  simp only [read, write, Option.bind_eq_bind, Option.bind_some, hdrop, hone, htwo, if_true]

/-- A bracket that is not escaped ends the text early, and what is left is no link. -/
example : LinkForm.link.read (LinkForm.link.write "a](b".toList "c".toList) = none := rfl

/-! ## Labels -/

/-- A text with its spaces percent-encoded, and nothing else. -/
def encodeSpaces (t : Text) : Text :=
  t.flatMap fun c => if c = ' ' then "%20".toList else [c]

/-- What a written label tells: the text that was written, but for its spaces. The two
parentheses can be told from their encodings in the text by the backslash before them. -/
def readLabel : Text → Text
  | [] => []
  | '\\' :: '%' :: '2' :: '8' :: rest => '(' :: readLabel rest
  | '\\' :: '%' :: '2' :: '9' :: rest => ')' :: readLabel rest
  | '\\' :: c :: rest => c :: readLabel rest
  | c :: rest => c :: readLabel rest

theorem readLabel_cons {c : Char} (h : c ≠ '\\') (t : Text) :
    readLabel (c :: t) = c :: readLabel t := by
  rw [readLabel]
  · exact fun _ hc _ => h hc
  · exact fun _ hc _ => h hc
  · exact fun _ _ hc _ => h hc

theorem readLabel_backslash {c : Char} (h : c ≠ '%') (t : Text) :
    readLabel ('\\' :: c :: t) = c :: readLabel t := by
  rw [readLabel]
  · exact fun _ hc _ => h hc
  · exact fun _ hc _ => h hc

theorem readLabel_append {a : Text} (h : '\\' ∉ a) (t : Text) :
    readLabel (a ++ t) = a ++ readLabel t := by
  induction a with
  | nil => rfl
  | cons c a ih =>
      obtain ⟨hc, ha⟩ := not_or.mp (mt List.mem_cons.mpr h)
      rw [List.cons_append, readLabel_cons (Ne.symm hc), ih ha, List.cons_append]

theorem readLabel_write (c : Char) (t : Text) :
    readLabel (Context.url.write c ++ t) = encodeSpaces [c] ++ readLabel t := by
  revert t
  refine Context.write_induction
    (P := fun c s => ∀ t, readLabel (s ++ t) = encodeSpaces [c] ++ readLabel t) ?_ ?_ c
  · intro c hc t
    simp only [specials, delimiters, List.mem_cons, List.not_mem_nil, or_false] at hc
    rcases hc with rfl | rfl | rfl | rfl | rfl | rfl | rfl | rfl | rfl | rfl | rfl | rfl | rfl | rfl
      <;> rfl
  · intro c hc t
    have hbackslash : c ≠ '\\' := fun e => hc (e ▸ List.mem_cons_self)
    have hspace : c ≠ ' ' := by
      rintro rfl
      exact hc (by decide)
    rw [List.singleton_append, readLabel_cons hbackslash, encodeSpaces, List.flatMap_singleton,
      if_neg hspace, List.singleton_append]

theorem readLabel_spell (t s : Text) :
    readLabel (Context.url.spell t ++ s) = encodeSpaces t ++ readLabel s := by
  induction t with
  | nil => rfl
  | cons c t ih =>
      have hcons : encodeSpaces (c :: t) = encodeSpaces [c] ++ encodeSpaces t := by
        rw [← List.singleton_append, encodeSpaces, List.flatMap_append]
        rfl
      rw [Context.spell_cons, List.append_assoc, readLabel_write, ih, hcons, List.append_assoc]

theorem readLabel_guardLine (line s : Text) :
    readLabel (guardLine line ++ s) = readLabel (line ++ s) := by
  by_cases h : OpensBlock line
  · obtain ⟨digits, c, after, hline, hguard, hdigits, hc⟩ := digits_of_opensBlock h
    have hbackslash : '\\' ∉ digits := fun hmem => absurd (hdigits _ hmem) (by decide)
    have hplain : ∀ c ∈ ['#', '-', '+', '.'], c ≠ '%' ∧ c ≠ '\\' := by decide
    obtain ⟨hpercent, hne⟩ := hplain c hc
    rw [hguard, hline, List.append_assoc, List.append_assoc, readLabel_append hbackslash,
      readLabel_append hbackslash, List.cons_append, List.cons_append,
      readLabel_backslash hpercent, readLabel_cons hne]
  · rw [guardLine_of_not_opensBlock h]

theorem readLabel_unlines (ls : List Text) :
    readLabel (Text.unlines (ls.map Context.url.escapeLine)) =
      Text.unlines (ls.map encodeSpaces) := by
  have hline (l s : Text) :
      readLabel (Context.url.escapeLine l ++ s) = encodeSpaces l ++ readLabel s := by
    rw [Context.escapeLine, readLabel_guardLine, readLabel_spell]
  induction ls with
  | nil => rfl
  | cons l ls ih =>
      cases ls with
      | nil =>
          have hlast := hline l []
          rw [List.append_nil, readLabel, List.append_nil] at hlast
          rw [List.map_singleton, List.map_singleton, Text.unlines_singleton,
            Text.unlines_singleton, hlast]
      | cons m ls =>
          rw [List.map_cons, List.map_cons, Text.unlines_cons_cons, hline,
            readLabel_cons (by decide), ← List.map_cons, ih]
          rfl

theorem unlines_map_encodeSpaces (t : Text) :
    Text.unlines (t.lines.map encodeSpaces) = encodeSpaces t.plainEndings := by
  rw [← Text.unlines_lines t]
  exact Text.unlines_map_flatMap rfl t.lines

/-- **A label is read back**, with plain line endings and with its spaces encoded. -/
theorem readLabel_escape (t : Text) :
    readLabel (Context.url.escape t) = encodeSpaces t.plainEndings := by
  rw [Context.escape_eq_unlines (by decide), readLabel_unlines, unlines_map_encodeSpaces]

/-- Parentheses can be told from their encodings, spaces cannot. -/
example : readLabel (Context.url.escape "- (a)%28 %20\\".toList) =
    "-%20(a)%28%20%20\\".toList := rfl

theorem spell_encodeSpaces (t : Text) :
    Context.url.spell (encodeSpaces t) = Context.url.spell t := by
  rw [Context.spell_eq_flatMap, Context.spell_eq_flatMap, encodeSpaces, List.flatMap_assoc]
  apply List.flatMap_congr
  intro c _
  by_cases hc : c = ' '
  · subst hc
    rfl
  · rw [if_neg hc, List.flatMap_singleton]

theorem feed_notMem_encodeSpaces {l : Text} (h : '\n' ∉ l) : '\n' ∉ encodeSpaces l := by
  intro hmem
  obtain ⟨c, hc, hmem⟩ := List.mem_flatMap.mp hmem
  split at hmem
  · exact absurd hmem (by decide)
  · exact h (List.mem_singleton.mp hmem ▸ hc)

/-- What a label tells is all that its written form depends on. -/
theorem escape_url_eq (t : Text) :
    Context.url.escape t =
      Text.unlines (((encodeSpaces t.plainEndings).splitOn '\n').map Context.url.escapeLine) := by
  have hsplit : (encodeSpaces t.plainEndings).splitOn '\n' = t.lines.map encodeSpaces := by
    rw [← unlines_map_encodeSpaces]
    refine List.splitOn_intercalate '\n' ?_ (by simpa using Text.lines_ne_nil t)
    rw [List.forall_mem_map]
    exact fun l hl => feed_notMem_encodeSpaces (Text.feed_notMem_of_mem_lines hl)
  have hline (l : Text) : Context.url.escapeLine (encodeSpaces l) = Context.url.escapeLine l := by
    rw [Context.escapeLine, spell_encodeSpaces]
    rfl
  rw [Context.escape_eq_unlines (by decide), hsplit, List.map_map]
  exact congrArg Text.unlines (List.map_congr_left fun l _ => (hline l).symm)

theorem escape_url_eq_iff {a b : Text} :
    Context.url.escape a = Context.url.escape b ↔
      encodeSpaces a.plainEndings = encodeSpaces b.plainEndings := by
  constructor
  · intro h
    rw [← readLabel_escape a, h, readLabel_escape]
  · intro h
    rw [escape_url_eq, h, ← escape_url_eq]

/-! ## The four links -/

/-- A frame that sets a literal between the texts of a form writes a link of this form. -/
theorem LinkForm.build_literal (form : LinkForm) {f : Frame} {second : Text}
    (hopening : f.opening = form.opening) (hfinish : f.finish = id)
    (hclosing : f.closing = ']' :: form.between ++ second ++ form.closing) (safe : Bool)
    (t : Text) :
    f.build safe (.literal t) true =
      .ok ⟨f.owner, form.write (f.context.escape t) second, true⟩ := by
  rw [Frame.build_literal, hopening, hfinish, hclosing, write, List.append_assoc,
    List.append_assoc]
  rfl

theorem Node.text_linkReference (label url : Text) :
    (Node.linkReference label url).text =
      LinkForm.definition.write (Context.url.escape label)
        (Context.url.escape url ++ ['\n']) := by
  simp [linkReference, LinkForm.write, LinkForm.definition]

/-- **The parts of a link are read back.** Whatever is written into a link, an image, a link
to a label or the definition of one, a reader who goes by the unescaped brackets finds the
two parts and nothing else. Unescaped, the first part of the former three is the text, and
the other parts are the destination and the label with their spaces and parentheses
encoded. A link finds a definition exactly if the two labels are the same, spaces encoded. -/
theorem links_readable (w : Writer) (t u a b : Text) :
    ∃ shown dest label defined : Text,
      (shown.unescape = t.plainEndings ∧ dest.unescape = percentEncode u.plainEndings ∧
        label.unescape = percentEncode a.plainEndings ∧
        defined.unescape = percentEncode b.plainEndings) ∧
      (w.link (.literal t) u true = .ok ⟨.link, LinkForm.link.write shown dest, true⟩ ∧
        LinkForm.link.read (LinkForm.link.write shown dest) = some (shown, dest)) ∧
      (w.image t u true = .ok ⟨.image, LinkForm.image.write shown dest, true⟩ ∧
        LinkForm.image.read (LinkForm.image.write shown dest) = some (shown, dest)) ∧
      (w.referenceLink (.literal t) a true =
          .ok ⟨.referenceLink, LinkForm.reference.write shown label, true⟩ ∧
        LinkForm.reference.read (LinkForm.reference.write shown label) = some (shown, label)) ∧
      (Node.linkReference b u =
          ⟨.linkReference, LinkForm.definition.write defined (dest ++ ['\n']), true⟩ ∧
        LinkForm.definition.read (LinkForm.definition.write defined (dest ++ ['\n'])) =
          some (defined, dest ++ ['\n'])) ∧
      (label = defined ↔ encodeSpaces a.plainEndings = encodeSpaces b.plainEndings) := by
  have hshown : (Context.plain.escape t).Inert .plain := Context.inert_escape (by decide) t
  have hurl (s : Text) : (Context.url.escape s).Inert .url := Context.inert_escape (by decide) s
  have hfeed : Text.Inert .url ['\n'] := by
    unfold Text.Inert
    decide
  refine ⟨Context.plain.escape t, Context.url.escape u, Context.url.escape a,
    Context.url.escape b, ⟨?_, ?_, ?_, ?_⟩, ⟨?_, ?_⟩, ⟨?_, ?_⟩, ⟨?_, ?_⟩, ⟨?_, ?_⟩,
    escape_url_eq_iff⟩
  · exact unescape_escape_of_ne (by decide) (by decide) t
  · exact unescape_escape_url u
  · exact unescape_escape_url a
  · exact unescape_escape_url b
  · exact LinkForm.link.build_literal rfl rfl rfl w.safeMode t
  · exact LinkForm.link.read_write hshown (hurl u)
  · exact LinkForm.image.build_literal rfl rfl rfl w.safeMode t
  · exact LinkForm.image.read_write hshown (hurl u)
  · exact LinkForm.reference.build_literal rfl rfl rfl w.safeMode t
  · exact LinkForm.reference.read_write hshown (hurl a)
  · rw [← Node.text_linkReference]
    rfl
  · exact LinkForm.definition.read_write (hurl b) ((hurl u).append hfeed)

end Markdown
