import Markdown.Proofs.Frames
import Markdown.Proofs.Lines
import Markdown.Proofs.Runs

/-!
# Code, read back

A reader of code goes by backticks. A code span ends at the next run that is
exactly as long as the opening one (`readCodeSpan`), and a code block ends at the
first line that starts with a run at least as long (`readCodeBlock`).

No run of the code is as long as the fences, so neither reader stops within the
code. What is left is at its ends: the padding of a span keeps the code apart from
the fences, and a language has no backtick that could lengthen the opening one. So
a reader gets the code back, and takes no space of it for padding.
-/

namespace Markdown

def openingRun (t : Text) : Nat :=
  (t.takeWhile (· == '\x60')).length

theorem backticks_succ (n : Nat) : backticks (n + 1) = backticks n ++ ['\x60'] :=
  List.replicate_succ'

theorem openingRun_backticks {n : Nat} {t : Text} (h : t.head? ≠ some '\x60') :
    openingRun (backticks n ++ t) = n := by
  have hstop : t.takeWhile (· == '\x60') = [] := by
    cases t with
    | nil => rfl
    | cons c t => exact List.takeWhile_cons_of_neg (by simpa using h)
  rw [openingRun, List.takeWhile_append_of_pos, hstop, List.append_nil, backticks,
    List.length_replicate]
  intro c hc
  rw [List.eq_of_mem_replicate hc, beq_self_eq_true]

theorem drop_backticks (n : Nat) (t : Text) : (backticks n ++ t).drop n = t :=
  List.drop_left' List.length_replicate

theorem backticks_not_infix {n : Nat} {t : Text} (h : t.longestRun '\x60' < n) :
    ¬backticks n <:+: t := by
  rw [backticks, Text.replicate_infix_iff]
  exact Nat.not_le_of_lt h

/-! ## Reading a code span -/

/-- A text up to its next run of exactly `n` backticks, and what follows that run.
The text stands after `run` backticks. -/
def upToRun (n run : Nat) : Text → Option (Text × Text)
  | [] => if run = n then some ([], []) else none
  | c :: rest =>
    if c = '\x60' then upToRun n (run + 1) rest
    else if run = n then some ([], c :: rest)
    else (upToRun n 0 rest).map fun (inside, after) => (backticks run ++ c :: inside, after)

def isPadded (t : Text) : Bool :=
  t.head? == some ' ' && t.getLast? == some ' ' && t.any (· != ' ')

def stripPadding (t : Text) : Text :=
  if isPadded t then t.tail.dropLast else t

/-- The code in the code span at the start of a text, and what follows the
span. -/
def readCodeSpan (t : Text) : Option (Text × Text) :=
  let n := openingRun t
  if n = 0 then none
  else (upToRun n 0 (t.drop n)).map fun (inside, after) => (stripPadding inside, after)

theorem upToRun_backtick (n run : Nat) (t : Text) :
    upToRun n run ('\x60' :: t) = upToRun n (run + 1) t :=
  if_pos rfl

theorem upToRun_backticks (n run k : Nat) (t : Text) :
    upToRun n run (backticks k ++ t) = upToRun n (run + k) t := by
  induction k generalizing run with
  | zero => rfl
  | succ k ih =>
      rw [backticks, List.replicate_succ, List.cons_append, upToRun_backtick, ← backticks, ih,
        Nat.add_right_comm, Nat.add_assoc]

/-- A run ends the code if it has the length and nothing makes it longer. -/
theorem upToRun_self {n : Nat} {t : Text} (h : t.head? ≠ some '\x60') :
    upToRun n n t = some ([], t) := by
  cases t with
  | nil => exact if_pos rfl
  | cons c t =>
      have hc : c ≠ '\x60' := fun hc => h (congrArg some hc)
      rw [upToRun, if_neg hc, if_pos rfl]

/-- **A span does not end in its code**, which has no run of the length and no backtick
at its end. The search goes on behind it. -/
theorem upToRun_append {n run : Nat} {a : Text}
    (hrun : ¬backticks n <:+: backticks run ++ a)
    (hlast : (backticks run ++ a).getLast? ≠ some '\x60') (t : Text) :
    upToRun n run (a ++ t) =
      (upToRun n 0 t).map fun (inside, after) => (backticks run ++ a ++ inside, after) := by
  induction a generalizing run with
  | nil =>
      cases run with
      | zero =>
          rw [List.nil_append]
          cases upToRun n 0 t <;> rfl
      | succ run =>
          rw [List.append_nil, backticks_succ, List.getLast?_concat] at hlast
          exact absurd rfl hlast
  | cons c a ih =>
      by_cases hc : c = '\x60'
      · subst hc
        have hnext : backticks run ++ '\x60' :: a = backticks (run + 1) ++ a := by
          rw [backticks_succ, List.append_assoc, List.singleton_append]
        rw [hnext] at hrun hlast ⊢
        rw [List.cons_append, upToRun_backtick]
        exact ih hrun hlast
      · have hne : run ≠ n := by
          rintro rfl
          exact hrun List.infix_append_left
        have hlast' : a.getLast? ≠ some '\x60' := by
          intro h
          simp [List.getLast?_append, List.getLast?_cons, h] at hlast
        have hrun' : ¬backticks n <:+: a := fun h =>
          hrun ((h.trans (List.suffix_cons c a).isInfix).trans List.infix_append_right)
        rw [List.cons_append, upToRun, if_neg hc, if_neg hne, @ih 0 hrun' hlast',
          Option.map_map]
        congr 1
        funext ⟨inside, after⟩
        simp [backticks]

/-! ## Writing a code span -/

/-- Code with its padding, as it stands between the fences. -/
def padded (code : Text) : Text :=
  if needsPadding code then ' ' :: (code ++ [' ']) else code

theorem codeSpan_eq (t : Text) :
    codeSpan t =
      let fence := backticks ((foldBreaks t).longestRun '\x60' + 1)
      fence ++ (padded (foldBreaks t) ++ fence) := by
  rw [codeSpan, padded]
  split <;> simp

theorem codeSpan_eq_cons (t : Text) : ∃ r, codeSpan t = '\x60' :: r := by
  rw [codeSpan_eq]
  exact ⟨_, by rw [backticks, List.replicate_succ, List.cons_append]⟩

theorem codeSpan_eq_concat (t : Text) : ∃ r, codeSpan t = r ++ ['\x60'] := by
  rw [codeSpan_eq]
  exact ⟨_, by rw [backticks_succ, ← List.append_assoc, ← List.append_assoc]⟩

section Padding

variable {code : Text}

theorem needsPadding_iff :
    needsPadding code = true ↔
      code.head? = some '\x60' ∨ code.getLast? = some '\x60' ∨ isPadded code = true := by
  rw [needsPadding, ← isPadded, Bool.or_eq_true, Bool.or_eq_true, beq_iff_eq, beq_iff_eq,
    or_assoc]

theorem exists_ne_space (h : needsPadding code = true) : ∃ c ∈ code, c ≠ ' ' := by
  rcases needsPadding_iff.mp h with h | h | h
  · exact ⟨'\x60', List.mem_of_head? h, by decide⟩
  · exact ⟨'\x60', List.mem_of_getLast? h, by decide⟩
  · rw [isPadded, Bool.and_eq_true, List.any_eq_true] at h
    obtain ⟨c, hc, hne⟩ := h.2
    exact ⟨c, hc, by simpa using hne⟩

/-- **A reader takes away the padding of a span, and nothing of its code.** -/
theorem stripPadding_padded (code : Text) : stripPadding (padded code) = code := by
  by_cases h : needsPadding code = true
  · obtain ⟨c, hc, hne⟩ := exists_ne_space h
    have hpadded : isPadded (' ' :: (code ++ [' '])) = true := by
      rw [isPadded, Bool.and_eq_true, List.any_eq_true]
      refine ⟨?_, c, List.mem_cons_of_mem _ (List.mem_append_left _ hc), by simpa using hne⟩
      rw [List.head?_cons, ← List.cons_append, List.getLast?_concat]
      rfl
    rw [padded, if_pos h, stripPadding, if_pos hpadded, List.tail_cons, List.dropLast_concat]
  · have hpadded : ¬isPadded code = true := fun hcode =>
      h (needsPadding_iff.mpr (Or.inr (Or.inr hcode)))
    rw [padded, if_neg h, stripPadding, if_neg hpadded]

theorem padded_ne_nil (h : code ≠ []) : padded code ≠ [] := by
  rw [padded]
  split
  · exact List.cons_ne_nil _ _
  · exact h

theorem head?_padded_ne (code : Text) : (padded code).head? ≠ some '\x60' := by
  by_cases h : needsPadding code = true
  · rw [padded, if_pos h, List.head?_cons]
    decide
  · rw [padded, if_neg h]
    exact fun hhead => h (needsPadding_iff.mpr (Or.inl hhead))

theorem getLast?_padded_ne (code : Text) : (padded code).getLast? ≠ some '\x60' := by
  by_cases h : needsPadding code = true
  · rw [padded, if_pos h, ← List.cons_append, List.getLast?_concat]
    decide
  · rw [padded, if_neg h]
    exact fun hlast => h (needsPadding_iff.mpr (Or.inr (Or.inl hlast)))

theorem backticks_infix_spaced_iff {n : Nat} :
    backticks n <:+: ' ' :: (code ++ [' ']) ↔ backticks n <:+: code := by
  have hspace : ' ' ∉ backticks n := fun hmem =>
    absurd (List.eq_of_mem_replicate hmem) (by decide)
  have hnil : backticks n <:+: [] → backticks n <:+: code := fun h => h.trans List.nil_infix
  rw [← List.nil_append (' ' :: (code ++ [' '])), Text.infix_append_cons_iff hspace,
    Text.infix_append_cons_iff hspace]
  exact ⟨fun h => h.elim hnil fun h => h.elim id hnil, fun h => Or.inr (Or.inl h)⟩

theorem backticks_not_infix_padded {n : Nat} (h : code.longestRun '\x60' < n) :
    ¬backticks n <:+: padded code := by
  rw [padded]
  split
  · rw [backticks_infix_spaced_iff]
    exact backticks_not_infix h
  · exact backticks_not_infix h

end Padding

/-- A reader goes through the code of a span as it is, and looks behind it for the place
where the span ends. -/
theorem readCodeSpan_codeSpan_append {t : Text} (ht : foldBreaks t ≠ []) (rest : Text) :
    let n := (foldBreaks t).longestRun '\x60' + 1
    readCodeSpan (codeSpan t ++ rest) =
      (upToRun n n rest).map fun (inside, after) =>
        (stripPadding (padded (foldBreaks t) ++ inside), after) := by
  intro n
  have hopen : ∀ rest, (padded (foldBreaks t) ++ rest).head? ≠ some '\x60' := by
    intro rest
    rw [List.head?_append_of_ne_nil _ (padded_ne_nil ht)]
    exact head?_padded_ne _
  have hclose := @upToRun_append n 0 (padded (foldBreaks t))
    (backticks_not_infix_padded (Nat.lt_succ_self _)) (getLast?_padded_ne _)
    (backticks n ++ rest)
  rw [upToRun_backticks, Nat.zero_add] at hclose
  rw [codeSpan_eq, List.append_assoc, List.append_assoc, readCodeSpan]
  simp only [openingRun_backticks (hopen _), drop_backticks]
  rw [if_neg (Nat.succ_ne_zero _), hclose, Option.map_map]
  rfl

theorem readCodeSpan_codeSpan_of_ne {t : Text} (ht : foldBreaks t ≠ []) {rest : Text}
    (h : rest.head? ≠ some '\x60') :
    readCodeSpan (codeSpan t ++ rest) = some (foldBreaks t, rest) := by
  have hcode : stripPadding (padded (foldBreaks t) ++ []) = foldBreaks t := by
    rw [List.append_nil, stripPadding_padded]
  rw [readCodeSpan_codeSpan_append ht, upToRun_self h]
  exact congrArg (fun code => some (code, rest)) hcode

theorem readCodeSpan_codeSpan {t : Text} (ht : foldBreaks t ≠ []) :
    readCodeSpan (codeSpan t) = some (foldBreaks t, []) := by
  rw [← List.append_nil (codeSpan t)]
  exact readCodeSpan_codeSpan_of_ne ht nofun

/-- A text with one space for each of its line endings, whether they have one
character or two. -/
def spaceEndings (t : Text) : Text :=
  t.plainEndings.map fun c => if isBreak c then ' ' else c

theorem foldBreaks_eq (t : Text) : foldBreaks t = spaceEndings t := by
  rw [spaceEndings]
  fun_induction foldBreaks t with
  | case1 => rfl
  | case2 rest ih => rw [ih, Text.plainEndings_ending, List.map_cons, if_pos (by decide)]
  | case3 c rest hending ih =>
      rw [ih, Text.plainEndings_cons (Text.head_ne_feed hending), List.map_cons]

theorem spaceEndings_ne_nil {t : Text} (h : t ≠ []) : spaceEndings t ≠ [] := by
  rw [← foldBreaks_eq]
  fun_cases foldBreaks t with
  | case1 => exact absurd rfl h
  | case2 => exact List.cons_ne_nil _ _
  | case3 => exact List.cons_ne_nil _ _

theorem isBreak_of_mem_spaceEndings {t : Text} {c : Char} (h : c ∈ spaceEndings t) :
    isBreak c = false := by
  obtain ⟨d, -, rfl⟩ := List.mem_map.mp h
  split
  · decide
  · next hbreak => simpa using hbreak

theorem isBreak_of_mem_codeSpan {t : Text} {c : Char} (h : c ∈ codeSpan t) :
    isBreak c = false := by
  have hfence : ∀ {n}, c ∈ backticks n → isBreak c = false := fun hmem => by
    rw [List.eq_of_mem_replicate hmem]
    decide
  have hcode : c ∈ padded (foldBreaks t) → c = ' ' ∨ c ∈ spaceEndings t := by
    rw [padded, foldBreaks_eq]
    split
    · simp only [List.mem_cons, List.mem_append, List.not_mem_nil, or_false]
      rintro (h | h | h)
      · exact Or.inl h
      · exact Or.inr h
      · exact Or.inl h
    · exact Or.inr
  rw [codeSpan_eq, List.mem_append, List.mem_append] at h
  rcases h with h | h | h
  · exact hfence h
  · rcases hcode h with rfl | h
    · decide
    · exact isBreak_of_mem_spaceEndings h
  · exact hfence h

/-- **Code spans are read back.** A code span that is made of some text, whether
escaping is demanded or not, stands on one line. A reader finds its end at the
end of the text, and in it the code with a space for each line ending. -/
theorem code_readable (w : Writer) {t : Text} (ht : t ≠ []) {escape : Bool}
    (h : escape = true ∨ w.safeMode = false) :
    ∃ n, w.code t escape = .ok n ∧ readCodeSpan n.text = some (spaceEndings t, []) ∧
      ∀ c ∈ n.text, isBreak c = false := by
  have hmake : w.code t escape = .ok ⟨.code, codeSpan t, escape⟩ := by
    refine (@Leaf.make_eq_ok_iff (.code t) w escape _).mpr ⟨rfl, h, ?_⟩
    simp [Leaf.frame, Leaf.literal, Slot.write, Context.escape]
  refine ⟨_, hmake, ?_, fun c hc => isBreak_of_mem_codeSpan hc⟩
  rw [readCodeSpan_codeSpan (foldBreaks_eq t ▸ spaceEndings_ne_nil ht), foldBreaks_eq]

/-- Backticks at both ends of the code and a line ending of two characters. -/
theorem code_readable_backticks :
    let w : Writer := {}
    let t := "\x60a\r\n\x60\x60".toList
    t ≠ [] ∧ (false = true ∨ w.safeMode = false) ∧
      spaceEndings t = "\x60a \x60\x60".toList ∧
      ∃ n, w.code t false = .ok n ∧ readCodeSpan n.text = some (spaceEndings t, []) ∧
        ∀ c ∈ n.text, isBreak c = false := by
  intro w t
  have ht : t ≠ [] := by decide
  exact ⟨ht, Or.inr rfl, rfl, code_readable w ht (Or.inr rfl)⟩

example : readCodeSpan "\x60  \x60 b".toList = some ("  ".toList, " b".toList) := rfl
example : readCodeSpan "\x60\x60 \x60 \x60\x60".toList = some ("\x60".toList, []) := rfl

/-! ## Reading a code block -/

/-- What a reader finds in a text that starts with a code block: the text after the
opening fence, the code, and the text after the closing fence. -/
structure FencedCode where
  info : Text
  code : Text
  after : Text
deriving DecidableEq, Repr

/-- A line without up to `n` spaces at its start. -/
def dropIndent : Nat → Text → Text
  | n + 1, ' ' :: t => dropIndent n t
  | _, t => t

/-- A line ends a code block that `n` backticks have opened: it starts with that
many at least, after three spaces at most. -/
def closesFence (n : Nat) (line : Text) : Bool :=
  (backticks n).isPrefixOf (dropIndent 3 line)

/-- The code block at the start of a text. Its closing fence is as long as the
opening one, which has three backticks or more. -/
def readCodeBlock (t : Text) : Option FencedCode :=
  let n := openingRun t
  match (t.drop n).splitOn '\n' with
  | [] => none
  | info :: body =>
    match body.dropWhile (!closesFence n ·) with
    | [] => none
    | closing :: later =>
      if 3 ≤ n then
        some {
          info := info
          code := Text.unlines (body.takeWhile (!closesFence n ·))
          after := Text.unlines ((dropIndent 3 closing).drop n :: later)
        }
      else
        none

theorem dropIndent_suffix (n : Nat) (t : Text) : dropIndent n t <:+ t := by
  fun_induction dropIndent n t with
  | case1 n t ih => exact ih.trans (List.suffix_cons ' ' t)
  | case2 => exact List.suffix_rfl

theorem infix_of_closesFence {n : Nat} {line : Text} (h : closesFence n line = true) :
    backticks n <:+: line :=
  (List.isPrefixOf_iff_prefix.mp h).isInfix.trans (dropIndent_suffix 3 line).isInfix

theorem dropIndent_backticks (n : Nat) : dropIndent 3 (backticks n) = backticks n := by
  cases n with
  | zero => rfl
  | succ n =>
      rw [backticks, List.replicate_succ, dropIndent]
      exact fun _ _ _ h => absurd (List.cons.inj h).1 (by decide)

theorem closesFence_backticks (n : Nat) : closesFence n (backticks n) = true := by
  rw [closesFence, dropIndent_backticks, List.isPrefixOf_iff_prefix]

theorem closesFence_line {n : Nat} {code line : Text} (h : code.longestRun '\x60' < n)
    (hline : line ∈ code.splitOn '\n') : closesFence n line = false := by
  have hinfix : line <:+: code := by
    have hjoin : line <:+: ['\n'].intercalate (code.splitOn '\n') :=
      Text.infix_intercalate hline
    rwa [List.intercalate_splitOn] at hjoin
  refine Bool.eq_false_iff.mpr fun hcloses => ?_
  exact backticks_not_infix h ((infix_of_closesFence hcloses).trans hinfix)

/-- **The fence is the first line where a block can end**, if no line of the code
ends it. -/
theorem readCodeBlock_append {n : Nat} (hn : 3 ≤ n) {info code : Text}
    (hinfo : ∀ c ∈ info, c ≠ '\x60' ∧ c ≠ '\n')
    (hcode : ∀ line ∈ code.splitOn '\n', closesFence n line = false) :
    readCodeBlock (backticks n ++ (info ++ '\n' :: (code ++ '\n' :: (backticks n ++ blankLine)))) =
      some ⟨info, code, blankLine⟩ := by
  have hopen : ∀ rest, (info ++ '\n' :: rest).head? ≠ some '\x60' := by
    intro rest
    cases info with
    | nil => simp
    | cons c info => simpa using (hinfo c List.mem_cons_self).1
  have hlines : (info ++ '\n' :: (code ++ '\n' :: (backticks n ++ blankLine))).splitOn '\n' =
      info :: (code.splitOn '\n' ++ [backticks n, [], []]) := by
    have hfeed : '\n' ∉ info := fun hmem => (hinfo _ hmem).2 rfl
    have hfence : '\n' ∉ backticks n := fun hmem =>
      absurd (List.eq_of_mem_replicate hmem) (by decide)
    have hblank : ['\n'].splitOn '\n' = [[], []] := rfl
    simp only [blankLine, List.splitOn_append_cons_self, List.splitOn_eq_singleton hfeed,
      List.splitOn_eq_singleton hfence, hblank, List.cons_append, List.nil_append]
  have hopened : ∀ line ∈ code.splitOn '\n', (!closesFence n line) = true := by
    intro line hline
    rw [hcode line hline, Bool.not_false]
  have hclosed : ¬(!closesFence n (backticks n)) = true := by
    rw [closesFence_backticks]
    decide
  have htake : [backticks n, [], []].takeWhile (!closesFence n ·) = [] :=
    List.takeWhile_cons_of_neg hclosed
  have hdrop : [backticks n, [], []].dropWhile (!closesFence n ·) = [backticks n, [], []] :=
    List.dropWhile_cons_of_neg hclosed
  have hend : (backticks n).drop n = [] := by
    rw [List.drop_eq_nil_iff, backticks, List.length_replicate]
  rw [readCodeBlock]
  simp only [openingRun_backticks (hopen _), drop_backticks, hlines,
    List.takeWhile_append_of_pos hopened, List.dropWhile_append_of_pos hopened, htake, hdrop]
  rw [if_pos hn, dropIndent_backticks, hend, List.append_nil, Text.unlines,
    List.intercalate_splitOn]
  rfl

/-! ## Writing a code block -/

theorem fitsFence_iff {language : Text} :
    fitsFence language = true ↔ ∀ c ∈ language, c ≠ '\x60' ∧ isBreak c = false := by
  simp [fitsFence]

theorem readCodeBlock_codeFence {language : Text} (h : fitsFence language = true)
    (code : Text) :
    readCodeBlock (codeFence language code ++ blankLine) =
      some ⟨language, code, blankLine⟩ := by
  have hlanguage : ∀ c ∈ language, c ≠ '\x60' ∧ c ≠ '\n' := by
    intro c hc
    obtain ⟨hbacktick, hbreak⟩ := fitsFence_iff.mp h c hc
    refine ⟨hbacktick, ?_⟩
    rintro rfl
    exact absurd hbreak (by decide)
  have hcode : ∀ line ∈ code.splitOn '\n',
      closesFence (max 3 (code.longestRun '\x60' + 1)) line = false := fun line hline =>
    closesFence_line (Nat.lt_of_lt_of_le (Nat.lt_succ_self _) (Nat.le_max_right _ _)) hline
  rw [← readCodeBlock_append (Nat.le_max_left 3 _) hlanguage hcode, codeFence]
  simp only [List.append_assoc, List.cons_append]

theorem codeBlock_family_iff {w : Writer} {code language : Text} {escape : Bool} :
    (∃ f, w.codeBlock code language escape = .error f ∧ f.family = .argument) ↔
      fitsFence language = false := by
  have hcheck : ∀ f, (Leaf.codeBlock code language).check = .error f ↔
      fitsFence language = false ∧ .codeLanguage language = f := by
    intro f
    rw [Leaf.check, require_eq_error_iff, Bool.not_eq_true]
  constructor
  · rintro ⟨f, hf, hfamily⟩
    rcases (@Leaf.make_eq_error_iff (.codeBlock code language) w escape f).mp hf with
      hf | ⟨-, -, rfl⟩
    · exact ((hcheck f).mp hf).1
    · exact absurd hfamily nofun
  · intro hfits
    refine ⟨.codeLanguage language, ?_, rfl⟩
    exact (@Leaf.make_eq_error_iff (.codeBlock code language) w escape _).mpr
      (Or.inl ((hcheck _).mpr ⟨hfits, rfl⟩))

/-- **Code blocks are read back.** A language is refused if it has a backtick or a
line ending, and nothing else is. With any other language, if safe mode does not
refuse the demand, a reader gets the language and the code exactly as they were,
and finds a blank line behind them. -/
theorem codeBlock_readable (w : Writer) (code language : Text) (escape : Bool) :
    ((∃ f, w.codeBlock code language escape = .error f ∧ f.family = .argument) ↔
      ∃ c ∈ language, c = '\x60' ∨ isBreak c = true) ∧
    ((∀ c ∈ language, c ≠ '\x60' ∧ isBreak c = false) →
      escape = true ∨ w.safeMode = false →
        ∃ n, w.codeBlock code language escape = .ok n ∧
          readCodeBlock n.text = some ⟨language, code, ['\n', '\n']⟩) := by
  constructor
  · rw [codeBlock_family_iff, ← Bool.not_eq_true, fitsFence_iff]
    simp [Decidable.or_iff_not_imp_left]
  · intro hlanguage h
    have hfits := fitsFence_iff.mpr hlanguage
    have hmake : w.codeBlock code language escape =
        .ok ⟨.codeBlock, codeFence language code ++ blankLine, escape⟩ := by
      refine (@Leaf.make_eq_ok_iff (.codeBlock code language) w escape _).mpr ⟨?_, h, ?_⟩
      · exact require_eq_ok_iff.mpr hfits
      · simp [Leaf.frame, Leaf.literal, Slot.write, Context.escape]
    exact ⟨_, hmake, readCodeBlock_codeFence hfits code⟩

/-- Code with lines that end a shorter fence, in safe mode. -/
theorem codeBlock_readable_fences :
    let w : Writer := { safeMode := true }
    let code := "\x60\x60\x60\n  \x60\x60\x60\x60 a\n".toList
    (∀ c ∈ ['b'], c ≠ '\x60' ∧ isBreak c = false) ∧ (true = true ∨ w.safeMode = false) ∧
      (∃ n, w.codeBlock code ['b'] true = .ok n ∧
        readCodeBlock n.text = some ⟨['b'], code, ['\n', '\n']⟩) ∧
      ∃ f, w.codeBlock code ['\r'] false = .error f ∧ f.family = .argument := by
  intro w code
  have hlanguage : ∀ c ∈ ['b'], c ≠ '\x60' ∧ isBreak c = false := by
    intro c hc
    rw [List.mem_singleton.mp hc]
    decide
  refine ⟨hlanguage, Or.inl rfl, (codeBlock_readable w code ['b'] true).2 hlanguage (Or.inl rfl), ?_⟩
  exact (codeBlock_readable w code ['\r'] false).1.mpr
    ⟨'\r', List.mem_cons_self, Or.inr (by decide)⟩

end Markdown
