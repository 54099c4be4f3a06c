import Markdown.Escape
import Markdown.Proofs.Glyphs

/-!
# Line starts

`OpensBlock` says which lines a writer takes for the start of a heading or a
list item. `guardLine` puts one backslash into such a line, directly before
the character that makes it one, and leaves every other line alone. A guarded
line opens no block, and a reader shows it as before.

The starts can also be looked for by three rules, each in the line that the one
before it has made. No line is a case for two of them (`guardLine_eq_rules`), so a
line gets one backslash at most, and none when it is guarded again
(`guardLine_once`).
-/

namespace Markdown

/-- A line starts with a number sign, with a dash or a plus sign and a space,
or with digits, a full stop and white space. -/
def OpensBlock (line : Text) : Prop :=
  ['#'] <+: line ∨ ['-', ' '] <+: line ∨ ['+', ' '] <+: line ∨
    ∃ digits blank, digits ≠ [] ∧ (∀ d ∈ digits, d.isDigit = true) ∧
      isBlank blank = true ∧ digits ++ ['.', blank] <+: line

theorem OpensBlock.append {line : Text} (h : OpensBlock line) (t : Text) :
    OpensBlock (line ++ t) := by
  have hline : line <+: line ++ t := List.prefix_append line t
  rcases h with h | h | h | ⟨digits, blank, hne, hdigits, hblank, h⟩
  · exact Or.inl (h.trans hline)
  · exact Or.inr (Or.inl (h.trans hline))
  · exact Or.inr (Or.inr (Or.inl (h.trans hline)))
  · exact Or.inr (Or.inr (Or.inr
      ⟨digits, blank, hne, hdigits, hblank, h.trans hline⟩))

/-- A text that opens a block as soon as it stands at the start of a line. -/
def Opener (q : Text) : Prop :=
  q = ['#'] ∨ q = ['-', ' '] ∨ q = ['+', ' '] ∨
    ∃ digits blank, digits ≠ [] ∧ (∀ d ∈ digits, d.isDigit = true) ∧
      isBlank blank = true ∧ q = digits ++ ['.', blank]

/-- The characters that such texts are made of. -/
def isOpening (c : Char) : Bool :=
  c.isDigit || isBlank c || ['#', '-', '+', '.'].contains c

theorem opensBlock_iff_opener {line : Text} :
    OpensBlock line ↔ ∃ q, Opener q ∧ q <+: line := by
  constructor
  · rintro (h | h | h | ⟨digits, blank, hne, hdigits, hblank, h⟩)
    · exact ⟨_, Or.inl rfl, h⟩
    · exact ⟨_, Or.inr (Or.inl rfl), h⟩
    · exact ⟨_, Or.inr (Or.inr (Or.inl rfl)), h⟩
    · exact ⟨_, Or.inr (Or.inr (Or.inr
        ⟨digits, blank, hne, hdigits, hblank, rfl⟩)), h⟩
  · rintro ⟨q, rfl | rfl | rfl | ⟨digits, blank, hne, hdigits, hblank, rfl⟩, h⟩
    · exact Or.inl h
    · exact Or.inr (Or.inl h)
    · exact Or.inr (Or.inr (Or.inl h))
    · exact Or.inr (Or.inr (Or.inr ⟨digits, blank, hne, hdigits, hblank, h⟩))

theorem Opener.isOpening {q : Text} (h : Opener q) :
    ∀ c ∈ q, isOpening c = true := by
  rcases h with rfl | rfl | rfl | ⟨digits, blank, -, hdigits, hblank, rfl⟩
  · exact List.all_eq_true.mp rfl
  · exact List.all_eq_true.mp rfl
  · exact List.all_eq_true.mp rfl
  · intro c hc
    simp only [List.mem_append, List.mem_cons, List.not_mem_nil, or_false] at hc
    rcases hc with hc | rfl | rfl
    · simp [Markdown.isOpening, hdigits c hc]
    · decide
    · simp [Markdown.isOpening, hblank]

theorem Opener.getLast?_not_digit {q : Text} (h : Opener q) :
    ∃ c, q.getLast? = some c ∧ c.isDigit = false := by
  rcases h with rfl | rfl | rfl | ⟨digits, blank, -, -, hblank, rfl⟩
  · exact ⟨'#', rfl, by decide⟩
  · exact ⟨' ', rfl, by decide⟩
  · exact ⟨' ', rfl, by decide⟩
  · refine ⟨blank, by simp, ?_⟩
    simp only [isBlank, Bool.or_eq_true, beq_iff_eq] at hblank
    rcases hblank with ((((rfl | rfl) | rfl) | rfl) | rfl) | rfl <;> decide

theorem prefix_of_prefix_append_cons {q a b : Text} {c : Char} (hc : c ∉ q)
    (h : q <+: a ++ c :: b) : q <+: a := by
  obtain ⟨t, ht⟩ := h
  rcases List.append_eq_append_iff.mp ht with ⟨r, rfl, -⟩ | ⟨r, rfl, hr⟩
  · exact List.prefix_append q r
  · cases r with
    | nil => simp
    | cons d r =>
        obtain ⟨rfl, -⟩ := List.cons.inj hr
        exact absurd (List.mem_append_right _ List.mem_cons_self) hc

/-! ## The tests of the writer -/

section Digits

variable {digits : Text} (h : ∀ d ∈ digits, d.isDigit = true) {c : Char}
  (hc : c.isDigit = false) (t : Text)
include h hc

theorem takeWhile_digits : (digits ++ c :: t).takeWhile Char.isDigit = digits := by
  rw [List.takeWhile_append_of_pos h, List.takeWhile_cons_of_neg (by simp [hc]),
    List.append_nil]

theorem dropWhile_digits : (digits ++ c :: t).dropWhile Char.isDigit = c :: t := by
  rw [List.dropWhile_append_of_pos h, List.dropWhile_cons_of_neg (by simp [hc])]

end Digits

theorem startsMarked_iff {line : Text} :
    startsMarked line = true ↔
      ['#'] <+: line ∨ ['-', ' '] <+: line ∨ ['+', ' '] <+: line := by
  fun_cases startsMarked line with
  | case1 rest => simp
  | case2 rest => simp
  | case3 rest => simp
  | case4 _ h₁ h₂ h₃ =>
      simp only [Bool.false_eq_true, false_iff, not_or]
      refine ⟨?_, ?_, ?_⟩
      · rintro ⟨t, rfl⟩
        exact h₁ t rfl
      · rintro ⟨t, rfl⟩
        exact h₂ t rfl
      · rintro ⟨t, rfl⟩
        exact h₃ t rfl

theorem startsStop_iff {t : Text} :
    startsStop t = true ↔
      ∃ blank rest, isBlank blank = true ∧ t = '.' :: blank :: rest := by
  fun_cases startsStop t with
  | case1 c rest => simp
  | case2 _ h =>
      simp only [Bool.false_eq_true, false_iff]
      rintro ⟨blank, rest, -, rfl⟩
      exact h blank rest rfl

theorem startsNumbered_iff {line : Text} :
    startsNumbered line = true ↔
      ∃ digits blank, digits ≠ [] ∧ (∀ d ∈ digits, d.isDigit = true) ∧
        isBlank blank = true ∧ digits ++ ['.', blank] <+: line := by
  rw [startsNumbered, Bool.and_eq_true, startsStop_iff]
  constructor
  · rintro ⟨hne, blank, rest, hblank, hrest⟩
    refine ⟨line.takeWhile Char.isDigit, blank, by simpa using hne, ?_, hblank,
      rest, ?_⟩
    · exact List.all_eq_true.mp List.all_takeWhile
    · rw [List.append_assoc, List.cons_append, List.cons_append, List.nil_append,
        ← hrest, List.takeWhile_append_dropWhile]
  · rintro ⟨digits, blank, hne, hdigits, hblank, rest, rfl⟩
    have hstop : ('.' : Char).isDigit = false := by decide
    rw [List.append_assoc, List.cons_append, takeWhile_digits hdigits hstop,
      dropWhile_digits hdigits hstop]
    exact ⟨by simpa using hne, blank, rest, hblank, rfl⟩

theorem opensBlock_iff {line : Text} :
    OpensBlock line ↔ startsMarked line = true ∨ startsNumbered line = true := by
  rw [startsMarked_iff, startsNumbered_iff, or_assoc, or_assoc]
  rfl

/-! ## The guard -/

theorem guardLine_of_not_opensBlock {line : Text} (h : ¬OpensBlock line) :
    guardLine line = line := by
  rw [opensBlock_iff, not_or] at h
  rw [guardLine, if_neg h.1, if_neg h.2]

/-- **Where the guard stands.** It is directly before the mark of a heading or
bullet item, or before the full stop after the digits of a numbered item. -/
theorem guardLine_of_opensBlock {line : Text} (h : OpensBlock line) :
    ∃ before c after, line = before ++ c :: after ∧
      guardLine line = before ++ '\\' :: c :: after ∧
      (before = [] ∧ c ∈ ['#', '-', '+'] ∨
        before ≠ [] ∧ (∀ d ∈ before, d.isDigit = true) ∧ c = '.') := by
  by_cases hmarked : startsMarked line = true
  · have hguard : guardLine line = '\\' :: line := if_pos hmarked
    rcases startsMarked_iff.mp hmarked with ⟨t, rfl⟩ | ⟨t, rfl⟩ | ⟨t, rfl⟩
    · exact ⟨[], '#', t, rfl, hguard, Or.inl ⟨rfl, by decide⟩⟩
    · exact ⟨[], '-', ' ' :: t, rfl, hguard, Or.inl ⟨rfl, by decide⟩⟩
    · exact ⟨[], '+', ' ' :: t, rfl, hguard, Or.inl ⟨rfl, by decide⟩⟩
  · have hnumbered : startsNumbered line = true :=
      (opensBlock_iff.mp h).resolve_left hmarked
    obtain ⟨digits, blank, hne, hdigits, -, t, rfl⟩ := startsNumbered_iff.mp hnumbered
    have hstop : ('.' : Char).isDigit = false := by decide
    refine ⟨digits, '.', blank :: t, by simp, ?_, Or.inr ⟨hne, hdigits, rfl⟩⟩
    rw [guardLine, if_neg hmarked, if_pos hnumbered, List.append_assoc,
      List.cons_append, takeWhile_digits hdigits hstop,
      dropWhile_digits hdigits hstop]
    rfl

theorem digits_of_opensBlock {line : Text} (h : OpensBlock line) :
    ∃ digits c after, line = digits ++ c :: after ∧
      guardLine line = digits ++ '\\' :: c :: after ∧
      (∀ d ∈ digits, d.isDigit = true) ∧ c ∈ ['#', '-', '+', '.'] := by
  obtain ⟨digits, c, after, hline, hguard, ⟨rfl, hc⟩ | ⟨-, hdigits, rfl⟩⟩ :=
    guardLine_of_opensBlock h
  · exact ⟨[], c, after, hline, hguard, fun d hd => absurd hd List.not_mem_nil,
      List.mem_append_left ['.'] hc⟩
  · exact ⟨digits, '.', after, hline, hguard, hdigits, by decide⟩

/-- A backslash at the start of a line, or after its digits, keeps the line
from opening a block. -/
theorem not_opensBlock_of_backslash {digits : Text}
    (h : ∀ d ∈ digits, d.isDigit = true) (t : Text) :
    ¬OpensBlock (digits ++ '\\' :: t) := by
  have hbackslash : ('\\' : Char).isDigit = false := by decide
  rw [opensBlock_iff, not_or]
  constructor
  · rw [startsMarked_iff]
    cases digits with
    | nil => simp
    | cons d digits =>
        have hd : d.isDigit = true := h d List.mem_cons_self
        rintro (⟨s, hs⟩ | ⟨s, hs⟩ | ⟨s, hs⟩) <;>
          · obtain ⟨rfl, -⟩ := List.cons.inj hs
            exact absurd hd (by decide)
  · rw [startsNumbered, takeWhile_digits h hbackslash, dropWhile_digits h hbackslash]
    simp [startsStop]

theorem not_opensBlock_guardLine (line : Text) : ¬OpensBlock (guardLine line) := by
  by_cases h : OpensBlock line
  · obtain ⟨digits, c, after, -, hguard, hdigits, -⟩ := digits_of_opensBlock h
    rw [hguard]
    exact not_opensBlock_of_backslash hdigits _
  · rwa [guardLine_of_not_opensBlock h]

theorem mem_guardLine {line : Text} {c : Char} (h : c ∈ guardLine line) :
    c = '\\' ∨ c ∈ line := by
  by_cases hopens : OpensBlock line
  · obtain ⟨before, d, after, hline, hguard, -⟩ := digits_of_opensBlock hopens
    rw [hguard, List.mem_append, List.mem_cons] at h
    rw [hline, List.mem_append]
    rcases h with h | h | h
    · exact Or.inr (Or.inl h)
    · exact Or.inl h
    · exact Or.inr (Or.inr h)
  · exact Or.inr (guardLine_of_not_opensBlock hopens ▸ h)

/-- A reader meets the same glyphs in a guarded line, with at most one character
behind a backslash that stood by itself before. -/
theorem glyphs_guardLine (line : Text) :
    (guardLine line).glyphs = line.glyphs ∨
      ∃ before c after, c ∈ ['#', '-', '+', '.'] ∧
        line.glyphs = before ++ .bare c :: after ∧
        (guardLine line).glyphs = before ++ .escaped c :: after := by
  by_cases h : OpensBlock line
  · right
    obtain ⟨before, c, after, hline, hguard, hbefore, hc⟩ := digits_of_opensBlock h
    -- no backslash stands before the guard, so the reader starts afresh there
    have hclosed : Text.Closed before := Text.closed_of_backslash_notMem fun hmem =>
      absurd (hbefore _ hmem) (by decide)
    have hne : c ≠ '\\' := by
      rintro rfl
      exact absurd hc (by decide)
    refine ⟨Text.glyphs before, c, Text.glyphs after, hc, ?_, ?_⟩
    · rw [hline, Text.glyphs_append hclosed, Text.glyphs_cons hne]
    · rw [hguard, Text.glyphs_append hclosed, Text.glyphs_backslash]
  · exact Or.inl (by rw [guardLine_of_not_opensBlock h])

theorem unescape_guardLine (line : Text) :
    (guardLine line).unescape = line.unescape := by
  rw [Text.unescape, Text.unescape]
  rcases glyphs_guardLine line with h | ⟨before, c, after, -, hline, hguard⟩
  · rw [h]
  · rw [hline, hguard, List.filterMap_append, List.filterMap_append]
    rfl

/-! ## One rule after another -/

/-- A backslash before a number sign at the start of a line. -/
def guardHeading (line : Text) : Text :=
  if ['#'] <+: line then line.insertIdx 0 '\\' else line

/-- A backslash before a dash or a plus sign at the start of a line, if a space follows. -/
def guardBullet (line : Text) : Text :=
  if ['-', ' '] <+: line ∨ ['+', ' '] <+: line then line.insertIdx 0 '\\' else line

/-- A backslash before a full stop behind the digits at the start of a line, if white
space follows. The place of the full stop is found by counting the digits. -/
def guardNumber (l : Text) : Text :=
  let stop := l.findIdx (!·.isDigit)
  if 0 < stop ∧ l[stop]? = some '.' ∧ (l[stop + 1]?).any isBlank then
    l.insertIdx stop '\\'
  else
    l

section Count

variable (p : Char → Bool) (t : Text)

theorem findIdx_not : t.findIdx (!p ·) = (t.takeWhile p).length := by
  rw [List.takeWhile_eq_take_findIdx_not, List.length_take,
    Nat.min_eq_left List.findIdx_le_length]

theorem getElem?_length_takeWhile_add (i : Nat) :
    t[(t.takeWhile p).length + i]? = (t.dropWhile p)[i]? := by
  calc t[(t.takeWhile p).length + i]?
      = (t.takeWhile p ++ t.dropWhile p)[(t.takeWhile p).length + i]? := by
        rw [List.takeWhile_append_dropWhile]
    _ = (t.dropWhile p)[i]? := by
        rw [List.getElem?_append_right (Nat.le_add_right _ i), Nat.add_sub_cancel_left]

theorem insertIdx_length_takeWhile (x : Char) :
    t.insertIdx (t.takeWhile p).length x = t.takeWhile p ++ x :: t.dropWhile p := by
  induction t with
  | nil => rfl
  | cons c t ih =>
      rw [List.takeWhile_cons, List.dropWhile_cons]
      cases p c with
      | true => exact congrArg (c :: ·) ih
      | false => rfl

end Count

theorem startsStop_iff_getElem? {t : Text} :
    startsStop t = true ↔ t[0]? = some '.' ∧ (t[1]?).any isBlank = true := by
  rw [startsStop_iff]
  constructor
  · rintro ⟨blank, rest, hblank, rfl⟩
    exact ⟨rfl, hblank⟩
  · rintro ⟨hstop, hblank⟩
    match t with
    | [] => exact absurd hstop nofun
    | [c] => exact absurd hblank nofun
    | c :: blank :: rest =>
        obtain rfl := Option.some.inj hstop
        exact ⟨blank, rest, hblank, rfl⟩

theorem startsNumbered_iff_getElem? {l : Text} :
    startsNumbered l = true ↔
      0 < l.findIdx (!·.isDigit) ∧ l[l.findIdx (!·.isDigit)]? = some '.' ∧
        (l[l.findIdx (!·.isDigit) + 1]?).any isBlank = true := by
  have hget := getElem?_length_takeWhile_add Char.isDigit l
  rw [startsNumbered, Bool.and_eq_true, startsStop_iff_getElem?, ← hget 0, ← hget 1,
    findIdx_not, List.length_pos_iff]
  simp

/-- Counting the digits and parting the line behind them come to the same. -/
theorem guardNumber_eq (line : Text) :
    guardNumber line =
      if startsNumbered line then
        line.takeWhile Char.isDigit ++ '\\' :: line.dropWhile Char.isDigit
      else line := by
  simp only [guardNumber, startsNumbered_iff_getElem?]
  rw [findIdx_not, insertIdx_length_takeWhile]

theorem guardBullet_backslash (t : Text) : guardBullet ('\\' :: t) = '\\' :: t := by
  rw [guardBullet, if_neg]
  simp

theorem guardNumber_backslash (t : Text) : guardNumber ('\\' :: t) = '\\' :: t := by
  rw [guardNumber_eq, if_neg]
  simp [startsNumbered]

/-- **The rules in turn.** `guardLine` looks for one start after another in the line as it
is. It is the same to apply the three rules one after the other, each to the line that the
one before it has made: at most one of them has anything to do. -/
theorem guardLine_eq_rules (line : Text) :
    guardLine line = guardNumber (guardBullet (guardHeading line)) := by
  by_cases hheading : ['#'] <+: line
  · have hmarked : startsMarked line = true := startsMarked_iff.mpr (Or.inl hheading)
    rw [guardLine, if_pos hmarked, guardHeading, if_pos hheading, List.insertIdx_zero,
      guardBullet_backslash, guardNumber_backslash]
  · rw [guardHeading, if_neg hheading]
    by_cases hbullet : ['-', ' '] <+: line ∨ ['+', ' '] <+: line
    · have hmarked : startsMarked line = true := startsMarked_iff.mpr (Or.inr hbullet)
      rw [guardLine, if_pos hmarked, guardBullet, if_pos hbullet, List.insertIdx_zero,
        guardNumber_backslash]
    · have hmarked : ¬startsMarked line = true := fun h =>
        (startsMarked_iff.mp h).elim hheading hbullet
      rw [guardLine, if_neg hmarked, guardBullet, if_neg hbullet, guardNumber_eq]

/-- **One backslash, and only where a block would start.** The rules put a backslash into a
line exactly if it starts as a heading or an item does: one, before the mark or before the
full stop, with the rest of the line as it was. A second time they find nothing. -/
theorem guardLine_once (line : Text) :
    guardLine line = guardNumber (guardBullet (guardHeading line)) ∧
      (guardLine line ≠ line ↔ OpensBlock line) ∧
      (guardLine line = line ∨
        ∃ before c after, line = before ++ c :: after ∧
          guardLine line = before ++ '\\' :: c :: after ∧
          (before = [] ∧ c ∈ ['#', '-', '+'] ∨
            before ≠ [] ∧ (∀ d ∈ before, d.isDigit = true) ∧ c = '.')) ∧
      guardLine (guardLine line) = guardLine line := by
  refine ⟨guardLine_eq_rules line, ⟨fun hne => ?_, fun hopens heq => ?_⟩, ?_,
    guardLine_of_not_opensBlock (not_opensBlock_guardLine line)⟩
  · exact Classical.not_not.mp (mt guardLine_of_not_opensBlock hne)
  · exact absurd hopens (heq ▸ not_opensBlock_guardLine line)
  · by_cases hopens : OpensBlock line
    · exact Or.inr (guardLine_of_opensBlock hopens)
    · exact Or.inl (guardLine_of_not_opensBlock hopens)

end Markdown
