import Markdown.Proofs.Lines
import Markdown.Writer.Block
import Markdown.Writer.Listing
import Markdown.Writer.Table

/-!
# Blurred marks

The marks that a writer is free to choose are stars, underscores, dashes and plus
signs. Blurring a text makes all of them stars. The steps that work on a text once
it is written (cutting it into lines, dropping what is blank at its ends, quoting,
hanging, hiding bars) look at none of the four, so they commute with blurring; the
lemmas below push `blur` inwards.
-/

namespace Markdown

def blurMark (c : Char) : Char :=
  if c = '_' ∨ c = '-' ∨ c = '+' then '*' else c

/-- A text with a star for each underscore, dash and plus sign. -/
def Text.blur (t : Text) : Text :=
  t.map blurMark

theorem blurMark_eq_iff {c d : Char} (hd : d ∉ ['*', '_', '-', '+']) :
    blurMark c = d ↔ c = d := by
  simp only [List.mem_cons, List.not_mem_nil, or_false, not_or] at hd
  obtain ⟨hstar, hline, hdash, hplus⟩ := hd
  unfold blurMark
  split
  · next hmark =>
      constructor
      · exact fun h => absurd h.symm hstar
      · rintro rfl
        exact absurd hmark (by simp [hline, hdash, hplus])
  · exact Iff.rfl

theorem beq_blurMark {c d : Char} (hd : d ∉ ['*', '_', '-', '+']) :
    (blurMark c == d) = (c == d) := by
  rw [Bool.eq_iff_iff, beq_iff_eq, beq_iff_eq, blurMark_eq_iff hd]

@[simp] theorem isBlank_blurMark (c : Char) : isBlank (blurMark c) = isBlank c := by
  unfold isBlank
  repeat rw [beq_blurMark (by decide)]

@[simp] theorem isBreak_blurMark (c : Char) : isBreak (blurMark c) = isBreak c := by
  unfold isBreak
  repeat rw [beq_blurMark (by decide)]

namespace Text

@[simp] theorem blur_nil : Text.blur [] = [] := rfl

@[simp] theorem blur_cons (c : Char) (t : Text) :
    Text.blur (c :: t) = blurMark c :: Text.blur t := rfl

@[simp] theorem blur_append (s t : Text) :
    Text.blur (s ++ t) = Text.blur s ++ Text.blur t :=
  List.map_append

@[simp] theorem length_blur (t : Text) : (Text.blur t).length = t.length :=
  List.length_map _

theorem blur_intercalate (separator : Text) (ts : List Text) :
    Text.blur (separator.intercalate ts) =
      (Text.blur separator).intercalate (ts.map Text.blur) := by
  cases ts with
  | nil => rfl
  | cons t ts =>
      rw [List.map_cons, intercalate_cons, intercalate_cons, blur_append]
      simp only [blur, List.map_flatMap, List.flatMap_map, List.map_append]

theorem any_blur {p : Char → Bool} (hp : ∀ c, p (blurMark c) = p c) (t : Text) :
    (Text.blur t).any p = t.any p := by
  rw [blur, List.any_map]
  exact congrArg (t.any ·) (funext hp)

theorem all_blur {p : Char → Bool} (hp : ∀ c, p (blurMark c) = p c) (t : Text) :
    (Text.blur t).all p = t.all p := by
  rw [blur, List.all_map]
  exact congrArg (t.all ·) (funext hp)

theorem blur_dropWhile {p : Char → Bool} (hp : ∀ c, p (blurMark c) = p c) (t : Text) :
    Text.blur (t.dropWhile p) = (Text.blur t).dropWhile p := by
  rw [blur, blur, List.dropWhile_map, show p ∘ blurMark = p from funext hp]

theorem blur_dropEndWhile {p : Char → Bool} (hp : ∀ c, p (blurMark c) = p c) (t : Text) :
    Text.blur (t.dropEndWhile p) = (Text.blur t).dropEndWhile p := by
  have hreverse : ∀ s : Text, Text.blur s.reverse = (Text.blur s).reverse :=
    fun s => List.map_reverse
  rw [dropEndWhile, dropEndWhile, hreverse, blur_dropWhile hp, hreverse]

@[simp] theorem blur_trimEnd (t : Text) : Text.blur t.trimEnd = (Text.blur t).trimEnd :=
  blur_dropEndWhile isBlank_blurMark t

@[simp] theorem blur_trim (t : Text) : Text.blur t.trim = (Text.blur t).trim := by
  rw [trim, trim, blur_trimEnd, blur_dropWhile isBlank_blurMark]

@[simp] theorem blur_chomp (t : Text) : Text.blur t.chomp = (Text.blur t).chomp :=
  blur_dropEndWhile isBreak_blurMark t

@[simp] theorem blur_unlines (ls : List Text) :
    Text.blur (unlines ls) = unlines (ls.map Text.blur) :=
  blur_intercalate ['\n'] ls

theorem lines_blur (t : Text) : (Text.blur t).lines = t.lines.map Text.blur := by
  fun_induction lines t with
  | case1 => rfl
  | case2 rest ih => exact congrArg ([] :: ·) ih
  | case3 rest ih => exact congrArg ([] :: ·) ih
  | case4 c rest hending hfeed ih =>
      have hc : blurMark c ≠ '\n' := mt (blurMark_eq_iff (by decide)).mp hfeed
      have hhead : blurMark c = '\r' → (Text.blur rest).head? ≠ some '\n' := by
        intro hreturn hhead
        rw [blur, List.head?_map] at hhead
        obtain ⟨d, hd, hdfeed⟩ := Option.map_eq_some_iff.mp hhead
        obtain rfl := (blurMark_eq_iff (by decide)).mp hdfeed
        exact head_ne_feed hending ((blurMark_eq_iff (by decide)).mp hreturn) hd
      rw [blur_cons, lines_cons hc hhead, ih]
      cases lines rest <;> rfl

end Text

theorem blur_quoteLine (line : Text) : (quoteLine line).blur = quoteLine line.blur := by
  unfold quoteLine
  rw [Text.all_blur isBlank_blurMark]
  split <;> rfl

@[simp] theorem blur_quote (t : Text) : (quote t).blur = quote t.blur := by
  unfold quote
  rw [Text.blur_unlines, ← Text.blur_trimEnd, Text.lines_blur, List.map_map, List.map_map]
  exact congrArg Text.unlines (List.map_congr_left fun line _ => blur_quoteLine line)

@[simp] theorem blur_hang (indent t : Text) :
    (hang indent t).blur = hang indent.blur t.blur := by
  induction t with
  | nil => rfl
  | cons c t ih =>
      simp only [hang, List.flatMap_cons, Text.blur_cons, Text.blur_append] at ih ⊢
      rw [ih]
      by_cases hc : c = '\n'
      · subst hc
        rfl
      · rw [if_neg hc, if_neg (mt (blurMark_eq_iff (by decide)).mp hc)]
        rfl

theorem blur_escapeBarsFrom (escaped : Bool) (t : Text) :
    (escapeBarsFrom escaped t).blur = escapeBarsFrom escaped t.blur := by
  induction t generalizing escaped with
  | nil => rfl
  | cons c t ih =>
      have hbar : blurMark c = '|' ↔ c = '|' := blurMark_eq_iff (by decide)
      have hback : blurMark c = '\\' ↔ c = '\\' := blurMark_eq_iff (by decide)
      rw [Text.blur_cons, escapeBarsFrom, escapeBarsFrom]
      simp only [hbar, hback]
      split
      · rw [Text.blur_cons, Text.blur_cons, ih]
        rfl
      · rw [Text.blur_cons, ih]

@[simp] theorem blur_escapeBars (t : Text) : (escapeBars t).blur = escapeBars t.blur :=
  blur_escapeBarsFrom false t

end Markdown
