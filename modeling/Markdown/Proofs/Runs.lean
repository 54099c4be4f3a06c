import Mathlib.Data.List.Infix
import Markdown.Text

/-!
# Runs of one character

`longestRun` counts and compares in one pass. What it finds is said without the
pass: a number of copies of a character stand next to each other somewhere in a
text if and only if the number is at most the longest run
(`replicate_infix_iff`).

So the longest run of two texts put together is the longest of one of them, unless
a run at the end of the first goes on at the start of the second
(`longestRun_measures`).
-/

namespace Markdown

namespace Text

theorem infix_append_cons_iff {l a b : Text} {d : Char} (hd : d ∉ l) :
    l <:+: a ++ d :: b ↔ l <:+: a ∨ l <:+: b := by
  have hnil : ∀ {l' : Text}, d ∉ l' → l' <+: d :: b → l' = [] := by
    intro l' hl' hpre
    cases l' with
    | nil => rfl
    | cons c l' =>
        obtain ⟨rfl, -⟩ := List.cons_prefix_cons.mp hpre
        exact absurd List.mem_cons_self hl'
  rw [List.infix_append_iff, List.infix_cons_iff]
  constructor
  · rintro (h | (h | h) | ⟨l₁, l₂, rfl, h₁, h₂⟩)
    · exact Or.inl h
    · rw [hnil hd h]
      exact Or.inl List.nil_infix
    · exact Or.inr h
    · obtain rfl := hnil (fun hmem => hd (List.mem_append_right _ hmem)) h₂
      rw [List.append_nil]
      exact Or.inl h₁.isInfix
  · rintro (h | h)
    · exact Or.inl h
    · exact Or.inr (Or.inl (Or.inr h))

/-- The pass with its state: `run` copies have just been read, and `best` is the
longest run before them. -/
theorem le_longestRunFrom_iff {c : Char} {n run best : Nat} {t : Text} :
    n ≤ longestRunFrom c run best t ↔
      n ≤ best ∨ List.replicate n c <:+: List.replicate run c ++ t := by
  have hmax : ∀ run best, n ≤ max run best ↔ n ≤ run ∨ n ≤ best := by omega
  have hrun : ∀ run, List.replicate n c <:+: List.replicate run c ↔ n ≤ run := by
    intro run
    rw [List.infix_replicate_iff, List.length_replicate]
    exact and_iff_left rfl
  induction t generalizing run best with
  | nil => rw [longestRunFrom, hmax, List.append_nil, hrun, or_comm]
  | cons d rest ih =>
      by_cases hd : d = c
      · rw [longestRunFrom, if_pos hd]
        refine ih.trans ?_
        rw [hd, List.replicate_succ', List.append_assoc, List.singleton_append]
      · have hnot : d ∉ List.replicate n c := fun hmem => hd (List.eq_of_mem_replicate hmem)
        rw [longestRunFrom, if_neg hd]
        refine ih.trans ?_
        rw [infix_append_cons_iff hnot, hrun, hmax, List.replicate_zero, List.nil_append,
          or_comm (a := n ≤ run), or_assoc]

theorem replicate_infix_iff {c : Char} {n : Nat} {t : Text} :
    List.replicate n c <:+: t ↔ n ≤ longestRun c t := by
  rw [longestRun, le_longestRunFrom_iff, List.replicate_zero, List.nil_append]
  constructor
  · exact Or.inr
  · rintro (h | h)
    · rw [Nat.le_zero.mp h]
      exact List.nil_infix
    · exact h

/-- A run in two texts is a run in one of them, or it reaches from the end of the first
into the second. -/
theorem replicate_infix_append_iff {c : Char} {n : Nat} {a b : Text} :
    List.replicate n c <:+: a ++ b ↔
      List.replicate n c <:+: a ∨ List.replicate n c <:+: b ∨
        ∃ i j, i + j = n ∧ List.replicate i c <:+ a ∧ List.replicate j c <+: b := by
  rw [List.infix_append_iff]
  refine or_congr Iff.rfl (or_congr Iff.rfl ⟨?_, ?_⟩)
  · rintro ⟨l₁, l₂, heq, ha, hb⟩
    obtain ⟨hn, h₁, h₂⟩ := List.replicate_eq_append_iff.mp heq
    exact ⟨l₁.length, l₂.length, hn, h₁ ▸ ha, h₂ ▸ hb⟩
  · rintro ⟨i, j, rfl, ha, hb⟩
    exact ⟨_, _, List.replicate_add i j c, ha, hb⟩

theorem eq_zero_of_replicate_suffix {c : Char} {n : Nat} {t : Text}
    (ht : t.getLast? ≠ some c) (h : List.replicate n c <:+ t) : n = 0 := by
  obtain ⟨s, rfl⟩ := h
  cases n with
  | zero => rfl
  | succ n =>
      rw [List.replicate_succ', ← List.append_assoc] at ht
      exact absurd List.getLast?_concat ht

theorem eq_zero_of_replicate_prefix {c : Char} {n : Nat} {t : Text}
    (ht : t.head? ≠ some c) (h : List.replicate n c <+: t) : n = 0 := by
  obtain ⟨s, rfl⟩ := h
  cases n with
  | zero => rfl
  | succ n => exact absurd List.head?_cons ht

theorem le_longestRun_append (c : Char) (a b : Text) :
    max (longestRun c a) (longestRun c b) ≤ longestRun c (a ++ b) := by
  have ha : List.replicate (longestRun c a) c <:+: a := replicate_infix_iff.mpr le_rfl
  have hb : List.replicate (longestRun c b) c <:+: b := replicate_infix_iff.mpr le_rfl
  apply max_le
  · exact replicate_infix_iff.mp (replicate_infix_append_iff.mpr (Or.inl ha))
  · exact replicate_infix_iff.mp (replicate_infix_append_iff.mpr (Or.inr (Or.inl hb)))

/-- The longest run of two texts is one of either, or it is made of a run at the end of
the first and one at the start of the second. -/
theorem longestRun_append_cases (c : Char) (a b : Text) :
    longestRun c (a ++ b) ≤ max (longestRun c a) (longestRun c b) ∨
      ∃ i j, i + j = longestRun c (a ++ b) ∧
        List.replicate i c <:+ a ∧ i ≤ longestRun c a ∧
        List.replicate j c <+: b ∧ j ≤ longestRun c b := by
  have hrun : List.replicate (longestRun c (a ++ b)) c <:+: a ++ b :=
    replicate_infix_iff.mpr le_rfl
  rcases replicate_infix_append_iff.mp hrun with ha | hb | ⟨i, j, hsum, hi, hj⟩
  · exact Or.inl ((replicate_infix_iff.mp ha).trans (Nat.le_max_left _ _))
  · exact Or.inl ((replicate_infix_iff.mp hb).trans (Nat.le_max_right _ _))
  · exact Or.inr ⟨i, j, hsum, hi, replicate_infix_iff.mp hi.isInfix,
      hj, replicate_infix_iff.mp hj.isInfix⟩

theorem longestRun_append_le (c : Char) (a b : Text) :
    longestRun c (a ++ b) ≤ longestRun c a + longestRun c b := by
  rcases longestRun_append_cases c a b with h | ⟨i, j, hsum, -, hia, -, hjb⟩ <;> omega

/-- A run cannot reach across if there is nothing of it on one of the two sides. -/
theorem longestRun_append_of_apart {c : Char} {a b : Text}
    (h : a.getLast? ≠ some c ∨ b.head? ≠ some c) :
    longestRun c (a ++ b) = max (longestRun c a) (longestRun c b) := by
  refine le_antisymm ?_ (le_longestRun_append c a b)
  rcases longestRun_append_cases c a b with hle | ⟨i, j, hsum, hi, hia, hj, hjb⟩
  · exact hle
  · rcases h with hlast | hhead
    · have hzero : i = 0 := eq_zero_of_replicate_suffix hlast hi
      omega
    · have hzero : j = 0 := eq_zero_of_replicate_prefix hhead hj
      omega

/-- **What the longest run is.** As many copies of a character as it counts stand next to
each other, and no more. For two texts put together it is at least the longer of their
runs and at most the two together. It is the longer one if the first text does not end
with the character or the second does not start with it. -/
theorem longestRun_measures (c : Char) (a b : Text) :
    (∀ n, List.replicate n c <:+: a ↔ n ≤ longestRun c a) ∧
      max (longestRun c a) (longestRun c b) ≤ longestRun c (a ++ b) ∧
      longestRun c (a ++ b) ≤ longestRun c a + longestRun c b ∧
      (a.getLast? ≠ some c ∨ b.head? ≠ some c →
        longestRun c (a ++ b) = max (longestRun c a) (longestRun c b)) :=
  ⟨fun _ => replicate_infix_iff, le_longestRun_append c a b, longestRun_append_le c a b,
    longestRun_append_of_apart⟩

/-- The run at the end of the first text counts in full, and the one that starts the
second text does not join it over the space. -/
theorem longestRun_measures_apart :
    let a : Text := "a\x60 \x60\x60\x60".toList
    let b : Text := " \x60\x60b".toList
    List.replicate 3 '\x60' <:+: a ∧ b.head? ≠ some '\x60' ∧
      longestRun '\x60' (a ++ b) = max 3 2 := by
  intro a b
  have hhead : b.head? ≠ some '\x60' := by decide
  obtain ⟨hruns, -, -, happend⟩ := longestRun_measures '\x60' a b
  exact ⟨(hruns 3).mpr (by decide), hhead, happend (Or.inr hhead)⟩

end Text

end Markdown
