import Markdown.Proofs.Lines

/-!
# Glyphs

How a reader takes a text: from left to right, a backslash together with the
character after it, and any other character by itself. What comes out is one
glyph for each. Two views of it are used below:

- `unescape` keeps the character of every glyph: what a reader shows.
- `active` keeps the characters that stand by themselves: what a reader may
  act on.

A text is closed if no backslash at its end waits for a character. Only after
closed text does a reader start afresh (`glyphs_append`).
-/

namespace Markdown

/-- A character as a reader meets it: by itself or after a backslash. A backslash at
the end of a text dangles. -/
inductive Glyph where
  | bare (c : Char)
  | escaped (c : Char)
  | dangling
deriving DecidableEq, Repr

namespace Glyph

def shown? : Glyph → Option Char
  | bare c => some c
  | escaped c => some c
  | dangling => none

/-- The character of a glyph that has kept its meaning. -/
def active? : Glyph → Option Char
  | bare c => some c
  | escaped _ => none
  | dangling => none

end Glyph

namespace Text

def glyphs : Text → List Glyph
  | [] => []
  | ['\\'] => [.dangling]
  | '\\' :: c :: rest => .escaped c :: glyphs rest
  | c :: rest => .bare c :: glyphs rest

/-- A text as a reader shows it: without each backslash, and with the character
after it. -/
def unescape (t : Text) : Text :=
  t.glyphs.filterMap Glyph.shown?

/-- The characters of a text that no backslash precedes as its partner. -/
def active (t : Text) : Text :=
  t.glyphs.filterMap Glyph.active?

/-- No backslash of a text waits for a character after its end. -/
def Closed (t : Text) : Prop :=
  .dangling ∉ t.glyphs

instance (t : Text) : Decidable t.Closed :=
  inferInstanceAs (Decidable (_ ∉ _))

@[simp] theorem glyphs_nil : glyphs [] = [] := rfl

@[simp] theorem glyphs_backslash (c : Char) (t : Text) :
    glyphs ('\\' :: c :: t) = .escaped c :: glyphs t := rfl

/-- The side conditions of the last equation of `glyphs` say that its first
character is no backslash. -/
theorem ne_backslash {c : Char} {t : Text} (hlast : c = '\\' → t = [] → False)
    (hpair : ∀ d rest, c = '\\' → t = d :: rest → False) : c ≠ '\\' := by
  intro hc
  cases t with
  | nil => exact hlast hc rfl
  | cons d rest => exact hpair d rest hc rfl

theorem glyphs_cons {c : Char} (h : c ≠ '\\') (t : Text) :
    glyphs (c :: t) = .bare c :: glyphs t := by
  rw [glyphs]
  · exact fun hc _ => h hc
  · exact fun _ _ hc _ => h hc

@[simp] theorem closed_nil : Closed [] := List.not_mem_nil

theorem glyphs_eq_nil_iff {t : Text} : t.glyphs = [] ↔ t = [] := by
  fun_cases glyphs t with
  | case1 => exact iff_of_true rfl rfl
  | case2 => exact iff_of_false nofun nofun
  | case3 c rest => exact iff_of_false nofun nofun
  | case4 c rest => exact iff_of_false nofun nofun

theorem glyphs_eq_map {t : Text} (h : '\\' ∉ t) : t.glyphs = t.map .bare := by
  induction t with
  | nil => rfl
  | cons c t ih =>
      obtain ⟨hc, ht⟩ := not_or.mp (mt List.mem_cons.mpr h)
      rw [glyphs_cons (Ne.symm hc), ih ht, List.map_cons]

theorem closed_of_backslash_notMem {t : Text} (h : '\\' ∉ t) : Closed t := by
  rw [Closed, glyphs_eq_map h]
  simp

/-! ## Texts put together -/

/-- **A reader starts afresh after closed text.** -/
theorem glyphs_append {a : Text} (h : Closed a) (b : Text) :
    (a ++ b : Text).glyphs = a.glyphs ++ b.glyphs := by
  fun_induction glyphs a with
  | case1 => rfl
  | case2 => exact absurd List.mem_cons_self h
  | case3 c rest ih =>
      have hrest : Closed rest := fun hmem => h (List.mem_cons_of_mem _ hmem)
      rw [List.cons_append, List.cons_append, glyphs_backslash, ih hrest]
      rfl
  | case4 c rest hlast hpair ih =>
      have hc : c ≠ '\\' := ne_backslash hlast hpair
      rw [Closed, glyphs_cons hc] at h
      have hrest : Closed rest := fun hmem => h (List.mem_cons_of_mem _ hmem)
      rw [List.cons_append, List.cons_append, glyphs_cons hc, ih hrest]

/-- After text that is not closed, the next character is taken as escaped. -/
theorem escaped_mem_of_not_closed {a : Text} (h : ¬Closed a) (c : Char)
    (b : Text) : Glyph.escaped c ∈ (a ++ c :: b : Text).glyphs := by
  -- the backslash that is left over is found again at the end of the recursion
  have hmem : Glyph.dangling ∈ a.glyphs := Decidable.not_not.mp h
  clear h
  fun_induction glyphs a with
  | case1 => exact absurd hmem List.not_mem_nil
  | case2 => exact List.mem_cons_self
  | case3 d rest ih =>
      have hrest : Glyph.dangling ∈ glyphs rest := by simpa using hmem
      exact List.mem_cons_of_mem _ (ih hrest)
  | case4 d rest hlast hpair ih =>
      have hrest : Glyph.dangling ∈ glyphs rest := by simpa using hmem
      rw [List.cons_append, glyphs_cons (ne_backslash hlast hpair)]
      exact List.mem_cons_of_mem _ (ih hrest)

/-- A last character that is no backslash stands by itself, or is what a backslash
before it has waited for. -/
theorem mem_glyphs_concat {c : Char} (hc : c ≠ '\\') {t : Text} {g : Glyph}
    (hg : g ∈ glyphs (t ++ [c])) :
    g = .bare c ∨ g = .escaped c ∨ g ∈ t.glyphs ∧ g ≠ .dangling := by
  fun_induction glyphs t with
  | case1 =>
      rw [List.nil_append, glyphs_cons hc, glyphs_nil, List.mem_singleton] at hg
      exact Or.inl hg
  | case2 => exact Or.inr (Or.inl (List.mem_singleton.mp hg))
  | case3 d rest ih =>
      rcases List.mem_cons.mp hg with rfl | hg
      · exact Or.inr (Or.inr ⟨List.mem_cons_self, nofun⟩)
      · exact (ih hg).imp_right (Or.imp_right (And.imp_left (List.mem_cons_of_mem _)))
  | case4 d rest hlast hpair ih =>
      rw [List.cons_append, glyphs_cons (ne_backslash hlast hpair)] at hg
      rcases List.mem_cons.mp hg with rfl | hg
      · exact Or.inr (Or.inr ⟨List.mem_cons_self, nofun⟩)
      · exact (ih hg).imp_right (Or.imp_right (And.imp_left (List.mem_cons_of_mem _)))

theorem exists_glyphs_concat {c : Char} (hc : c ≠ '\\') (t : Text) :
    ∃ gs g, glyphs (t ++ [c]) = gs ++ [g] ∧ g.shown? = some c := by
  fun_induction glyphs t with
  | case1 => exact ⟨[], .bare c, glyphs_cons hc [], rfl⟩
  | case2 => exact ⟨[], .escaped c, rfl, rfl⟩
  | case3 d rest ih =>
      obtain ⟨gs, g, hglyphs, hg⟩ := ih
      exact ⟨.escaped d :: gs, g, congrArg (Glyph.escaped d :: ·) hglyphs, hg⟩
  | case4 d rest hlast hpair ih =>
      obtain ⟨gs, g, hglyphs, hg⟩ := ih
      refine ⟨.bare d :: gs, g, ?_, hg⟩
      rw [List.cons_append, glyphs_cons (ne_backslash hlast hpair), hglyphs]
      rfl

theorem closed_concat {c : Char} (hc : c ≠ '\\') (t : Text) : Closed (t ++ [c]) := by
  intro hmem
  rcases mem_glyphs_concat hc hmem with h | h | ⟨-, h⟩
  · exact absurd h nofun
  · exact absurd h nofun
  · exact h rfl

theorem mem_of_mem_unescape {t : Text} {c : Char} (h : c ∈ t.unescape) : c ∈ t := by
  obtain ⟨g, hg, hshown⟩ := List.mem_filterMap.mp h
  clear h
  fun_induction glyphs t with
  | case1 => exact absurd hg List.not_mem_nil
  | case2 =>
      obtain rfl := List.mem_singleton.mp hg
      exact absurd hshown nofun
  | case3 d rest ih =>
      rcases List.mem_cons.mp hg with rfl | hg
      · obtain rfl : d = c := Option.some.inj hshown
        exact List.mem_cons_of_mem _ List.mem_cons_self
      · exact List.mem_cons_of_mem _ (List.mem_cons_of_mem _ (ih hg))
  | case4 d rest hlast hpair ih =>
      rcases List.mem_cons.mp hg with rfl | hg
      · obtain rfl : d = c := Option.some.inj hshown
        exact List.mem_cons_self
      · exact List.mem_cons_of_mem _ (ih hg)

theorem Closed.cons {c : Char} (hc : c ≠ '\\') {t : Text} (h : Closed t) :
    Closed (c :: t) := by
  rw [Closed, glyphs_cons hc, List.mem_cons]
  exact not_or.mpr ⟨nofun, h⟩

theorem Closed.append {a b : Text} (ha : Closed a) (hb : Closed b) :
    Closed (a ++ b) := by
  rw [Closed, glyphs_append ha, List.mem_append]
  exact not_or.mpr ⟨ha, hb⟩

theorem active_append {a : Text} (h : Closed a) (b : Text) :
    active (a ++ b) = a.active ++ b.active := by
  rw [active, glyphs_append h, List.filterMap_append]
  rfl

theorem glyphs_flatMap {α : Type} {f : α → Text} (xs : List α)
    (h : ∀ x ∈ xs, Closed (f x)) :
    glyphs (xs.flatMap f) = xs.flatMap fun x => glyphs (f x) := by
  induction xs with
  | nil => rfl
  | cons x xs ih =>
      rw [List.flatMap_cons, glyphs_append (h x List.mem_cons_self),
        ih fun y hy => h y (List.mem_cons_of_mem x hy), List.flatMap_cons]

theorem closed_flatMap {α : Type} {f : α → Text} {xs : List α} (h : ∀ x ∈ xs, Closed (f x)) :
    Closed (xs.flatMap f) := by
  rw [Closed, glyphs_flatMap xs h, List.mem_flatMap]
  rintro ⟨x, hx, hmem⟩
  exact h x hx hmem

theorem unescape_flatMap {α : Type} {f : α → Text} (xs : List α)
    (h : ∀ x ∈ xs, Closed (f x)) :
    unescape (xs.flatMap f) = xs.flatMap fun x => unescape (f x) := by
  rw [unescape, glyphs_flatMap xs h, List.filterMap_flatMap]
  rfl

/-- Closed lines are read line by line, each but the first after a line feed. -/
theorem glyphs_unlines_cons {l : Text} {ls : List Text} (hl : Closed l)
    (h : ∀ m ∈ ls, Closed m) :
    glyphs (unlines (l :: ls)) =
      l.glyphs ++ ls.flatMap fun m => .bare '\n' :: glyphs m := by
  rw [unlines_cons, glyphs_append hl, glyphs_flatMap]
  · simp only [glyphs_cons (show '\n' ≠ '\\' by decide)]
  · intro m hm
    exact (h m hm).cons (by decide)

theorem mem_glyphs_unlines {ls : List Text} (h : ∀ l ∈ ls, Closed l) {g : Glyph}
    (hg : g ∈ glyphs (unlines ls)) :
    g = .bare '\n' ∨ ∃ l ∈ ls, g ∈ glyphs l := by
  cases ls with
  | nil => exact absurd hg List.not_mem_nil
  | cons l ls =>
      rw [glyphs_unlines_cons (h l List.mem_cons_self)
        fun m hm => h m (List.mem_cons_of_mem l hm), List.mem_append,
        List.mem_flatMap] at hg
      rcases hg with hg | ⟨m, hm, hg⟩
      · exact Or.inr ⟨l, List.mem_cons_self, hg⟩
      · rcases List.mem_cons.mp hg with rfl | hg
        · exact Or.inl rfl
        · exact Or.inr ⟨m, List.mem_cons_of_mem l hm, hg⟩

theorem unescape_unlines {ls : List Text} (h : ∀ l ∈ ls, Closed l) :
    unescape (unlines ls) = unlines (ls.map unescape) := by
  cases ls with
  | nil => rfl
  | cons l ls =>
      rw [unescape, glyphs_unlines_cons (h l List.mem_cons_self)
        fun m hm => h m (List.mem_cons_of_mem l hm), List.filterMap_append,
        List.filterMap_flatMap, List.map_cons, unlines_cons, List.flatMap_map]
      rfl

end Text

end Markdown
