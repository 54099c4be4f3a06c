import Markdown.Text

/-!
# Lines and line endings

`lines` drops the carriage return of a line ending and keeps every other one.
So the lines of a text are its pieces between line feeds once each ending of
two characters has become a plain one (`lines_eq_splitOn`), and everything
about lines follows from what is known about splitting at a character.

Joining is the way back (`lines_inverse`): the joined lines of a text are the text
with plain endings, and joined lines are read as they were, unless a carriage return
at the end of one of them meets the line feed after it.
-/

namespace Markdown

namespace Text

/-- A text with a plain line feed for each carriage return and line feed, in
one pass from left to right. -/
def plainEndings : Text → Text
  | [] => []
  | '\r' :: '\n' :: rest => '\n' :: plainEndings rest
  | c :: rest => c :: plainEndings rest

/-- The side condition of the last equations of `lines` and `plainEndings`, in
the form that the lemmas below use. -/
theorem head_ne_feed {c : Char} {t : Text}
    (h : ∀ rest, c = '\r' → t = '\n' :: rest → False) :
    c = '\r' → t.head? ≠ some '\n' := by
  intro hc ht
  obtain ⟨rest, hrest⟩ := List.head?_eq_some_iff.mp ht
  exact h rest hc hrest

@[simp] theorem plainEndings_nil : plainEndings [] = [] := rfl

@[simp] theorem plainEndings_ending (t : Text) :
    plainEndings ('\r' :: '\n' :: t) = '\n' :: plainEndings t := rfl

theorem plainEndings_cons {c : Char} {t : Text}
    (h : c = '\r' → t.head? ≠ some '\n') :
    plainEndings (c :: t) = c :: plainEndings t := by
  rw [plainEndings]
  rintro rest rfl rfl
  exact h rfl rfl

theorem plainEndings_eq_nil_iff {t : Text} : t.plainEndings = [] ↔ t = [] := by
  fun_cases plainEndings t with
  | case1 => rfl
  | case2 rest => exact iff_of_false nofun nofun
  | case3 c rest => exact iff_of_false nofun nofun

theorem getLast?_plainEndings (t : Text) : t.plainEndings.getLast? = t.getLast? := by
  fun_induction plainEndings t with
  | case1 => rfl
  | case2 rest ih => rw [List.getLast?_cons, ih, List.getLast?_cons_cons, List.getLast?_cons]
  | case3 c rest hending ih => rw [List.getLast?_cons, ih, List.getLast?_cons]

theorem feed_mem_plainEndings {t : Text} (h : '\n' ∈ t) : '\n' ∈ t.plainEndings := by
  fun_induction plainEndings t with
  | case1 => exact h
  | case2 rest ih => exact List.mem_cons_self
  | case3 c rest hending ih =>
      rcases List.mem_cons.mp h with rfl | h
      · exact List.mem_cons_self
      · exact List.mem_cons_of_mem c (ih h)

theorem lines_cons {c : Char} {t : Text} (hc : c ≠ '\n')
    (h : c = '\r' → t.head? ≠ some '\n') :
    lines (c :: t) = (lines t).modifyHead (c :: ·) := by
  rw [lines]
  · rintro rest rfl rfl
    exact h rfl rfl
  · exact hc

theorem lines_append_of_unbroken {a : Text} (h : ∀ c ∈ a, isBreak c = false)
    (t : Text) : lines (a ++ t) = (lines t).modifyHead (a ++ ·) := by
  induction a with
  | nil =>
      obtain ⟨l, ls, hl⟩ := List.exists_cons_of_ne_nil (lines_ne_nil t)
      simp [hl]
  | cons c a ih =>
      have hc : c ≠ '\n' ∧ c ≠ '\r' := by
        simpa [isBreak] using h c List.mem_cons_self
      rw [List.cons_append, lines_cons hc.1 fun e => absurd e hc.2,
        ih fun d hd => h d (List.mem_cons_of_mem c hd), List.modifyHead_modifyHead]
      rfl

/-! ## Joined texts -/

theorem intercalate_cons {α : Type} (separator l : List α) (ls : List (List α)) :
    separator.intercalate (l :: ls) = l ++ ls.flatMap (separator ++ ·) := by
  induction ls generalizing l with
  | nil => simp
  | cons m ls ih =>
      rw [List.intercalate_cons_cons, ih m, List.flatMap_cons, List.append_assoc,
        List.append_assoc]

theorem mem_intercalate {separator : Text} {ls : List Text} {c : Char}
    (h : c ∈ separator.intercalate ls) : c ∈ separator ∨ ∃ l ∈ ls, c ∈ l := by
  cases ls with
  | nil => exact absurd h List.not_mem_nil
  | cons l ls =>
      rw [intercalate_cons, List.mem_append, List.mem_flatMap] at h
      rcases h with h | ⟨m, hm, h⟩
      · exact Or.inr ⟨l, List.mem_cons_self, h⟩
      · rcases List.mem_append.mp h with h | h
        · exact Or.inl h
        · exact Or.inr ⟨m, List.mem_cons_of_mem l hm, h⟩

theorem infix_intercalate {separator l : Text} {ls : List Text} (h : l ∈ ls) :
    l <:+: separator.intercalate ls := by
  cases ls with
  | nil => exact absurd h List.not_mem_nil
  | cons m ls =>
      rw [intercalate_cons]
      rcases List.mem_cons.mp h with rfl | h
      · exact List.infix_append_left
      · have hrest : separator ++ l <:+: ls.flatMap (separator ++ ·) := by
          rw [List.flatMap_def]
          exact List.infix_of_mem_flatten (List.mem_map_of_mem h)
        exact (List.infix_append_right.trans hrest).trans List.infix_append_right

theorem unlines_cons (l : Text) (ls : List Text) :
    unlines (l :: ls) = l ++ ls.flatMap ('\n' :: ·) :=
  intercalate_cons ['\n'] l ls

theorem unlines_cons_cons (l m : Text) (ls : List Text) :
    unlines (l :: m :: ls) = l ++ '\n' :: unlines (m :: ls) := by
  rw [unlines_cons, unlines_cons, List.flatMap_cons, List.cons_append]

theorem unlines_singleton (l : Text) : unlines [l] = l :=
  List.intercalate_singleton

theorem unlines_append {ls ms : List Text} (hls : ls ≠ []) (hms : ms ≠ []) :
    unlines (ls ++ ms) = unlines ls ++ '\n' :: unlines ms := by
  obtain ⟨l, ls, rfl⟩ := List.exists_cons_of_ne_nil hls
  obtain ⟨m, ms, rfl⟩ := List.exists_cons_of_ne_nil hms
  rw [List.cons_append, unlines_cons, unlines_cons, unlines_cons, List.flatMap_append,
    List.flatMap_cons, List.append_assoc, List.cons_append]

/-- Lines may be joined in groups first, if there is no empty group. -/
theorem unlines_flatten {groups : List (List Text)} (h : ∀ g ∈ groups, g ≠ []) :
    unlines (groups.map unlines) = unlines groups.flatten := by
  induction groups with
  | nil => rfl
  | cons g gs ih =>
      obtain ⟨hg, hgs⟩ := List.forall_mem_cons.mp h
      cases gs with
      | nil => simp [unlines]
      | cons g' gs =>
          have hrest : (g' :: gs).flatten ≠ [] := by
            rw [List.flatten_cons]
            exact List.append_ne_nil_of_left_ne_nil (hgs g' List.mem_cons_self) _
          rw [List.flatten_cons, unlines_append hg hrest, ← ih hgs]
          rfl

theorem mem_unlines {ls : List Text} {c : Char} (h : c ∈ unlines ls) :
    c = '\n' ∨ ∃ l ∈ ls, c ∈ l :=
  (mem_intercalate h).imp_left List.mem_singleton.mp

/-- Replacing characters one by one can be done line by line, if line feeds
stay as they are. -/
theorem unlines_map_flatMap {f : Char → Text} (h : f '\n' = ['\n'])
    (ls : List Text) :
    unlines (ls.map (·.flatMap f)) = (unlines ls).flatMap f := by
  cases ls with
  | nil => rfl
  | cons l ls =>
      rw [List.map_cons, unlines_cons, unlines_cons, List.flatMap_append,
        List.flatMap_map, List.flatMap_assoc]
      simp only [List.flatMap_cons, h, List.singleton_append]

theorem splitOn_cons_self (c : Char) (t : Text) :
    List.splitOn c (c :: t) = [] :: t.splitOn c := by
  rw [List.splitOn_cons_eq_if_modifyHead, if_pos (beq_self_eq_true c)]

theorem splitOn_append_of_notMem {c : Char} {a : Text} (h : c ∉ a) (t : Text) :
    (a ++ t).splitOn c = (t.splitOn c).modifyHead (a ++ ·) := by
  induction a with
  | nil =>
      obtain ⟨l, ls, hl⟩ := List.exists_cons_of_ne_nil (List.splitOn_ne_nil c t)
      simp [hl]
  | cons d a ih =>
      obtain ⟨hd, ha⟩ := not_or.mp (mt List.mem_cons.mpr h)
      rw [List.cons_append, List.splitOn_cons_eq_if_modifyHead,
        if_neg (by simpa using Ne.symm hd), ih ha, List.modifyHead_modifyHead]
      rfl

theorem notMem_of_mem_splitOn {c : Char} {t l : Text} (h : l ∈ t.splitOn c) : c ∉ l := by
  induction t generalizing l with
  | nil =>
      rw [List.splitOn_nil, List.mem_singleton] at h
      exact h ▸ List.not_mem_nil
  | cons d t ih =>
      obtain ⟨first, rest, hsplit⟩ := List.exists_cons_of_ne_nil (List.splitOn_ne_nil c t)
      rw [hsplit] at ih
      rw [List.splitOn_cons_eq_if_modifyHead, hsplit] at h
      split at h
      · rcases List.mem_cons.mp h with rfl | h
        · exact List.not_mem_nil
        · exact ih h
      · next hd =>
          rcases List.mem_cons.mp h with rfl | h
          · have hfirst : c ∉ first := ih List.mem_cons_self
            have hne : c ≠ d := fun e => hd (by simp [e])
            simpa [hne] using hfirst
          · exact ih (List.mem_cons_of_mem first h)

theorem prefix_of_mem_head?_splitOn {c : Char} {t a : Text}
    (h : a ∈ (t.splitOn c).head?) : a <+: t := by
  obtain ⟨rest, hsplit⟩ := List.head?_eq_some_iff.mp h
  have ht : [c].intercalate (t.splitOn c) = t := List.intercalate_splitOn c
  rw [hsplit, intercalate_cons] at ht
  exact ⟨_, ht⟩

/-! ## Splitting at line feeds -/

/-- **Lines are pieces between line feeds**, once the endings are plain. -/
theorem lines_eq_splitOn (t : Text) :
    lines t = t.plainEndings.splitOn '\n' := by
  fun_induction lines t with
  | case1 => rfl
  | case2 rest ih => simp [List.splitOn_cons_eq_if_modifyHead, ih]
  | case3 rest ih =>
      rw [plainEndings_cons (fun h => absurd h (by decide))]
      simp [List.splitOn_cons_eq_if_modifyHead, ih]
  | case4 c rest hending hfeed ih =>
      rw [plainEndings_cons (head_ne_feed hending),
        List.splitOn_cons_eq_if_modifyHead, ih]
      simp [show c ≠ '\n' from hfeed]

theorem unlines_lines (t : Text) : unlines (lines t) = t.plainEndings := by
  rw [lines_eq_splitOn, unlines, List.intercalate_splitOn]

theorem lines_inj {a b : Text} :
    lines a = lines b ↔ a.plainEndings = b.plainEndings := by
  constructor
  · intro h
    rw [← unlines_lines a, h, unlines_lines]
  · intro h
    rw [lines_eq_splitOn, h, ← lines_eq_splitOn]

theorem length_lines (t : Text) : t.lines.length = t.count '\n' + 1 := by
  fun_induction lines t with
  | case1 => rfl
  | case2 rest ih => simp [ih]
  | case3 rest ih => simp [ih]
  | case4 c rest hending hfeed ih =>
      rw [List.length_modifyHead, ih, List.count_cons_of_ne hfeed]

theorem feed_notMem_of_mem_lines {t l : Text} (h : l ∈ lines t) : '\n' ∉ l := by
  induction t using lines.induct generalizing l with
  | case1 =>
      rw [lines, List.mem_singleton] at h
      simp [h]
  | case2 rest ih =>
      rcases List.mem_cons.mp h with rfl | h
      · exact List.not_mem_nil
      · exact ih h
  | case3 rest ih =>
      rcases List.mem_cons.mp h with rfl | h
      · exact List.not_mem_nil
      · exact ih h
  | case4 c rest hending hfeed ih =>
      obtain ⟨first, later, hls⟩ := List.exists_cons_of_ne_nil (lines_ne_nil rest)
      rw [lines_cons hfeed (head_ne_feed hending), hls, List.modifyHead_cons] at h
      rcases List.mem_cons.mp h with rfl | h
      · have hfirst := ih (hls ▸ List.mem_cons_self)
        simpa [Ne.symm hfeed] using hfirst
      · exact ih (hls ▸ List.mem_cons_of_mem first h)

theorem mem_of_mem_lines {t l : Text} (h : l ∈ lines t) {c : Char} (hc : c ∈ l) :
    c ∈ t := by
  induction t using lines.induct generalizing l with
  | case1 =>
      rw [lines, List.mem_singleton] at h
      exact absurd hc (h ▸ List.not_mem_nil)
  | case2 rest ih =>
      rcases List.mem_cons.mp h with rfl | h
      · exact absurd hc List.not_mem_nil
      · exact List.mem_cons_of_mem _ (List.mem_cons_of_mem _ (ih h hc))
  | case3 rest ih =>
      rcases List.mem_cons.mp h with rfl | h
      · exact absurd hc List.not_mem_nil
      · exact List.mem_cons_of_mem _ (ih h hc)
  | case4 d rest hending hfeed ih =>
      obtain ⟨first, later, hls⟩ := List.exists_cons_of_ne_nil (lines_ne_nil rest)
      rw [lines_cons hfeed (head_ne_feed hending), hls, List.modifyHead_cons] at h
      rcases List.mem_cons.mp h with rfl | h
      · rcases List.mem_cons.mp hc with rfl | hc
        · exact List.mem_cons_self
        · exact List.mem_cons_of_mem d (ih (hls ▸ List.mem_cons_self) hc)
      · exact List.mem_cons_of_mem d (ih (hls ▸ List.mem_cons_of_mem first h) hc)

/-! ## Texts put together -/

theorem plainEndings_append_ending (a b : Text) :
    plainEndings (a ++ '\r' :: '\n' :: b) =
      a.plainEndings ++ '\n' :: b.plainEndings := by
  fun_induction plainEndings a with
  | case1 => rfl
  | case2 rest ih => simp [ih]
  | case3 c rest hending ih =>
      have hhead : c = '\r' → (rest ++ '\r' :: '\n' :: b).head? ≠ some '\n' := by
        intro hc
        cases rest with
        | nil => simp
        | cons d rest' => simpa using head_ne_feed hending hc
      rw [List.cons_append, plainEndings_cons hhead, ih, List.cons_append]

theorem plainEndings_append_feed {a : Text} (h : a.getLast? ≠ some '\r')
    (b : Text) :
    plainEndings (a ++ '\n' :: b) = a.plainEndings ++ '\n' :: b.plainEndings := by
  fun_induction plainEndings a with
  | case1 => exact plainEndings_cons fun hc => absurd hc (by decide)
  | case2 rest ih =>
      cases rest with
      | nil => exact congrArg _ (ih (by simp))
      | cons d rest' =>
          simp only [List.cons_append, plainEndings_ending, List.cons.injEq,
            true_and]
          exact ih (by simpa using h)
  | case3 c rest hending ih =>
      -- only the last character of `a` can meet the line feed
      cases rest with
      | nil =>
          have hc : c ≠ '\r' := by simpa using h
          rw [List.cons_append, plainEndings_cons fun e => absurd e hc, ih (by simp)]
          rfl
      | cons d rest' =>
          have hhead : c = '\r' → (d :: rest' ++ '\n' :: b).head? ≠ some '\n' :=
            fun hc => by simpa using head_ne_feed hending hc
          rw [List.cons_append, plainEndings_cons hhead, ih (by simpa using h)]
          rfl

/-- An ending of two characters parts the lines before it from those after. -/
theorem lines_append_ending (a b : Text) :
    lines (a ++ '\r' :: '\n' :: b) = lines a ++ lines b := by
  simp only [lines_eq_splitOn, plainEndings_append_ending,
    List.splitOn_append_cons_self]

theorem lines_append_feed {a : Text} (h : a.getLast? ≠ some '\r') (b : Text) :
    lines (a ++ '\n' :: b) = lines a ++ lines b := by
  simp only [lines_eq_splitOn, plainEndings_append_feed h,
    List.splitOn_append_cons_self]

theorem lines_of_feed_notMem {l : Text} (h : '\n' ∉ l) : lines l = [l] := by
  induction l with
  | nil => rfl
  | cons c l ih =>
      obtain ⟨hc, hl⟩ := not_or.mp (mt List.mem_cons.mpr h)
      have hhead : c = '\r' → l.head? ≠ some '\n' := fun _ hh =>
        hl (List.mem_of_head? hh)
      rw [lines_cons (Ne.symm hc) hhead, ih hl, List.modifyHead_cons]

/-- What follows a text goes on in its last line, unless it could complete a line
ending. -/
theorem lines_append {a : Text} (h : a.getLast? ≠ some '\r') (b : Text) :
    ∃ init last first later, lines a = init ++ [last] ∧ lines b = first :: later ∧
      lines (a ++ b) = init ++ (last ++ first) :: later := by
  have hend : ∀ {c : Char} {t : Text},
      (c :: t).getLast? ≠ some '\r' → t.getLast? ≠ some '\r' := by
    intro c t hct ht
    exact hct (by rw [List.getLast?_cons, ht]; rfl)
  induction a using lines.induct with
  | case1 =>
      obtain ⟨first, later, hlines⟩ := List.exists_cons_of_ne_nil (lines_ne_nil b)
      exact ⟨[], [], first, later, rfl, hlines, hlines⟩
  | case2 rest ih =>
      obtain ⟨init, last, first, later, hrest, hb, happend⟩ := ih (hend (hend h))
      exact ⟨[] :: init, last, first, later, congrArg ([] :: ·) hrest, hb,
        congrArg ([] :: ·) happend⟩
  | case3 rest ih =>
      obtain ⟨init, last, first, later, hrest, hb, happend⟩ := ih (hend h)
      exact ⟨[] :: init, last, first, later, congrArg ([] :: ·) hrest, hb,
        congrArg ([] :: ·) happend⟩
  | case4 c rest hending hfeed ih =>
      obtain ⟨init, last, first, later, hrest, hb, happend⟩ := ih (hend h)
      have hhead : c = '\r' → (rest ++ b).head? ≠ some '\n' := by
        rintro rfl
        cases rest with
        | nil => exact absurd rfl h
        | cons d rest => simpa using head_ne_feed hending rfl
      rw [List.cons_append, lines_cons hfeed (head_ne_feed hending),
        lines_cons hfeed hhead, hrest, happend]
      cases init with
      | nil => exact ⟨[], c :: last, first, later, rfl, hb, rfl⟩
      | cons l init => exact ⟨(c :: l) :: init, last, first, later, rfl, hb, rfl⟩

theorem exists_mem_lines_append {a : Text} (h : a.getLast? ≠ some '\r') (b : Text)
    {l : Text} (hl : l ∈ lines a) : ∃ k ∈ lines (a ++ b), l <+: k := by
  obtain ⟨init, last, first, later, ha, -, hab⟩ := lines_append h b
  rw [ha, List.mem_append, List.mem_singleton] at hl
  rw [hab]
  rcases hl with hl | rfl
  · exact ⟨l, List.mem_append_left _ hl, List.prefix_rfl⟩
  · exact ⟨l ++ first, List.mem_append_right _ List.mem_cons_self, List.prefix_append l first⟩

theorem unlines_flatMap_splitOn (ts : List Text) :
    unlines (ts.flatMap (·.splitOn '\n')) = unlines ts := by
  have hne : ∀ g ∈ ts.map (·.splitOn '\n'), g ≠ [] :=
    List.forall_mem_map.mpr fun t _ => List.splitOn_ne_nil '\n' t
  have hjoin : (ts.map (·.splitOn '\n')).map unlines = ts := by
    rw [List.map_map]
    exact (List.map_congr_left fun t _ => List.intercalate_splitOn '\n').trans (List.map_id ts)
  rw [List.flatMap_def, ← unlines_flatten hne, hjoin]

theorem exists_dropEndWhile_append (p : Char → Bool) (t : Text) :
    ∃ w, t.dropEndWhile p ++ w = t ∧ ∀ c ∈ w, p c = true := by
  refine ⟨(t.reverse.takeWhile p).reverse, ?_, ?_⟩
  · rw [dropEndWhile, ← List.reverse_append, List.takeWhile_append_dropWhile,
      List.reverse_reverse]
  · intro c hc
    exact List.all_eq_true.mp List.all_takeWhile c (List.mem_reverse.mp hc)

theorem dropEndWhile_append {p : Char → Bool} {w : Text} (h : ∀ c ∈ w, p c = true) (t : Text) :
    dropEndWhile p (t ++ w) = t.dropEndWhile p := by
  have hreverse : ∀ c ∈ w.reverse, p c = true := fun c hc => h c (List.mem_reverse.mp hc)
  rw [dropEndWhile, List.reverse_append, List.dropWhile_append_of_pos hreverse, dropEndWhile]

theorem getLast?_dropEndWhile {p : Char → Bool} {t : Text} {c : Char}
    (h : (t.dropEndWhile p).getLast? = some c) : p c = false := by
  have hhead := List.head?_dropWhile_not p t.reverse
  rw [dropEndWhile, List.getLast?_reverse] at h
  rwa [h] at hhead

/-! ## Joined lines, read again -/

/-- A line without the carriage return that a line feed after it would take up. -/
def dropReturn (l : Text) : Text :=
  if l.getLast? = some '\r' then l.dropLast else l

theorem dropReturn_append_return (l : Text) : dropReturn (l ++ ['\r']) = l := by
  simp [dropReturn]

theorem dropReturn_of_getLast? {l : Text} (h : l.getLast? ≠ some '\r') :
    dropReturn l = l :=
  if_neg h

theorem eq_dropReturn (l : Text) : l = dropReturn l ∨ l = dropReturn l ++ ['\r'] := by
  by_cases h : l.getLast? = some '\r'
  · obtain ⟨l₀, rfl⟩ := List.getLast?_eq_some_iff.mp h
    rw [dropReturn_append_return]
    exact Or.inr rfl
  · exact Or.inl (dropReturn_of_getLast? h).symm

theorem dropReturn_prefix (l : Text) : dropReturn l <+: l := by
  rcases eq_dropReturn l with h | h
  · exact ⟨[], by rw [List.append_nil, ← h]⟩
  · exact ⟨['\r'], h.symm⟩

theorem prefix_dropReturn_append {a b : Text} (h : b ≠ []) :
    a <+: dropReturn (a ++ b) := by
  rcases eq_dropReturn (a ++ b) with hab | hab
  · rw [← hab]
    exact List.prefix_append a b
  · have ha : a <+: dropReturn (a ++ b) ++ ['\r'] := ⟨b, hab⟩
    rcases List.prefix_concat_iff.mp ha with hwhole | ha
    · exact absurd (List.append_right_eq_self.mp (hab.trans hwhole.symm)) h
    · exact ha

/-- Only a last piece without characters can be lost with a carriage return. -/
theorem mem_splitOn_dropReturn {l k : Text} (hk : k ≠ []) :
    k ∈ (dropReturn l).splitOn '\r' ↔ k ∈ l.splitOn '\r' := by
  rcases eq_dropReturn l with h | h
  · rw [← h]
  · have hsplit : l.splitOn '\r' = (dropReturn l).splitOn '\r' ++ [[]] :=
      (congrArg (List.splitOn '\r') h).trans (List.splitOn_append_cons_self _ [])
    simp [hsplit, hk]

theorem lines_append_feed_cons {l : Text} (h : '\n' ∉ l) (t : Text) :
    lines (l ++ '\n' :: t) = dropReturn l :: lines t := by
  by_cases hlast : l.getLast? = some '\r'
  · obtain ⟨l₀, rfl⟩ := List.getLast?_eq_some_iff.mp hlast
    have hl₀ : '\n' ∉ l₀ := fun hmem => h (List.mem_append_left _ hmem)
    rw [List.append_assoc, List.singleton_append, lines_append_ending,
      lines_of_feed_notMem hl₀, dropReturn_append_return, List.singleton_append]
  · rw [lines_append_feed hlast, lines_of_feed_notMem h, dropReturn_of_getLast? hlast,
      List.singleton_append]

/-- **Joined lines, read again.** Each line but the last loses a carriage return at
its end to the line feed after it. -/
theorem lines_unlines {ls : List Text} (hls : ∀ l ∈ ls, '\n' ∉ l) {last : Text}
    (hlast : '\n' ∉ last) :
    lines (unlines (ls ++ [last])) = ls.map dropReturn ++ [last] := by
  induction ls with
  | nil =>
      rw [List.nil_append, unlines_singleton]
      exact lines_of_feed_notMem hlast
  | cons l ls ih =>
      obtain ⟨hl, hrest⟩ := List.forall_mem_cons.mp hls
      have hne : ls ++ [last] ≠ [] := List.append_ne_nil_of_right_ne_nil ls (by simp)
      rw [List.cons_append, ← List.singleton_append, unlines_append (by simp) hne,
        unlines_singleton, lines_append_feed_cons hl, ih hrest, List.map_cons, List.cons_append]

theorem mem_lines_of_mem_unlines {ls : List Text} (h : ∀ l ∈ ls, '\n' ∉ l) {l : Text}
    (hl : l ∈ ls) : l ∈ lines (unlines ls) ∨ dropReturn l ∈ lines (unlines ls) := by
  obtain ⟨init, last, rfl⟩ : ∃ init last, ls = init ++ [last] :=
    ⟨ls.dropLast, ls.getLast (List.ne_nil_of_mem hl), (List.dropLast_concat_getLast _).symm⟩
  obtain ⟨hinit, hlast⟩ := List.forall_mem_append.mp h
  rw [lines_unlines hinit (hlast last List.mem_cons_self)]
  rcases List.mem_append.mp hl with hl | hl
  · exact Or.inr (List.mem_append_left _ (List.mem_map_of_mem hl))
  · exact Or.inl (List.mem_append_right _ hl)

theorem mem_lines_unlines {ls : List Text} (hls : ls ≠ [])
    (h : ∀ l ∈ ls, '\n' ∉ l) {k : Text} (hk : k ∈ lines (unlines ls)) :
    ∃ l ∈ ls, l = k ∨ l = k ++ ['\r'] := by
  obtain ⟨ls, last, rfl⟩ : ∃ init last, ls = init ++ [last] :=
    ⟨ls.dropLast, ls.getLast hls, (List.dropLast_concat_getLast hls).symm⟩
  obtain ⟨hinit, hlast⟩ := List.forall_mem_append.mp h
  rw [lines_unlines hinit (hlast last List.mem_cons_self), List.mem_append,
    List.mem_map, List.mem_singleton] at hk
  rcases hk with ⟨l, hl, rfl⟩ | rfl
  · exact ⟨l, List.mem_append_left _ hl, eq_dropReturn l⟩
  · exact ⟨k, List.mem_append_right _ List.mem_cons_self, Or.inl rfl⟩

/-- Lines are read as they were joined, if no carriage return meets a line feed. -/
theorem lines_unlines_of_getLast? {ls : List Text} (hls : ls ≠ [])
    (hfeed : ∀ l ∈ ls, '\n' ∉ l) (hreturn : ∀ l ∈ ls.dropLast, l.getLast? ≠ some '\r') :
    lines (unlines ls) = ls := by
  obtain ⟨init, last, rfl⟩ : ∃ init last, ls = init ++ [last] :=
    ⟨ls.dropLast, ls.getLast hls, (List.dropLast_concat_getLast hls).symm⟩
  obtain ⟨hinit, hlast⟩ := List.forall_mem_append.mp hfeed
  rw [List.dropLast_concat] at hreturn
  have hkeep : init.map dropReturn = init :=
    (List.map_congr_left fun l hl => dropReturn_of_getLast? (hreturn l hl)).trans init.map_id
  rw [lines_unlines hinit (hlast last List.mem_cons_self), hkeep]

/-- **Lines come apart and together again.** The joined lines of a text are the text with
plain endings. There is one more of them than there are line feeds, and none has a line
feed in it. Lines without line feeds that do not end with a carriage return, except
perhaps the last one, are the lines of what they are joined to. -/
theorem lines_inverse :
    (∀ t : Text, unlines t.lines = t.plainEndings ∧ t.lines.length = t.count '\n' + 1 ∧
        ∀ l ∈ t.lines, '\n' ∉ l) ∧
      ∀ ls : List Text, ls ≠ [] → (∀ l ∈ ls, '\n' ∉ l) →
        (∀ l ∈ ls.dropLast, l.getLast? ≠ some '\r') → lines (unlines ls) = ls :=
  ⟨fun t => ⟨unlines_lines t, length_lines t, fun _ => feed_notMem_of_mem_lines⟩,
    fun _ => lines_unlines_of_getLast?⟩

/-- Of two carriage returns before a line feed the first one stays, in the text that is
joined again too. A lone one may stand within a line, and at the end of the last. -/
theorem lines_inverse_returns :
    let t : Text := "\r\r\n\nb\r\n".toList
    let ls : List Text := ["a\rb".toList, [], "c\r".toList]
    unlines t.lines = "\r\n\nb\n".toList ∧ t.lines.length = 4 ∧
      ls ≠ [] ∧ (∀ l ∈ ls, '\n' ∉ l) ∧ (∀ l ∈ ls.dropLast, l.getLast? ≠ some '\r') ∧
      unlines ls = "a\rb\n\nc\r".toList ∧ lines (unlines ls) = ls := by
  intro t ls
  have hne : ls ≠ [] := by decide
  have hfeed : ∀ l ∈ ls, '\n' ∉ l := by decide
  have hreturn : ∀ l ∈ ls.dropLast, l.getLast? ≠ some '\r' := by decide
  obtain ⟨hjoin, hlength, -⟩ := lines_inverse.1 t
  exact ⟨hjoin, hlength, hne, hfeed, hreturn, rfl, lines_inverse.2 ls hne hfeed hreturn⟩

end Text

end Markdown
