import Mathlib.Data.List.Forall2
import Markdown.Command
import Markdown.Proofs.Success

/-!
# Options, read

The arguments of the command are a row of options. Which arguments make an option, and
which choice it is, is a list of eight cases (`Spells`). Reading goes through the row from
left to right and takes two arguments wherever the first is the name of an option with a
value, whatever the second looks like (`groups`). So arguments are read to their end
exactly if they are a row of options (`choices_eq_ok_iff`), and help is called for exactly
if such a row stands before it (`choices_eq_help_iff`).
-/

namespace Markdown.Command

/-- The arguments that spell a choice: the name of an option, with a value behind it for
some. -/
inductive Spells : List Text → Choice → Prop
  | file (path : Text) : Spells ["--file".toList, path] (.file path)
  | context {name : Text} {ctx : Context} (h : contextOf? name = some ctx) :
      Spells ["--context".toList, name] (.context ctx)
  | language (language : Text) :
      Spells ["--language".toList, language] (.language language)
  | codeBlock : Spells ["--code-block".toList] (.form .codeBlock)
  | quote : Spells ["--quote".toList] (.form .quote)
  | heading (level : Text) :
      Spells ["--heading".toList, level] (.form (.heading (leadingInt level)))
  | safeMode : Spells ["--safe-mode".toList] .safeMode
  | raw : Spells ["--raw".toList] .raw

/-- Some arguments make one option, with its value if it takes one. -/
def IsOption (group : List Text) : Prop :=
  ∃ c, Spells group c

theorem Choice.plain?_eq_some_iff {name : Text} {c : Choice} :
    plain? name = some c ↔ Spells [name] c := by
  constructor
  · intro h
    rw [plain?] at h
    split_ifs at h with hname hname hname hname
    · subst hname
      obtain rfl := Option.some.inj h
      exact .codeBlock
    · subst hname
      obtain rfl := Option.some.inj h
      exact .quote
    · subst hname
      obtain rfl := Option.some.inj h
      exact .safeMode
    · subst hname
      obtain rfl := Option.some.inj h
      exact .raw
  · intro h
    cases h <;> rfl

theorem Choice.valued?_eq_some_iff {name value : Text} {c : Choice} :
    valued? name value = some c ↔ Spells [name, value] c := by
  constructor
  · intro h
    rw [valued?] at h
    split_ifs at h with hname hname hname hname
    · subst hname
      obtain rfl := Option.some.inj h
      exact .file value
    · subst hname
      obtain ⟨ctx, hctx, rfl⟩ := Option.map_eq_some_iff.mp h
      exact .context hctx
    · subst hname
      obtain rfl := Option.some.inj h
      exact .language value
    · subst hname
      obtain rfl := Option.some.inj h
      exact .heading value
  · intro h
    cases h with
    | context hctx => exact Option.map_eq_some_iff.mpr ⟨_, hctx, rfl⟩
    | _ => rfl

/-! ## Rows of options -/

theorem Spells.choices_append {group : List Text} {c : Choice} (h : Spells group c)
    (args : List Text) : choices (group ++ args) = (c :: ·) <$> choices args := by
  cases h with
  | context hctx =>
      show choices ("--context".toList :: _ :: args) = _
      rw [choices]
      simp [Choice.plain?, Choice.valued?, hctx]
  | _ => cases args <;> rfl

/-- A row of options is read option by option. -/
theorem choices_flatten_append {gs : List (List Text)} {cs : List Choice}
    (h : List.Forall₂ Spells gs cs) (args : List Text) :
    choices (gs.flatten ++ args) = (cs ++ ·) <$> choices args := by
  induction h with
  | nil =>
      show choices args = (fun cs => cs) <$> choices args
      exact (id_map _).symm
  | cons hg _ ih =>
      rw [List.flatten_cons, List.append_assoc, hg.choices_append, ih, ← comp_map]
      rfl

theorem choices_help (args : List Text) : choices ("--help".toList :: args) = .error .help := by
  cases args <;> rfl

def takesValue (name : Text) : Bool :=
  ["--file".toList, "--context".toList, "--language".toList, "--heading".toList].contains name

/-- Arguments option by option: a name together with the argument after it if the option
takes a value. -/
def groups : List Text → List (List Text)
  | [] => []
  | [name] => [[name]]
  | name :: value :: rest =>
      if takesValue name then [name, value] :: groups rest
      else [name] :: groups (value :: rest)

theorem flatten_groups (args : List Text) : (groups args).flatten = args := by
  fun_induction groups args with
  | case1 => rfl
  | case2 name => rfl
  | case3 name value rest _ ih => rw [List.flatten_cons, ih]; rfl
  | case4 name value rest _ ih => rw [List.flatten_cons, ih]; rfl

theorem Spells.takesValue {name : Text} {values : List Text} {c : Choice}
    (h : Spells (name :: values) c) : takesValue name = !values.isEmpty := by
  cases h <;> rfl

theorem spells_groups {args : List Text} {cs : List Choice} (h : choices args = .ok cs) :
    List.Forall₂ Spells (groups args) cs := by
  fun_induction choices args generalizing cs with
  | case1 =>
      obtain rfl := Except.ok.inj h
      exact .nil
  | case2 | case4 | case5 | case8 => exact absurd h nofun
  | case3 name hhelp c hplain =>
      obtain rfl := Except.ok.inj h
      exact .cons (Choice.plain?_eq_some_iff.mp hplain) .nil
  | case6 name value rest hhelp c hplain ih =>
      obtain ⟨cs, hcs, rfl⟩ := map_eq_ok_iff.mp h
      have hspells : Spells [name] c := Choice.plain?_eq_some_iff.mp hplain
      have hvalue : takesValue name = false := hspells.takesValue
      rw [groups, hvalue]
      exact .cons hspells (ih hcs)
  | case7 name value rest hhelp hplain c hvalued ih =>
      obtain ⟨cs, hcs, rfl⟩ := map_eq_ok_iff.mp h
      have hspells : Spells [name, value] c := Choice.valued?_eq_some_iff.mp hvalued
      have hvalue : takesValue name = true := hspells.takesValue
      rw [groups, hvalue]
      exact .cons hspells (ih hcs)

/-- **Arguments are read to their end exactly if they are a row of options.** -/
theorem choices_eq_ok_iff {args : List Text} {cs : List Choice} :
    choices args = .ok cs ↔ ∃ gs, List.Forall₂ Spells gs cs ∧ gs.flatten = args := by
  constructor
  · exact fun h => ⟨groups args, spells_groups h, flatten_groups args⟩
  · rintro ⟨gs, hgs, rfl⟩
    have hrow := choices_flatten_append hgs []
    rw [List.append_nil] at hrow
    rw [hrow]
    exact congrArg Except.ok (List.append_nil cs)

/-- Help is called for behind some options, where the next option would start. -/
def CallsForHelp (args : List Text) : Prop :=
  ∃ (gs : List (List Text)) (rest : List Text),
    (∀ g ∈ gs, IsOption g) ∧ args = gs.flatten ++ "--help".toList :: rest

theorem CallsForHelp.cons {group args : List Text} (hgroup : IsOption group)
    (h : CallsForHelp args) : CallsForHelp (group ++ args) := by
  obtain ⟨gs, rest, hgs, rfl⟩ := h
  refine ⟨group :: gs, rest, List.forall_mem_cons.mpr ⟨hgroup, hgs⟩, ?_⟩
  rw [List.flatten_cons, List.append_assoc]

/-- **Reading ends with help exactly where help is called for.** -/
theorem choices_eq_help_iff {args : List Text} :
    choices args = .error .help ↔ CallsForHelp args := by
  constructor
  · intro h
    fun_induction choices args with
    | case1 | case3 | case4 | case8 => exact absurd h nofun
    | case2 => exact ⟨[], [], List.forall_mem_nil _, rfl⟩
    | case5 value rest => exact ⟨[], value :: rest, List.forall_mem_nil _, rfl⟩
    | case6 name value rest hhelp c hplain ih =>
        exact (ih (map_eq_error_iff.mp h)).cons ⟨c, Choice.plain?_eq_some_iff.mp hplain⟩
    | case7 name value rest hhelp hplain c hvalued ih =>
        exact (ih (map_eq_error_iff.mp h)).cons ⟨c, Choice.valued?_eq_some_iff.mp hvalued⟩
  · rintro ⟨gs, rest, hgs, rfl⟩
    obtain ⟨cs, hcs⟩ := exists_forall₂ hgs
    rw [choices_flatten_append hcs, choices_help]
    rfl

/-- What a request comes to: the text that it asks for, or a failure with a reason. -/
theorem Request.run_cases (r : Request) (input : Text) (files : Text → Option Text) :
    (∃ t output, r.render t = .ok output ∧
      r.run input files = { exit := 0, stdout := output.chomp ++ ['\n'] }) ∨
    ∃ reason, reason ≠ [] ∧ r.run input files = { exit := 1, stderr := reason } := by
  rw [Request.run]
  cases r.source input files with
  | none => exact Or.inr ⟨_, by simp, rfl⟩
  | some t =>
      cases hrender : r.render t.chomp with
      | ok output => exact Or.inl ⟨t.chomp, output, hrender, by simp only [hrender]⟩
      | error f =>
          refine Or.inr ⟨"error: ".toList ++ f.message ++ ['\n'], by simp, ?_⟩
          simp only [hrender]

section Runs

variable {program : Text} {args : List Text} {input : Text} {files : Text → Option Text}

theorem run_of_choices {cs : List Choice} (h : choices args = .ok cs) :
    run program args input files = (Request.ofChoices cs).run input files := by
  rw [run, Request.read, h]
  rfl

theorem run_of_stop {stop : Stop} (h : choices args = .error stop) :
    run program args input files = explain program stop := by
  rw [run, Request.read, h]
  rfl

end Runs

end Markdown.Command
