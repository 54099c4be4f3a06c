import Mathlib.Logic.ExistsUnique
import Markdown.Proofs.Lines
import Markdown.Proofs.Options

/-!
# How a run ends

A run of the command has one of three endings: an answer on standard output, help on
demand, or a failure with a reason on standard error (`Outcome.EndsIn`). No outcome is of
two kinds, and every run has one, as the two steps of a run show: arguments that make no
request are explained, and a request is answered or refused. Line endings at the end of
the text make no difference to a run, since a request only ever sees the text without them
(`run_ending`).
-/

namespace Markdown.Command

inductive Ending where
  | answer
  | help
  | failure

/-- What a run leaves behind if it ends in some way. An answer is one text with one line
feed after it, whatever line endings the text had. -/
def Outcome.EndsIn (program : Text) (o : Outcome) : Ending → Prop
  | .answer =>
      o.exit = 0 ∧ o.stderr = [] ∧
        ∃ t : Text, o.stdout = t ++ ['\n'] ∧ t.getLast? ≠ some '\r' ∧ t.getLast? ≠ some '\n'
  | .help => o.exit = 0 ∧ o.stdout = [] ∧ o.stderr = usage program
  | .failure => o.exit = 1 ∧ o.stdout = [] ∧ o.stderr ≠ []

theorem usage_ne_nil (program : Text) : usage program ≠ [] := by
  have hlead : "Usage: ".toList ++ program ≠ [] :=
    List.append_ne_nil_of_left_ne_nil (by decide) program
  exact List.append_ne_nil_of_left_ne_nil hlead _

theorem Outcome.not_answer_of_stdout_nil {program : Text} {o : Outcome} (h : o.stdout = []) :
    ¬o.EndsIn program .answer := by
  rintro ⟨-, -, t, ht, -⟩
  exact absurd (ht.symm.trans h) (by simp)

theorem Outcome.EndsIn.unique {program : Text} {o : Outcome} {e e' : Ending}
    (h : o.EndsIn program e) (h' : o.EndsIn program e') : e = e' := by
  cases e with
  | answer =>
      cases e' with
      | answer => rfl
      | help => exact absurd h (Outcome.not_answer_of_stdout_nil h'.2.1)
      | failure => exact absurd h (Outcome.not_answer_of_stdout_nil h'.2.1)
  | help =>
      cases e' with
      | answer => exact absurd h' (Outcome.not_answer_of_stdout_nil h.2.1)
      | help => rfl
      | failure => exact absurd (h.1.symm.trans h'.1) (by decide)
  | failure =>
      cases e' with
      | answer => exact absurd h' (Outcome.not_answer_of_stdout_nil h.2.1)
      | help => exact absurd (h.1.symm.trans h'.1) (by decide)
      | failure => rfl

theorem Request.run_endsIn (r : Request) (program input : Text) (files : Text → Option Text) :
    (r.run input files).EndsIn program .answer ∨ (r.run input files).EndsIn program .failure := by
  rcases r.run_cases input files with ⟨t, output, -, hrun⟩ | ⟨reason, hreason, hrun⟩
  · rw [hrun]
    refine Or.inl ⟨rfl, rfl, output.chomp, rfl, ?_, ?_⟩
    · intro hlast
      exact absurd (Text.getLast?_dropEndWhile hlast) (by decide)
    · intro hlast
      exact absurd (Text.getLast?_dropEndWhile hlast) (by decide)
  · rw [hrun]
    exact Or.inr ⟨rfl, rfl, hreason⟩

/-- A request only sees a text without the line endings at its end. -/
theorem Request.run_congr {r : Request} {input input' : Text} {files files' : Text → Option Text}
    (h : (r.source input files).map Text.chomp = (r.source input' files').map Text.chomp) :
    r.run input files = r.run input' files' := by
  rw [Request.run, Request.run]
  cases hsource : r.source input files with
  | none =>
      rw [hsource] at h
      rw [Option.map_eq_none_iff.mp h.symm]
  | some t =>
      rw [hsource] at h
      obtain ⟨t', hsource', hchomp⟩ := Option.map_eq_some_iff.mp h.symm
      simp only [hsource', hchomp]

theorem Request.source_append {r : Request} {input tail : Text} {files : Text → Option Text}
    {tails : Text → Text} (htail : ∀ c ∈ tail, isBreak c = true)
    (htails : ∀ path, ∀ c ∈ tails path, isBreak c = true) :
    (r.source (input ++ tail) fun path => (files path).map (· ++ tails path)).map Text.chomp =
      (r.source input files).map Text.chomp := by
  rw [Request.source, Request.source]
  split_ifs with hpath
  · exact congrArg some (Text.dropEndWhile_append htail input)
  · rw [Option.map_map]
    exact Option.map_congr fun t _ => Text.dropEndWhile_append (htails r.path) t

/-- **A run ends in one of three ways.** It answers with a text and one line feed; or it
shows how to use the command, if help is called for behind options only; or it fails and
gives a reason. Line endings at the end of the text, on standard input or in a file, make no
difference. -/
theorem run_ending (program : Text) (args : List Text) (input : Text)
    (files : Text → Option Text) :
    (∃! e, (run program args input files).EndsIn program e) ∧
      ((run program args input files).EndsIn program .help ↔ CallsForHelp args) ∧
      ∀ (tail : Text) (tails : Text → Text), (∀ c ∈ tail, c = '\r' ∨ c = '\n') →
        (∀ path, ∀ c ∈ tails path, c = '\r' ∨ c = '\n') →
        run program args (input ++ tail) (fun path => (files path).map (· ++ tails path)) =
          run program args input files := by
  have hbreak : ∀ c, c = '\r' ∨ c = '\n' → isBreak c = true := by
    rintro c (rfl | rfl) <;> rfl
  have hone : ∀ e, (run program args input files).EndsIn program e →
      ∃! e, (run program args input files).EndsIn program e :=
    fun e he => ⟨e, he, fun e' he' => he'.unique he⟩
  rw [← choices_eq_help_iff]
  cases hchoices : choices args with
  | ok cs =>
      have hrun : run program args input files = (Request.ofChoices cs).run input files :=
        run_of_choices hchoices
      have hends := (Request.ofChoices cs).run_endsIn program input files
      rw [← hrun] at hends
      refine ⟨hends.elim (hone _) (hone _), iff_of_false ?_ nofun, ?_⟩
      · intro hhelp
        rcases hends with h | h
        · exact nomatch h.unique hhelp
        · exact nomatch h.unique hhelp
      · intro tail tails htail htails
        rw [hrun, run_of_choices hchoices]
        exact Request.run_congr (Request.source_append (fun c hc => hbreak c (htail c hc))
          fun path c hc => hbreak c (htails path c hc))
  | error stop =>
      have hrun : ∀ input files, run program args input files = explain program stop :=
        fun _ _ => run_of_stop hchoices
      have hends : (explain program .help).EndsIn program .help := ⟨rfl, rfl, rfl⟩
      have hfails : (explain program .misuse).EndsIn program .failure :=
        ⟨rfl, rfl, usage_ne_nil program⟩
      refine ⟨?_, ?_, fun tail tails _ _ => by rw [hrun, hrun]⟩
      · cases stop with
        | help => exact hone .help (hrun input files ▸ hends)
        | misuse => exact hone .failure (hrun input files ▸ hfails)
      · rw [hrun]
        cases stop with
        | help => exact iff_of_true hends rfl
        | misuse => exact iff_of_false (fun h => nomatch h.unique hfails) nofun

/-- Help behind a file whose name asks for it too, help behind an argument that is no
option, and a file that differs from another in its line endings only. -/
theorem run_ending_help :
    let path : Text := "--help".toList
    let files : Text → Option Text := fun p => if p = path then some "# a \n\r".toList else none
    let answer : Outcome := { exit := 0, stdout := "\\# a \n".toList }
    CallsForHelp ["--file".toList, path, "--help".toList, "--none".toList] ∧
      ¬CallsForHelp ["--none".toList, "--help".toList] ∧
      run [] ["--file".toList, path] [] files = answer ∧
      run [] ["--file".toList, path] "\n".toList
        (fun p => (files p).map (· ++ "\r\n\n".toList)) = answer := by
  intro path files answer
  have hanswer : run [] ["--file".toList, path] [] files = answer := rfl
  refine ⟨?_, ?_, hanswer, ?_⟩
  · exact (run_ending [] _ [] files).2.1.mp ⟨rfl, rfl, rfl⟩
  · rw [← (run_ending [] _ [] files).2.1]
    rintro ⟨hexit, -⟩
    exact absurd hexit (by decide)
  · rw [← hanswer]
    exact (run_ending [] ["--file".toList, path] [] files).2.2 "\n".toList
      (fun _ => "\r\n\n".toList) (by decide) fun _ => by decide

end Markdown.Command
