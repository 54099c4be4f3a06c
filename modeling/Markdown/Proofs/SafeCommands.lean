import Markdown.Proofs.Requests
import Markdown.Proofs.SafeMode

/-!
# The command in safe mode

With safe mode asked for in front, a run meets one more check on its way to the answer. A
form that makes a node has the check in its constructor, behind the checks of its own; a
text that is only escaped has none, and needs none. So a request in safe mode has the outcome
that it has without, or is refused for text that is taken as it is (`Request.tightens_render`).
Arguments are read as before, since safe mode does not meet any other matter, and a text
that cannot be read is not refused (`run_in_safeMode`).
-/

namespace Markdown.Command

namespace Request

def node (r : Request) (t : Text) : Except Fault Node :=
  let w : Writer := { safeMode := r.safeMode }
  match r.form with
  | .codeBlock => w.codeBlock t r.language !r.raw
  | .quote => w.blockquote (.literal t) !r.raw
  | .heading level => w.heading level (.literal t) !r.raw
  | .text => w.text t !r.raw

/-- A request shows the text of its node, unless the text is only to be escaped for its
context. -/
theorem render_eq (r : Request) (t : Text) :
    r.render t =
      if r.form = .text ∧ r.raw = false then .ok (r.context.escape t)
      else (·.text) <$> r.node t := by
  rw [render, node]
  cases r.form with
  | text => cases r.raw <;> rfl
  | _ => rfl

theorem tightens_node (r : Request) (t : Text) :
    Tightens (r.raw = true) ((r.choose .safeMode).node t) (r.node t) := by
  obtain ⟨path, language, ctx, form, safe, raw⟩ := r
  have hreason : (!raw) = false → raw = true := by simp
  cases safe with
  | true => exact .refl _
  | false =>
      cases form with
      | text => exact ((Leaf.text t).tightens_make {} _).mono hreason
      | codeBlock => exact ((Leaf.codeBlock t language).tightens_make {} _).mono hreason
      | quote => exact (Wrap.blockquote.tightens_make {} _ (.literal t)).mono hreason
      | heading level => exact ((Wrap.heading level).tightens_make {} _ (.literal t)).mono hreason

/-- In safe mode no node is made of a text that is taken as it is. -/
theorem not_raw_of_node {r : Request} {t : Text} {n : Node} (h : r.node t = .ok n) :
    r.raw = false ∨ r.safeMode = false := by
  obtain ⟨path, language, ctx, form, safe, raw⟩ := r
  have hescape : (!raw) = true ∨ safe = false := by
    cases form with
    | text => exact ((@Leaf.make_eq_ok_iff (.text t) _ _ _).mp h).2.1
    | codeBlock => exact ((@Leaf.make_eq_ok_iff (.codeBlock t language) _ _ _).mp h).2.1
    | quote => exact ((@Wrap.make_eq_ok_iff .blockquote _ _ _ _).mp h).2.1
    | heading level => exact ((@Wrap.make_eq_ok_iff (.heading level) _ _ _ _).mp h).2.1
  simpa using hescape

/-- **Safe mode changes an answer to its refusal only**, and only for a text that is taken as
it is. -/
theorem tightens_render (r : Request) (t : Text) :
    Tightens (r.raw = true) ((r.choose .safeMode).render t) (r.render t) := by
  rw [render_eq, render_eq]
  show Tightens _ (if r.form = .text ∧ r.raw = false then _ else _) _
  split_ifs with hescape
  · exact .refl _
  · exact (r.tightens_node t).map _

theorem not_raw_of_render {r : Request} {t output : Text} (h : r.render t = .ok output) :
    r.raw = false ∨ r.safeMode = false := by
  rw [render_eq] at h
  split_ifs at h with hescape
  · exact Or.inl hescape.2
  · obtain ⟨n, hn, -⟩ := map_eq_ok_iff.mp h
    exact not_raw_of_node hn

end Request

def refusal : Outcome :=
  { exit := 1, stderr := "error: escape=false is disabled in safe mode\n".toList }

theorem Request.run_safeMode (r : Request) (input : Text) (files : Text → Option Text) :
    (r.choose .safeMode).run input files = r.run input files ∨
      r.raw = true ∧ (r.choose .safeMode).run input files = refusal := by
  have hsource : (r.choose .safeMode).source input files = r.source input files := rfl
  rw [Request.run, Request.run, hsource]
  cases r.source input files with
  | none => exact Or.inl rfl
  | some t =>
      rcases r.tightens_render t.chomp with hsame | ⟨hraw, hrefused⟩
      · exact Or.inl (by simp only [hsame])
      · exact Or.inr ⟨hraw, by simp only [hrefused]; rfl⟩

/-- A text that is taken as it is never comes out of safe mode. -/
theorem Request.run_fails {r : Request} (hsafe : r.safeMode = true) (hraw : r.raw = true)
    (input : Text) (files : Text → Option Text) :
    (r.run input files).exit = 1 ∧ (r.run input files).stdout = [] := by
  rcases r.run_cases input files with ⟨t, output, hrender, -⟩ | ⟨reason, -, hrun⟩
  · have hescape := not_raw_of_render hrender
    rw [hsafe, hraw] at hescape
    exact absurd hescape (by decide)
  · rw [hrun]
    exact ⟨rfl, rfl⟩

/-- Safe mode refuses a text that is taken as it is, if the request would give it out
without. -/
theorem Request.run_refused {r : Request} (hraw : r.raw = true) {input : Text}
    {files : Text → Option Text} (hexit : (r.run input files).exit = 0) :
    (r.choose .safeMode).run input files = refusal := by
  have hmode : (r.choose .safeMode).safeMode = true := rfl
  rcases r.run_safeMode input files with hsame | ⟨-, hrefused⟩
  · have hfails := (Request.run_fails hmode hraw input files).1
    rw [hsame, hexit] at hfails
    exact absurd hfails (by decide)
  · exact hrefused

/-- **Safe mode in front of the arguments only takes answers away.** A run with it is the
same as without, or else text was to be taken as it is and the run is refused. It is refused
whenever the run without it gives such a text out, so with both options nothing is written
to standard output. -/
theorem run_in_safeMode (program : Text) (args : List Text) (input : Text)
    (files : Text → Option Text) :
    let free := run program args input files
    let safe := run program ("--safe-mode".toList :: args) input files
    (safe = free ∨ (∃ cs, choices args = .ok cs ∧ .raw ∈ cs) ∧ safe = refusal) ∧
      (∀ cs, choices args = .ok cs → .raw ∈ cs → free.exit = 0 → safe = refusal) ∧
      ∀ cs, choices args = .ok cs → .safeMode ∈ cs → .raw ∈ cs → free.stdout = [] := by
  intro free safe
  have hfront : choices ("--safe-mode".toList :: args) = (.safeMode :: ·) <$> choices args :=
    Spells.safeMode.choices_append args
  refine ⟨?_, ?_, ?_⟩
  · cases hchoices : choices args with
    | error stop =>
        rw [hchoices] at hfront
        exact Or.inl ((run_of_stop hfront).trans (run_of_stop hchoices).symm)
    | ok cs =>
        rw [hchoices] at hfront
        have hsafe : safe = ((Request.ofChoices cs).choose .safeMode).run input files := by
          rw [← Request.ofChoices_safeMode_cons]
          exact run_of_choices hfront
        rw [hsafe, show free = _ from run_of_choices hchoices]
        refine ((Request.ofChoices cs).run_safeMode input files).imp_right ?_
        rintro ⟨hraw, hrefused⟩
        exact ⟨⟨cs, rfl, Request.raw_ofChoices_iff.mp hraw⟩, hrefused⟩
  · intro cs hcs hraw hexit
    rw [hcs] at hfront
    rw [show free = _ from run_of_choices hcs] at hexit
    rw [show safe = _ from run_of_choices hfront, Request.ofChoices_safeMode_cons]
    exact Request.run_refused (Request.raw_ofChoices_iff.mpr hraw) hexit
  · intro cs hcs hmode hraw
    rw [show free = _ from run_of_choices hcs]
    exact (Request.run_fails (Request.safeMode_ofChoices_iff.mpr hmode)
      (Request.raw_ofChoices_iff.mpr hraw) input files).2

/-- A text that is taken as it is, in three forms: as a text it is refused, a seventh heading
fails either way, and so does a code block in a language with a line feed, whose text is
never seen. -/
theorem run_in_safeMode_forms :
    let args : List Text := ["--raw".toList, "--context".toList, "code".toList]
    let heading : List Text := args ++ ["--heading".toList, "7".toList]
    let block : List Text := args ++
      ["--safe-mode".toList, "--code-block".toList, "--language".toList, "c\n".toList]
    let run (args : List Text) : Outcome := run [] args "<b>\n".toList fun _ => none
    run args = { exit := 0, stdout := "<b>\n".toList } ∧
      run ("--safe-mode".toList :: args) = refusal ∧
      (run ("--safe-mode".toList :: heading) = run heading ∨
        (∃ cs, choices heading = .ok cs ∧ .raw ∈ cs) ∧
          run ("--safe-mode".toList :: heading) = refusal) ∧
      run ("--safe-mode".toList :: heading) ≠ refusal ∧ (run block).stdout = [] := by
  intro args heading block run
  have hargs : choices args = .ok [.raw, .context .code] := rfl
  have hblock : choices block =
      .ok [.raw, .context .code, .safeMode, .form .codeBlock, .language "c\n".toList] := rfl
  have hfree : run args = { exit := 0, stdout := "<b>\n".toList } := rfl
  refine ⟨hfree, ?_, (run_in_safeMode [] heading _ _).1, by decide, ?_⟩
  · exact (run_in_safeMode [] args _ _).2.1 _ hargs (by decide) (congrArg Outcome.exit hfree)
  · exact (run_in_safeMode [] block _ _).2.2 _ hblock (by decide) (by decide)

end Markdown.Command
