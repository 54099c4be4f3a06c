import Mathlib.Data.List.Nodup
import Mathlib.Data.List.Perm.Basic
import Markdown.Proofs.Options

/-!
# What choices come to

Each choice is about one of six matters and sets one part of a request. Of two choices on
the same matter the second one counts (`choose_choose`), and two on different matters do not
meet (`choose_comm`). By induction over the choices, only the last one on each matter counts
(`foldl_lastOfEach`), and the order of these does not (`foldl_choose_perm`). So a run is the
same for the last option on each matter alone, in any order (`run_last_options`).
-/

namespace Markdown.Command

section LastOfEach

variable {α β κ ι : Type} [DecidableEq κ] [DecidableEq ι] {key : α → κ}

/-- The members of a list that no later member with the same key follows. -/
def lastOfEach (key : α → κ) : List α → List α
  | [] => []
  | x :: xs => if key x ∈ xs.map key then lastOfEach key xs else x :: lastOfEach key xs

theorem lastOfEach_sublist (key : α → κ) (xs : List α) : (lastOfEach key xs).Sublist xs := by
  fun_induction lastOfEach key xs with
  | case1 => exact List.Sublist.refl []
  | case2 x xs _ ih => exact ih.cons x
  | case3 x xs _ ih => exact ih.cons_cons x

theorem nodup_map_lastOfEach (key : α → κ) (xs : List α) :
    ((lastOfEach key xs).map key).Nodup := by
  fun_induction lastOfEach key xs with
  | case1 => exact List.nodup_nil
  | case2 x xs _ ih => exact ih
  | case3 x xs hlast ih =>
      have hnew : key x ∉ (lastOfEach key xs).map key := fun hmem =>
        hlast (((lastOfEach_sublist key xs).map key).subset hmem)
      exact List.nodup_cons.mpr ⟨hnew, ih⟩

/-- Lists that are related member by member keep related members, if the relation respects
the keys. -/
theorem forall₂_lastOfEach {R : α → β → Prop} {key' : β → ι}
    (hkey : ∀ {x y u v}, R x u → R y v → (key x = key y ↔ key' u = key' v))
    {xs : List α} {ys : List β} (h : List.Forall₂ R xs ys) :
    List.Forall₂ R (lastOfEach key xs) (lastOfEach key' ys) := by
  induction h with
  | nil => exact .nil
  | @cons x y xs ys hxy hrest ih =>
      have hlater : key' y ∈ ys.map key' ↔ key x ∈ xs.map key := by
        rw [List.mem_map, List.mem_map]
        exact exists_mem_iff_of_forall₂ (hrest.imp fun _ _ huv => (hkey huv hxy).symm)
      rw [lastOfEach, lastOfEach]
      simp only [hlater]
      split_ifs with hmem
      · exact ih
      · exact .cons hxy ih

end LastOfEach

inductive Matter where
  | source
  | context
  | language
  | form
  | safeMode
  | raw
deriving DecidableEq

def Choice.matter : Choice → Matter
  | .file _ => .source
  | .context _ => .context
  | .language _ => .language
  | .form _ => .form
  | .safeMode => .safeMode
  | .raw => .raw

/-- The matter of an option, by its name. A code block, a quotation and a heading are three
options on one matter. -/
def matterOf? : List Text → Option Matter
  | [] => none
  | name :: _ =>
      if name = "--file".toList then some .source
      else if name = "--context".toList then some .context
      else if name = "--language".toList then some .language
      else if ["--code-block".toList, "--quote".toList, "--heading".toList].contains name then
        some .form
      else if name = "--safe-mode".toList then some .safeMode
      else if name = "--raw".toList then some .raw
      else none

theorem matterOf?_of_spells {group : List Text} {c : Choice} (h : Spells group c) :
    matterOf? group = some c.matter := by
  cases h <;> rfl

/-- The last options on each matter are the last choices on each matter. -/
theorem spells_lastOfEach {gs : List (List Text)} {cs : List Choice}
    (h : List.Forall₂ Spells gs cs) :
    List.Forall₂ Spells (lastOfEach matterOf? gs) (lastOfEach Choice.matter cs) := by
  apply forall₂_lastOfEach _ h
  intro x y u v hx hy
  rw [matterOf?_of_spells hx, matterOf?_of_spells hy, Option.some_inj]

/-! ## Choosing -/

namespace Request

variable {a b : Choice}

/-- Of two choices on one matter the second counts. -/
theorem choose_choose (h : a.matter = b.matter) (r : Request) :
    (r.choose a).choose b = r.choose b := by
  cases a with
  | file path =>
      cases b with
      | file path' => rfl
      | _ => exact nomatch h
  | context ctx =>
      cases b with
      | context ctx' => rfl
      | _ => exact nomatch h
  | language language =>
      cases b with
      | language language' => rfl
      | _ => exact nomatch h
  | form form =>
      cases b with
      | form form' => rfl
      | _ => exact nomatch h
  | safeMode =>
      cases b with
      | safeMode => rfl
      | _ => exact nomatch h
  | raw =>
      cases b with
      | raw => rfl
      | _ => exact nomatch h

/-- Choices on different matters do not meet. -/
theorem choose_comm (h : a.matter = b.matter → a = b) (r : Request) :
    (r.choose a).choose b = (r.choose b).choose a := by
  by_cases hmatter : a.matter = b.matter
  · rw [h hmatter]
  · cases a with
    | file path =>
        cases b with
        | file path' => exact absurd rfl hmatter
        | _ => rfl
    | context ctx =>
        cases b with
        | context ctx' => exact absurd rfl hmatter
        | _ => rfl
    | language language =>
        cases b with
        | language language' => exact absurd rfl hmatter
        | _ => rfl
    | form form =>
        cases b with
        | form form' => exact absurd rfl hmatter
        | _ => rfl
    | safeMode =>
        cases b with
        | safeMode => exact absurd rfl hmatter
        | _ => rfl
    | raw =>
        cases b with
        | raw => exact absurd rfl hmatter
        | _ => rfl

theorem foldl_choose_of_mem {cs : List Choice} (h : a.matter ∈ cs.map Choice.matter)
    (r : Request) : cs.foldl choose (r.choose a) = cs.foldl choose r := by
  induction cs generalizing r with
  | nil => exact absurd h List.not_mem_nil
  | cons c cs ih =>
      rw [List.foldl_cons, List.foldl_cons]
      by_cases hc : a.matter = c.matter
      · rw [choose_choose hc]
      · -- the later choice is still to come, so `a` is handed on past `c`
        have hlater : a.matter ∈ cs.map Choice.matter :=
          (List.mem_cons.mp h).resolve_left hc
        rw [choose_comm (fun heq => absurd heq hc), ih hlater]

/-- **Only the last choice on each matter counts.** -/
theorem foldl_lastOfEach (cs : List Choice) (r : Request) :
    (lastOfEach Choice.matter cs).foldl choose r = cs.foldl choose r := by
  fun_induction lastOfEach Choice.matter cs generalizing r with
  | case1 => rfl
  | case2 c cs hlater ih => rw [ih, List.foldl_cons, foldl_choose_of_mem hlater]
  | case3 c cs _ ih => rw [List.foldl_cons, List.foldl_cons, ih]

/-- **Choices on different matters may be made in any order.** -/
theorem foldl_choose_perm {cs ds : List Choice} (h : cs.Perm ds)
    (hcs : (cs.map Choice.matter).Nodup) (r : Request) :
    cs.foldl choose r = ds.foldl choose r := by
  apply h.foldl_eq'
  intro c hc d hd r
  exact choose_comm (fun hmatter => List.inj_on_of_nodup_map hcs hc hd hmatter) r

/-- A choice may wait until the others are made, if no other one is on its matter. -/
theorem foldl_choose_comm {cs : List Choice} (h : ∀ c ∈ cs, a.matter = c.matter → a = c)
    (r : Request) : cs.foldl choose (r.choose a) = (cs.foldl choose r).choose a := by
  induction cs generalizing r with
  | nil => rfl
  | cons c cs ih =>
      obtain ⟨hc, hcs⟩ := List.forall_mem_cons.mp h
      rw [List.foldl_cons, List.foldl_cons, choose_comm hc, ih hcs]

/-- A part of a request that one choice switches on, and no other touches, is on exactly if
the choice is made. -/
theorem foldl_choose_flag_iff {flag : Request → Bool} {c : Choice}
    (hflag : ∀ r d, flag (choose r d) = true ↔ flag r = true ∨ d = c) (cs : List Choice)
    (r : Request) : flag (cs.foldl choose r) = true ↔ flag r = true ∨ c ∈ cs := by
  induction cs generalizing r with
  | nil => simp
  | cons d cs ih => rw [List.foldl_cons, ih, hflag, List.mem_cons, or_assoc, @eq_comm _ d c]

theorem raw_ofChoices_iff {cs : List Choice} : (ofChoices cs).raw = true ↔ .raw ∈ cs := by
  have hflag : ∀ (r : Request) (d : Choice),
      (r.choose d).raw = true ↔ r.raw = true ∨ d = .raw := by
    intro r d
    cases d <;> simp [choose]
  simpa [ofChoices] using foldl_choose_flag_iff hflag cs {}

theorem safeMode_ofChoices_iff {cs : List Choice} :
    (ofChoices cs).safeMode = true ↔ .safeMode ∈ cs := by
  have hflag : ∀ (r : Request) (d : Choice),
      (r.choose d).safeMode = true ↔ r.safeMode = true ∨ d = .safeMode := by
    intro r d
    cases d <;> simp [choose]
  simpa [ofChoices] using foldl_choose_flag_iff hflag cs {}

theorem ofChoices_safeMode_cons (cs : List Choice) :
    ofChoices (.safeMode :: cs) = (ofChoices cs).choose .safeMode := by
  apply foldl_choose_comm
  intro c _ hmatter
  cases c with
  | safeMode => rfl
  | _ => exact nomatch hmatter

end Request

/-! ## Runs -/

/-- **Of the options on each matter only the last counts, and the order does not matter
otherwise.** Arguments that are read to their end are options, one after the other. A run
with the last option on each matter alone, in any order, is the run with all of them. -/
theorem run_last_options {args : List Text} {cs : List Choice} (h : choices args = .ok cs)
    (program input : Text) (files : Text → Option Text) :
    let kept := lastOfEach matterOf? (groups args)
    (groups args).flatten = args ∧ (∀ g ∈ groups args, IsOption g) ∧
      run program kept.flatten input files = run program args input files ∧
      ∀ order : List (List Text), order.Perm kept →
        run program order.flatten input files = run program args input files := by
  intro kept
  have hgroups := spells_groups h
  have horder : ∀ order : List (List Text), order.Perm kept →
      run program order.flatten input files = run program args input files := by
    intro order hperm
    obtain ⟨ds, hds, hsame⟩ := List.perm_comp_forall₂ hperm (spells_lastOfEach hgroups)
    have hrequest : Request.ofChoices ds = Request.ofChoices cs := by
      have hlast := Request.foldl_choose_perm hsame.symm (nodup_map_lastOfEach _ cs) {}
      exact hlast.symm.trans (Request.foldl_lastOfEach cs {})
    rw [run_of_choices h, run_of_choices (choices_eq_ok_iff.mpr ⟨order, hds, rfl⟩), hrequest]
  refine ⟨flatten_groups args, ?_, horder kept (List.Perm.refl kept), horder⟩
  intro g hg
  obtain ⟨c, -, hc⟩ := exists_mem_of_forall₂ hgroups.flip hg
  exact ⟨c, hc⟩

/-- A heading before a quotation, values that look like options, a file that standard input
takes the place of, and safe mode twice. What is left says it all in the opposite order. -/
theorem run_last_options_opposite :
    let args : List Text := ["--heading".toList, "2".toList, "--file".toList, "--raw".toList,
      "--safe-mode".toList, "--quote".toList, "--language".toList, "--help".toList,
      "--safe-mode".toList, "--file".toList, []]
    let kept : List (List Text) := [["--quote".toList], ["--language".toList, "--help".toList],
      ["--safe-mode".toList], ["--file".toList, []]]
    let cs : List Choice := [.form (.heading 2), .file "--raw".toList, .safeMode,
      .form .quote, .language "--help".toList, .safeMode, .file []]
    let answer : Outcome := { exit := 0, stdout := "> \\*a\\*\n".toList }
    choices args = .ok cs ∧ lastOfEach matterOf? (groups args) = kept ∧
      run [] kept.flatten "*a*\n".toList (fun _ => none) = answer ∧
      run [] kept.reverse.flatten "*a*\n".toList (fun _ => none) = answer := by
  intro args kept cs answer
  have hchoices : choices args = .ok cs := rfl
  have hkept : lastOfEach matterOf? (groups args) = kept := rfl
  have hrun : run [] args "*a*\n".toList (fun _ => none) = answer := rfl
  obtain ⟨-, -, hlast, horder⟩ :=
    run_last_options hchoices [] "*a*\n".toList fun _ => none
  rw [hkept] at hlast horder
  exact ⟨hchoices, hkept, hlast.trans hrun,
    (horder _ kept.reverse_perm).trans hrun⟩

end Markdown.Command
