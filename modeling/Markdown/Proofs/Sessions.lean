import Markdown.Proofs.Success
import Markdown.Session

/-!
# Sessions, step after step

A step of a session makes its checks before it changes anything, so that one which
fails has changed nothing (`Session.atomic_step`). One which succeeds looks, sets the
flag, renews one writer or stores one node (`Session.Effect`). From this each property
of a session is one case analysis for a step and one induction for a run:

- every named writer is valid at all times (`Session.valid_run`);
- what is different after a run was made so by one step of it, the last that changed
  it (`Session.changed_run`);
- the steps that fail can be left out of a run (`Session.run_lasting`).
-/

namespace Markdown

namespace Session.Action

variable {α β : Type} {x : Action α} {k : α → Action β} {s t : Session}

theorem on_bind (x : Action α) (k : α → Action β) (s : Session) :
    (x >>= k).on s = match x.on s with
      | (.ok a, t) => (k a).on t
      | (.error f, t) => (.error f, t) := by
  rw [on, ExceptT.run_bind, StateT.run_bind]
  rcases hx : x.on s with ⟨_ | a, t⟩ <;>
  · rw [on] at hx
    rw [hx]
    rfl

/-- An action that leaves every session as it is. -/
def Looks (x : Action α) : Prop :=
  ∀ s, (x.on s).2 = s

/-- An action that changes nothing when it fails. -/
def Atomic (x : Action α) : Prop :=
  ∀ s f, (x.on s).1 = .error f → (x.on s).2 = s

theorem looks_pure (a : α) : Looks (pure a) := fun _ => rfl

theorem looks_get : Looks get := fun _ => rfl

theorem looks_lift (r : Except Fault α) : Looks (liftM r) := fun _ => rfl

theorem looks_look (f : Session → Except Fault α) : Looks (look f) := fun _ => rfl

theorem Looks.atomic (hx : Looks x) : Atomic x := fun s _ _ => hx s

theorem Looks.on_bind (hx : Looks x) (k : α → Action β) (s : Session) :
    (x >>= k).on s = match (x.on s).1 with
      | .ok a => (k a).on s
      | .error f => (.error f, s) := by
  have hs := hx s
  rw [Action.on_bind]
  rcases hon : x.on s with ⟨_ | a, t⟩ <;>
  · obtain rfl : t = s := by rwa [hon] at hs
    rfl

theorem Looks.fst_on_bind (hx : Looks x) (k : α → Action β) (s : Session) :
    ((x >>= k).on s).1 = (x.on s).1 >>= fun a => ((k a).on s).1 := by
  rw [hx.on_bind]
  cases (x.on s).1 <;> rfl

theorem Looks.of_on_bind {b : β} (hx : Looks x) (h : (x >>= k).on s = (.ok b, t)) :
    ∃ a, (x.on s).1 = .ok a ∧ (k a).on s = (.ok b, t) := by
  rw [hx.on_bind] at h
  cases ha : (x.on s).1 with
  | error f =>
      rw [ha] at h
      exact absurd h nofun
  | ok a =>
      rw [ha] at h
      exact ⟨a, rfl, h⟩

/-- What comes before the first change may fail. -/
theorem Looks.atomic_bind (hx : Looks x) (hk : ∀ a, Atomic (k a)) : Atomic (x >>= k) := by
  intro s f hf
  rw [hx.on_bind] at hf ⊢
  cases ha : (x.on s).1 with
  | error g => rfl
  | ok a =>
      rw [ha] at hf
      exact hk a s f hf

/-- The change itself cannot. -/
theorem atomic_modify (g : Session → Session) (a : α) :
    Atomic (do modify g; return a) :=
  fun _ _ h => absurd h nofun

theorem of_on_pure {a b : α} (h : (pure a : Action α).on s = (.ok b, t)) : a = b ∧ s = t :=
  ⟨Except.ok.inj (Prod.mk.inj h).1, (Prod.mk.inj h).2⟩

theorem of_on_modify {g : Session → Session} {a b : α}
    (h : Action.on (do modify g; return a) s = (.ok b, t)) : a = b ∧ g s = t :=
  ⟨Except.ok.inj (Prod.mk.inj h).1, (Prod.mk.inj h).2⟩

end Session.Action

/-! ## Single steps -/

def Step.renews? : Step → Option Text
  | .newWriter name _ | .keepDefault name | .changeWriter name _ => some name
  | _ => none

/-- What a step that succeeds does to a session, and with which answer. -/
inductive Session.Effect (s : Session) : Step → Answer → Session → Prop
  | looks (st : Step) (a : Answer) : Effect s st a s
  | switches (enabled : Bool) :
      Effect s (.switchSafeMode enabled) (.flag enabled) { s with safeMode := enabled }
  | renews (st : Step) (name : Text) (w : Writer) (hst : st.renews? = some name)
      (hw : w.Valid) : Effect s st (.writer w) (s.putWriter name w)
  | stores (e : Expr) (writer? : Option Text) (name : Text) (n : Node) :
      Effect s (.build e writer? (some name)) (.node n) (s.putNode (some name) n)

theorem Writer.valid_of_change {v w : Writer} {p : Writer.Patch} (h : v.change p = .ok w) :
    w.Valid := by
  obtain ⟨rfl, hw⟩ := Writer.check_eq_ok_iff.mp h
  exact hw

namespace Session

open Session.Action

variable {s s' : Session} {st : Step} {a : Answer}

/-- Every step makes its checks before it changes anything. -/
theorem atomic_step (st : Step) : Atomic (step st) := by
  cases st with
  | switchSafeMode enabled => exact atomic_modify _ _
  | getSafeMode => exact looks_get.atomic_bind fun _ => (looks_pure _).atomic
  | newWriter name patch => exact (looks_lift _).atomic_bind fun w => atomic_modify _ _
  | keepDefault name => exact looks_get.atomic_bind fun _ => atomic_modify _ _
  | changeWriter name patch =>
      refine (looks_look _).atomic_bind fun v => ?_
      exact (looks_lift _).atomic_bind fun w => atomic_modify _ _
  | getWriter name => exact (looks_look _).atomic_bind fun w => (looks_pure _).atomic
  | build e writer? name? =>
      refine (looks_look _).atomic_bind fun w => ?_
      exact (looks_look _).atomic_bind fun n => atomic_modify _ _
  | getNode name => exact (looks_look _).atomic_bind fun n => (looks_pure _).atomic
  | sameNode name other =>
      refine (looks_look _).atomic_bind fun m => ?_
      exact (looks_look _).atomic_bind fun n => (looks_pure _).atomic

theorem advance_eq_self_of_error {f : Fault} (h : (s.advance st).1 = .error f) :
    (s.advance st).2 = s :=
  atomic_step st s f h

/-- **All that a step can do.** -/
theorem effect_of_advance (h : s.advance st = (.ok a, s')) : s.Effect st a s' := by
  rw [advance] at h
  cases st with
  | switchSafeMode enabled =>
      obtain ⟨rfl, rfl⟩ := of_on_modify h
      exact .switches enabled
  | getSafeMode =>
      obtain ⟨v, -, hpure⟩ := looks_get.of_on_bind h
      obtain ⟨-, rfl⟩ := of_on_pure hpure
      exact .looks _ _
  | newWriter name patch =>
      obtain ⟨w, hw, hput⟩ := (looks_lift _).of_on_bind h
      obtain ⟨rfl, rfl⟩ := of_on_modify hput
      exact .renews _ name w rfl (Writer.valid_of_change hw)
  | keepDefault name =>
      obtain ⟨v, hv, hput⟩ := looks_get.of_on_bind h
      obtain rfl := Except.ok.inj hv
      obtain ⟨rfl, rfl⟩ := of_on_modify hput
      exact .renews _ name _ rfl (Writer.valid_default s.safeMode)
  | changeWriter name patch =>
      obtain ⟨v, -, hchange⟩ := (looks_look _).of_on_bind h
      obtain ⟨w, hw, hput⟩ := (looks_lift _).of_on_bind hchange
      obtain ⟨rfl, rfl⟩ := of_on_modify hput
      exact .renews _ name w rfl (Writer.valid_of_change hw)
  | getWriter name =>
      obtain ⟨w, -, hpure⟩ := (looks_look _).of_on_bind h
      obtain ⟨-, rfl⟩ := of_on_pure hpure
      exact .looks _ _
  | build e writer? name? =>
      obtain ⟨w, -, hbuild⟩ := (looks_look _).of_on_bind h
      obtain ⟨n, -, hput⟩ := (looks_look _).of_on_bind hbuild
      obtain ⟨rfl, rfl⟩ := of_on_modify hput
      cases name? with
      | none => exact .looks _ _
      | some name => exact .stores e writer? name n
  | getNode name =>
      obtain ⟨n, -, hpure⟩ := (looks_look _).of_on_bind h
      obtain ⟨-, rfl⟩ := of_on_pure hpure
      exact .looks _ _
  | sameNode name other =>
      obtain ⟨m, -, hother⟩ := (looks_look _).of_on_bind h
      obtain ⟨n, -, hpure⟩ := (looks_look _).of_on_bind hother
      obtain ⟨-, rfl⟩ := of_on_pure hpure
      exact .looks _ _

/-- A step fails and changes nothing, or it has an effect. -/
theorem advance_cases (s : Session) (st : Step) :
    (∃ f, s.advance st = (.error f, s)) ∨
      ∃ a s', s.advance st = (.ok a, s') ∧ s.Effect st a s' := by
  rcases hadvance : s.advance st with ⟨f | a, s'⟩
  · have hsame : (s.advance st).2 = s := advance_eq_self_of_error (by rw [hadvance])
    rw [hadvance] at hsame
    exact .inl ⟨f, by rw [← hsame]⟩
  · exact .inr ⟨a, s', rfl, effect_of_advance hadvance⟩

/-- A build answers with what the expression evaluates to, by the writer and on the
stored nodes of the session. Whether the node is to have a name is of no account. -/
theorem advance_build (s : Session) (e : Expr) (writer? name? : Option Text) :
    (s.advance (.build e writer? name?)).1 =
      s.writerOrDefault writer? >>= fun w => Answer.node <$> e.eval w s.nodes.get? := by
  rw [advance, step, (looks_look _).fst_on_bind]
  refine bind_congr fun w => ?_
  rw [(looks_look _).fst_on_bind, map_eq_pure_bind]
  rfl

/-! ## Runs -/

/-- **What a run changes, one step of it changes for the last time.** -/
theorem changed_run {α : Type} (look : Session → α) {s : Session} {steps : List Step}
    (h : look (s.run steps).2 ≠ look s) :
    ∃ xs st ys, steps = xs ++ st :: ys ∧
      look ((s.run xs).2.advance st).2 ≠ look (s.run xs).2 ∧
      look (s.run steps).2 = look ((s.run xs).2.advance st).2 := by
  induction steps generalizing s with
  | nil => exact absurd rfl h
  | cons st rest ih =>
      by_cases hrest : look (s.run (st :: rest)).2 = look (s.advance st).2
      · exact ⟨[], st, rest, rfl, hrest ▸ h, hrest⟩
      · obtain ⟨xs, st', ys, rfl, hne, heq⟩ := ih hrest
        exact ⟨st :: xs, st', ys, rfl, hne, heq⟩

def Valid (s : Session) : Prop :=
  ∀ name w, s.writers.get? name = some w → w.Valid

theorem valid_empty : Valid {} :=
  nofun

theorem Valid.putWriter (h : s.Valid) (name : Text) {w : Writer} (hw : w.Valid) :
    (s.putWriter name w).Valid := by
  intro other v hv
  rw [Session.putWriter, Registry.get?_put] at hv
  split at hv
  · obtain rfl := Option.some.inj hv
    exact hw
  · exact h other v hv

theorem valid_advance (h : s.Valid) (st : Step) : (s.advance st).2.Valid := by
  rcases advance_cases s st with ⟨f, hf⟩ | ⟨a, s', hok, heffect⟩
  · rwa [hf]
  · rw [hok]
    cases heffect with
    | looks => exact h
    | switches enabled => exact h
    | renews _ name w _ hw => exact h.putWriter name hw
    | stores e writer? name n => exact h

/-- **The named writers stay valid**, whatever the steps. -/
theorem valid_run (h : s.Valid) (steps : List Step) : (s.run steps).2.Valid := by
  induction steps generalizing s with
  | nil => exact h
  | cons st rest ih => exact ih (valid_advance h st)

/-- A step that changes what a name stands for among the writers succeeds, renews the
writer of that name, and answers with it. -/
theorem writer_changed_advance {name : Text}
    (h : (s.advance st).2.writers.get? name ≠ s.writers.get? name) :
    st.renews? = some name ∧ ∃ w, w.Valid ∧ (s.advance st).1 = .ok (.writer w) ∧
      (s.advance st).2.writers.get? name = some w := by
  rcases advance_cases s st with ⟨f, hf⟩ | ⟨a, s', hok, heffect⟩
  · rw [hf] at h
    exact absurd rfl h
  · rw [hok] at h ⊢
    cases heffect with
    | looks => exact absurd rfl h
    | switches enabled => exact absurd rfl h
    | stores e writer? other n => exact absurd rfl h
    | renews _ other w hst hw =>
        have hname : name = other := by
          by_contra hne
          exact h (by simp only [putWriter, Registry.get?_put, if_neg hne])
        subst hname
        exact ⟨hst, w, hw, rfl, by simp only [putWriter, Registry.get?_put, if_true]⟩

/-- What a name stands for among the writers changes in steps that renew it only, and
as a whole. -/
theorem writer_changed_run {steps : List Step} {name : Text}
    (h : (s.run steps).2.writers.get? name ≠ s.writers.get? name) :
    ∃ xs st ys w, steps = xs ++ st :: ys ∧ st.renews? = some name ∧ w.Valid ∧
      ((s.run xs).2.advance st).1 = .ok (.writer w) ∧
      (s.run steps).2.writers.get? name = some w := by
  obtain ⟨xs, st, ys, hsteps, hne, hlast⟩ := changed_run (·.writers.get? name) h
  obtain ⟨hrenews, w, hw, hanswer, hwriter⟩ := writer_changed_advance hne
  exact ⟨xs, st, ys, w, hsteps, hrenews, hw, hanswer, hlast.trans hwriter⟩

/-- A step that changes what a name stands for among the nodes is a build under that
name which succeeds, and it answers with the node. -/
theorem node_changed_advance {name : Text}
    (h : (s.advance st).2.nodes.get? name ≠ s.nodes.get? name) :
    ∃ e writer? n, st = .build e writer? (some name) ∧ (s.advance st).1 = .ok (.node n) ∧
      (s.advance st).2.nodes.get? name = some n := by
  rcases advance_cases s st with ⟨f, hf⟩ | ⟨a, s', hok, heffect⟩
  · rw [hf] at h
    exact absurd rfl h
  · rw [hok] at h ⊢
    cases heffect with
    | looks => exact absurd rfl h
    | switches enabled => exact absurd rfl h
    | renews _ other w hst hw => exact absurd rfl h
    | stores e writer? other n =>
        have hname : name = other := by
          by_contra hne
          exact h (by simp only [putNode, Registry.get?_put, if_neg hne])
        subst hname
        exact ⟨e, writer?, n, rfl, rfl, by simp only [putNode, Registry.get?_put, if_true]⟩

theorem node_changed_run {steps : List Step} {name : Text}
    (h : (s.run steps).2.nodes.get? name ≠ s.nodes.get? name) :
    ∃ xs e writer? ys n, steps = xs ++ .build e writer? (some name) :: ys ∧
      ((s.run xs).2.advance (.build e writer? (some name))).1 = .ok (.node n) ∧
      (s.run steps).2.nodes.get? name = some n := by
  obtain ⟨xs, st, ys, hsteps, hne, hlast⟩ := changed_run (·.nodes.get? name) h
  obtain ⟨e, writer?, n, rfl, hanswer, hnode⟩ := node_changed_advance hne
  exact ⟨xs, e, writer?, ys, n, hsteps, hanswer, hlast.trans hnode⟩

/-! ## Steps that fail -/

/-- The steps of a run that succeed in it. -/
def lasting (s : Session) : List Step → List Step
  | [] => []
  | st :: rest =>
      match s.advance st with
      | (.ok _, s') => st :: s'.lasting rest
      | (.error _, s') => s'.lasting rest

/-- **A run is the run of its steps that succeed**, with the faults taken out of its
answers. -/
theorem run_lasting (s : Session) (steps : List Step) :
    s.run (s.lasting steps) = ((s.run steps).1.filter (·.isOk), (s.run steps).2) := by
  induction steps generalizing s with
  | nil => rfl
  | cons st rest ih =>
      rw [lasting]
      rcases advance_cases s st with ⟨f, hf⟩ | ⟨a, s', hok, -⟩
      · rw [run, hf, ih]
        rfl
      · rw [run, hok, run, hok, ih]
        rfl

end Session

/-- **A session keeps its word from the first step to the last.** After any steps
from the empty session every named writer has marks of Markdown. A further step
that fails leaves the flag, the writers and the nodes as they are. And if later
steps change what a name stands for among the nodes, one of them is a build under
that name which succeeds and makes the node that the name stands for in the end. -/
theorem run_sound (before : List Step) (st : Step) (later : List Step) :
    let s := (Session.run {} before).2
    (∀ name w, s.writers.get? name = some w →
      w.strong ∈ ["**".toList, "__".toList] ∧
      w.emphasis ∈ ["*".toList, "_".toList] ∧
      w.bullet ∈ ["-".toList, "*".toList, "+".toList] ∧
      w.rule ∈ ["---".toList, "***".toList, "___".toList,
        "- - -".toList, "* * *".toList, "_ _ _".toList]) ∧
    (∀ f, (s.advance st).1 = .error f → (s.advance st).2 = s) ∧
    ∀ name, (s.run later).2.nodes.get? name ≠ s.nodes.get? name →
      ∃ xs e writer? ys n, later = xs ++ .build e writer? (some name) :: ys ∧
        ((s.run xs).2.advance (.build e writer? (some name))).1 = .ok (.node n) ∧
        (s.run later).2.nodes.get? name = some n := by
  intro s
  have hvalid : s.Valid := Session.valid_run Session.valid_empty before
  exact ⟨hvalid, fun f hf => Session.advance_eq_self_of_error hf,
    fun name hchanged => Session.node_changed_run hchanged⟩

/-- A change of two marks, one of them not Markdown, after a change of a third; then
a build under a name in use fails, and another succeeds. -/
theorem run_sound_rebuilt :
    let before : List Step := [.newWriter "w".toList { strong := some "__".toList },
      .build (.wrap .bold (.literal "a".toList) true) (some "w".toList) (some "n".toList)]
    let change : Step := .changeWriter "w".toList
      { emphasis := some "_".toList, bullet := some "x".toList }
    let refused : Step := .build (.wrap (.heading 7) (.literal "b".toList) true) none
      (some "n".toList)
    let rebuilt : Step := .build (.wrap .bold (.literal "c".toList) true) (some "w".toList)
      (some "n".toList)
    let s := (Session.run {} before).2
    (∃ w, s.writers.get? "w".toList = some w ∧ w.emphasis ∈ ["*".toList, "_".toList]) ∧
    (s.advance change).2 = s ∧
    ∃ xs e writer? ys n, [refused, rebuilt] = xs ++ .build e writer? (some "n".toList) :: ys ∧
      ((s.run xs).2.advance (.build e writer? (some "n".toList))).1 = .ok (.node n) ∧
      (s.run [refused, rebuilt]).2.nodes.get? "n".toList = some n := by
  intro before change refused rebuilt s
  have hwriter : s.writers.get? "w".toList = some { strong := "__".toList } := rfl
  have hchange : (s.advance change).1 = .error (.bulletMark "x".toList) := rfl
  have hbefore : s.nodes.get? "n".toList = some ⟨.bold, "__a__".toList, true⟩ := rfl
  have hafter : (s.run [refused, rebuilt]).2.nodes.get? "n".toList =
      some ⟨.bold, "__c__".toList, true⟩ := rfl
  obtain ⟨hmarks, hfailed, hnodes⟩ := run_sound before change [refused, rebuilt]
  refine ⟨⟨_, hwriter, (hmarks _ _ hwriter).2.1⟩, hfailed _ hchange, hnodes _ ?_⟩
  rw [show (s.run [refused, rebuilt]).2.nodes.get? "n".toList = _ from hafter,
    show s.nodes.get? "n".toList = _ from hbefore]
  decide

end Markdown
