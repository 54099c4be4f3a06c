import Markdown.Proofs.SafeMode
import Markdown.Proofs.Sessions

/-!
# Safe mode over whole sessions

The flag can be switched, writers can be changed or replaced, and stored nodes can be
used again between any two steps. What safe mode promises survives all of it: a build
in safe mode is as escaped as the stored nodes that it uses, so it keeps up that all
stored nodes are escaped (`Session.nodesEscaped_advance`), and a run whose builds are
all in safe mode does (`Session.nodesEscaped_run`).
-/

namespace Markdown

namespace Session

variable {s : Session} {st : Step} {e : Expr} {writer? name? : Option Text} {n : Node}

/-- Whether a build is in safe mode: by the default writer while the flag is on, or by a
named writer that works in safe mode. -/
def guards (s : Session) : Option Text → Bool
  | none => s.safeMode
  | some name => (s.writers.get? name).any (·.safeMode)

theorem safeMode_of_guards (h : s.guards writer? = true) {w : Writer}
    (hw : s.writerOrDefault writer? = .ok w) : w.safeMode = true := by
  cases writer? with
  | none =>
      obtain rfl := Except.ok.inj hw
      exact h
  | some name =>
      obtain ⟨v, hv, hsafe⟩ := (Option.any_eq_true ..).mp h
      rw [writerOrDefault, writer, hv] at hw
      obtain rfl := Except.ok.inj hw
      exact hsafe

theorem makes_of_advance_build
    (h : (s.advance (.build e writer? name?)).1 = .ok (.node n)) :
    ∃ w, s.writerOrDefault writer? = .ok w ∧ Makes w s.nodes.get? e n := by
  rw [advance_build] at h
  obtain ⟨w, hw, hmap⟩ := bind_eq_ok_iff.mp h
  obtain ⟨m, hm, hanswer⟩ := map_eq_ok_iff.mp hmap
  obtain rfl := Answer.node.inj hanswer
  exact ⟨w, hw, hm⟩

/-- A build in safe mode has its flag from the stored nodes that it uses. -/
theorem escaped_of_guards (hguards : s.guards writer? = true)
    (h : (s.advance (.build e writer? name?)).1 = .ok (.node n)) :
    n.escaped = e.refs.all fun name => (s.nodes.get? name).any (·.escaped) := by
  obtain ⟨w, hw, hmakes⟩ := makes_of_advance_build h
  exact escaped_eq_of_safeMode (safeMode_of_guards hguards hw) hmakes

def NodesEscaped (s : Session) : Prop :=
  ∀ name n, s.nodes.get? name = some n → n.escaped = true

/-- A step is no build that succeeds outside safe mode. -/
def BuildsSafely (s : Session) (st : Step) : Prop :=
  ∀ e writer? name? n, st = .build e writer? name? →
    (s.advance st).1 = .ok (.node n) → s.guards writer? = true

theorem nodesEscaped_empty : NodesEscaped {} :=
  nofun

/-- What is made in safe mode out of escaped nodes is escaped. -/
theorem NodesEscaped.escaped (hs : s.NodesEscaped) (hguards : s.guards writer? = true)
    (h : (s.advance (.build e writer? name?)).1 = .ok (.node n)) : n.escaped = true := by
  rw [escaped_of_guards hguards h, List.all_eq_true]
  intro name hname
  obtain ⟨w, -, hmakes⟩ := makes_of_advance_build h
  obtain ⟨m, hm⟩ := exists_makes_of_mem_parts hmakes (Expr.mem_refs_iff.mp hname)
  have hstored : s.nodes.get? name = some m := makes_stored_iff.mp hm
  rw [hstored]
  exact hs name m hstored

theorem nodesEscaped_advance (hs : s.NodesEscaped) (hst : s.BuildsSafely st) :
    (s.advance st).2.NodesEscaped := by
  intro name n hn
  by_cases hsame : (s.advance st).2.nodes.get? name = s.nodes.get? name
  · exact hs name n (hsame ▸ hn)
  · obtain ⟨e, writer?, m, rfl, hanswer, hm⟩ := node_changed_advance hsame
    obtain rfl : m = n := Option.some.inj (hm.symm.trans hn)
    exact hs.escaped (hst e writer? (some name) m rfl hanswer) hanswer

/-- **Stored nodes stay escaped** while every build that succeeds is in safe mode. -/
theorem nodesEscaped_run {steps : List Step} (hs : s.NodesEscaped)
    (h : ∀ xs st ys, steps = xs ++ st :: ys → (s.run xs).2.BuildsSafely st) :
    (s.run steps).2.NodesEscaped := by
  induction steps generalizing s with
  | nil => exact hs
  | cons st rest ih =>
      have hfirst : (s.advance st).2.NodesEscaped :=
        nodesEscaped_advance hs (h [] st rest rfl)
      exact ih hfirst fun xs st' ys hrest => h (st :: xs) st' ys (congrArg (st :: ·) hrest)

end Session

/-- **Safe mode lets nothing unescaped in.** After any steps from the empty session, a
build in safe mode that succeeds makes a node that is escaped exactly if all stored
nodes are that it refers to. So if every build that succeeded on the way was in safe
mode, every stored node is escaped. -/
theorem safe_builds_escaped (steps : List Step) :
    let s := (Session.run {} steps).2
    (∀ e writer? name? n, s.guards writer? = true →
      (s.advance (.build e writer? name?)).1 = .ok (.node n) →
      n.escaped = e.refs.all fun name => (s.nodes.get? name).any (·.escaped)) ∧
    ((∀ xs e writer? name? ys n, steps = xs ++ .build e writer? name? :: ys →
        ((Session.run {} xs).2.advance (.build e writer? name?)).1 = .ok (.node n) →
        (Session.run {} xs).2.guards writer? = true) →
      ∀ name n, s.nodes.get? name = some n → n.escaped = true) := by
  intro s
  refine ⟨fun e writer? name? n => Session.escaped_of_guards, fun h => ?_⟩
  apply Session.nodesEscaped_run Session.nodesEscaped_empty
  rintro xs st ys hsteps e writer? name? n rfl hanswer
  exact h xs e writer? name? ys n hsteps hanswer

/-- Two runs that make a node out of two stored ones while the flag is on. In the first
one of the two was stored before, without escaping. In the second all builds are in
safe mode, the last of them refused. -/
theorem safe_builds_escaped_reuse :
    let text (t : Text) (escape : Bool) : Expr := .leaf (.text t) escape
    let both : Expr := .wrap .paragraph
      (.sequence [.node (.stored "m".toList), .node (.stored "n".toList)]) true
    let mixed : List Step := [.build (text "a".toList true) none (some "m".toList),
      .build (text "<".toList false) none (some "n".toList), .switchSafeMode true]
    let steps : List Step := [.newWriter "w".toList { safeMode := some true },
      .build (text "a".toList true) (some "w".toList) (some "m".toList),
      .switchSafeMode true, .build (text "<".toList true) none (some "n".toList),
      .build both none (some "n".toList), .build (text "<".toList false) none (some "m".toList)]
    ((Session.run {} mixed).2.advance (.build both none none)).1 =
      .ok (.node ⟨.paragraph, "a<\n\n".toList, false⟩) ∧
    false = both.refs.all (fun name =>
      ((Session.run {} mixed).2.nodes.get? name).any (·.escaped)) ∧
    (Session.run {} steps).2.nodes.get? "n".toList =
      some ⟨.paragraph, "a\\<\n\n".toList, true⟩ ∧
    ∀ name n, (Session.run {} steps).2.nodes.get? name = some n → n.escaped = true := by
  intro text both mixed steps
  have hmixed : ((Session.run {} mixed).2.advance (.build both none none)).1 =
      .ok (.node ⟨.paragraph, "a<\n\n".toList, false⟩) := by decide
  refine ⟨hmixed, (safe_builds_escaped mixed).1 both none none _ rfl hmixed, by decide, ?_⟩
  apply (safe_builds_escaped steps).2
  intro xs e writer? name? ys n hsteps _
  rcases xs with _ | ⟨_, _ | ⟨_, _ | ⟨_, _ | ⟨_, _ | ⟨_, _ | ⟨_, xs⟩⟩⟩⟩⟩⟩ <;>
    simp only [steps, List.cons_append, List.nil_append, List.cons.injEq,
      Step.build.injEq, reduceCtorEq, List.nil_eq, List.append_eq_nil_iff, and_false,
      false_and] at hsteps
  · obtain ⟨rfl, ⟨-, rfl, -⟩, -⟩ := hsteps
    decide
  · obtain ⟨rfl, rfl, rfl, ⟨-, rfl, -⟩, -⟩ := hsteps
    decide
  · obtain ⟨rfl, rfl, rfl, rfl, ⟨-, rfl, -⟩, -⟩ := hsteps
    decide
  · obtain ⟨rfl, rfl, rfl, rfl, rfl, ⟨-, rfl, -⟩, -⟩ := hsteps
    decide

end Markdown
