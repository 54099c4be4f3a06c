import Markdown.Proofs.References
import Markdown.Proofs.Sessions

/-!
# Writers apart from each other

A build looks at its session in two places: the writer that does it, and the stored
nodes that its expression refers to (`Session.advance_build`). A step that spares both
(`Step.Spares`) makes no difference to it, whatever else it does to the flag, to other
writers or to other nodes. The default writer is looked up afresh for each build, and
once it is named it is a writer like the others, which the flag no longer reaches.
-/

namespace Markdown

/-- The name that a step may store a node under. -/
def Step.stores? : Step → Option Text
  | .build _ _ name? => name?
  | _ => none

/-- A step renews another writer or none, and it stores a node under no name that an
expression refers to. -/
def Step.Spares (writer : Text) (e : Expr) (st : Step) : Prop :=
  st.renews? ≠ some writer ∧ ∀ name ∈ st.stores?, name ∉ e.refs

instance (writer : Text) (e : Expr) : DecidablePred (Step.Spares writer e) := fun _ =>
  inferInstanceAs (Decidable (_ ∧ _))

/-- Two sessions are the same to an expression and a named writer. -/
structure Session.SameFor (writer : Text) (e : Expr) (s s' : Session) : Prop where
  writer : s.writers.get? writer = s'.writers.get? writer
  nodes : ∀ name ∈ e.refs, s.nodes.get? name = s'.nodes.get? name

namespace Session

variable {s s' : Session} {writer : Text} {e : Expr} {steps : List Step}

/-- A run of steps that spare a writer and an expression changes nothing about them. -/
theorem sameFor_run (h : ∀ st ∈ steps, st.Spares writer e) :
    SameFor writer e (s.run steps).2 s where
  writer := by
    by_contra hne
    obtain ⟨xs, st, ys, w, rfl, hrenews, -⟩ := writer_changed_run hne
    exact (h st (by simp)).1 hrenews
  nodes := by
    intro name hname
    by_contra hne
    obtain ⟨xs, e', writer?, ys, n, rfl, -⟩ := node_changed_run hne
    exact (h (.build e' writer? (some name)) (by simp)).2 name rfl hname

theorem sameFor_run_of_lasting (h : ∀ st ∈ s.lasting steps, st.Spares writer e) :
    SameFor writer e (s.run steps).2 s := by
  have hrun : (s.run (s.lasting steps)).2 = (s.run steps).2 := by rw [run_lasting]
  exact hrun ▸ sameFor_run h

theorem SameFor.advance_build (h : SameFor writer e s s') (name? : Option Text) :
    (s.advance (.build e (some writer) name?)).1 =
      (s'.advance (.build e (some writer) name?)).1 := by
  have heval : ∀ w, e.eval w s.nodes.get? = e.eval w s'.nodes.get? := fun w =>
    Expr.eval_congr h.nodes
  simp only [Session.advance_build, writerOrDefault, Session.writer, h.writer, heval]

end Session

/-- **Named writers are independent.** Between two builds of an expression by a named
writer any steps may be taken: as long as those that succeed do not renew this writer,
and store no node that the expression refers to, both builds come out the same. A build
by the default writer comes out as one by a writer that has been named after it at that
moment, with any such steps in between, and so also after the flag has been switched. -/
theorem build_isolated (s : Session) (e : Expr) (name? : Option Text) (writer : Text)
    (between : List Step) :
    ((∀ st ∈ s.lasting between, st.Spares writer e) →
      ((s.run between).2.advance (.build e (some writer) name?)).1 =
        (s.advance (.build e (some writer) name?)).1) ∧
    ((∀ st ∈ (s.advance (.keepDefault writer)).2.lasting between, st.Spares writer e) →
      ((s.run (.keepDefault writer :: between)).2.advance (.build e (some writer) name?)).1 =
        (s.advance (.build e none name?)).1) := by
  refine ⟨fun h => (Session.sameFor_run_of_lasting h).advance_build name?, fun h => ?_⟩
  have hkept : (s.putWriter writer s.defaultWriter).writers.get? writer =
      some s.defaultWriter := by
    rw [Session.putWriter, Registry.get?_put, if_pos rfl]
  calc ((s.run (.keepDefault writer :: between)).2.advance (.build e (some writer) name?)).1
      = ((s.putWriter writer s.defaultWriter).advance (.build e (some writer) name?)).1 :=
        (Session.sameFor_run_of_lasting h).advance_build name?
    _ = (s.advance (.build e none name?)).1 := by
        rw [Session.advance_build, Session.advance_build, Session.writerOrDefault,
          Session.writer, hkept]
        rfl

/-- Strong text around a stored node, built by a writer with marks of its own and by
the default writer, before and after steps on the flag, another writer and another
node. A build under the name of the stored node fails on its way, and does not matter. -/
theorem build_isolated_flag :
    let text (t : Text) (escape : Bool) : Expr := .leaf (.text t) escape
    let e : Expr := .wrap .bold (.node (.stored "n".toList)) false
    let s := (Session.run {} [.newWriter "w".toList { strong := some "__".toList },
      .build (text "a".toList true) none (some "n".toList)]).2
    let between : List Step := [.switchSafeMode true, .keepDefault "v".toList,
      .changeWriter "v".toList { strong := some "__".toList },
      .build (text "b".toList false) none (some "n".toList),
      .build (text "c".toList true) (some "v".toList) (some "m".toList)]
    (∀ st ∈ s.lasting between, st.Spares "w".toList e) ∧
    (∀ st ∈ (s.advance (.keepDefault "d".toList)).2.lasting between,
      st.Spares "d".toList e) ∧
    ((s.run between).2.advance (.build e (some "w".toList) none)).1 =
      .ok (.node ⟨.bold, "__a__".toList, false⟩) ∧
    ((s.run between).2.advance (.build e none none)).1 = .error .unescaped ∧
    ((s.run (.keepDefault "d".toList :: between)).2.advance
        (.build e (some "d".toList) none)).1 =
      .ok (.node ⟨.bold, "**a**".toList, false⟩) := by
  intro text e s between
  have hwriter : ∀ st ∈ s.lasting between, st.Spares "w".toList e := by decide
  have hdefault : ∀ st ∈ (s.advance (.keepDefault "d".toList)).2.lasting between,
      st.Spares "d".toList e := by decide
  refine ⟨hwriter, hdefault, ?_, rfl, ?_⟩
  · rw [(build_isolated s e none "w".toList between).1 hwriter]
    rfl
  · rw [(build_isolated s e none "d".toList between).2 hdefault]
    decide

end Markdown
