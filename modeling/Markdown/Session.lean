import Markdown.Expr.Eval
import Markdown.Registry

/-!
# Sessions

A session is a run of steps over named writers, named nodes, and one flag for
safe mode. Work without a named writer is done by the default writer, which
follows the flag of the moment; a named writer keeps the safe mode that it was
given. A step that fails changes nothing, and the session goes on.
-/

namespace Markdown

structure Session where
  safeMode : Bool := false
  writers : Registry Writer := .empty
  nodes : Registry Node := .empty

/-- One thing to do in a session. A build is by a named writer or by the default
one, and may name its node. -/
inductive Step where
  | switchSafeMode (enabled : Bool)
  | getSafeMode
  | newWriter (name : Text) (patch : Writer.Patch)
  | keepDefault (name : Text)
  | changeWriter (name : Text) (patch : Writer.Patch)
  | getWriter (name : Text)
  | build (expr : Expr) (writer? : Option Text) (name? : Option Text)
  | getNode (name : Text)
  | sameNode (name other : Text)

inductive Answer where
  | flag (value : Bool)
  | writer (writer : Writer)
  | node (node : Node)
deriving DecidableEq, Repr

namespace Session

def defaultWriter (s : Session) : Writer :=
  { safeMode := s.safeMode }

def writer (s : Session) (name : Text) : Except Fault Writer :=
  match s.writers.get? name with
  | some w => .ok w
  | none => .error (.noWriter name)

def node (s : Session) (name : Text) : Except Fault Node :=
  match s.nodes.get? name with
  | some n => .ok n
  | none => .error (.noNode name)

def writerOrDefault (s : Session) : Option Text → Except Fault Writer
  | some name => s.writer name
  | none => .ok s.defaultWriter

def putWriter (s : Session) (name : Text) (w : Writer) : Session :=
  { s with writers := s.writers.put name w }

/-- A session with a node under a name, if a name is given. -/
def putNode (s : Session) (name? : Option Text) (n : Node) : Session :=
  match name? with
  | some name => { s with nodes := s.nodes.put name n }
  | none => s

/-- Work on a session. A fault leaves the session behind as it is by then. -/
abbrev Action := ExceptT Fault (StateM Session)

def Action.on {α : Type} (x : Action α) (s : Session) : Except Fault α × Session :=
  x.run.run s

/-- Looks something up in a session, or works it out from there. -/
def look {α : Type} (f : Session → Except Fault α) : Action α := do
  f (← get)

/-- What a step does. It makes its checks on copies, and changes the session last. -/
def step : Step → Action Answer
  | .switchSafeMode enabled => do
      modify fun s => { s with safeMode := enabled }
      return .flag enabled
  | .getSafeMode => return .flag (← get).safeMode
  | .newWriter name patch => do
      let w ← Writer.change {} patch
      modify (·.putWriter name w)
      return .writer w
  | .keepDefault name => do
      let w := (← get).defaultWriter
      modify (·.putWriter name w)
      return .writer w
  | .changeWriter name patch => do
      let w ← look (·.writer name)
      let changed ← w.change patch
      modify (·.putWriter name changed)
      return .writer changed
  | .getWriter name => return .writer (← look (·.writer name))
  | .build expr writer? name? => do
      let w ← look (·.writerOrDefault writer?)
      let n ← look fun s => expr.eval w s.nodes.get?
      modify (·.putNode name? n)
      return .node n
  | .getNode name => return .node (← look (·.node name))
  | .sameNode name other => do
      let a ← look (·.node name)
      let b ← look (·.node other)
      return .flag (a == b)

/-- Takes a step whatever comes of it. -/
def advance (s : Session) (st : Step) : Except Fault Answer × Session :=
  (step st).on s

/-- Takes some steps in order. There is one result for each. -/
def run (s : Session) : List Step → List (Except Fault Answer) × Session
  | [] => ([], s)
  | st :: rest =>
      let first := s.advance st
      let later := first.2.run rest
      (first.1 :: later.1, later.2)

end Session

end Markdown
