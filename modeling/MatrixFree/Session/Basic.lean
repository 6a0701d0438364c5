import MatrixFree.Description.Text
import MatrixFree.Session.Event

/-!
# Sessions

A graph in use: the commands that are given to it one after the other, their answers, and the
events that they cause. A command for a graph that is gone is answered by `Answer.noGraph`.
-/

namespace MatrixFree

inductive Command where
  | copyInput (d : Direction) (data : Array Float)
  | copyOutput (d : Direction) (out : Array Float)
  | evaluate (d : Direction)
  /-- An evaluation as an external loop asks for it, with or without a graph to work on. -/
  | callback (d : Direction) (hasContext : Bool)
  | write (role : BufferRole) (start : Nat) (data : Array Float)
  | solve (b : Array Float) (options : LeastSquares.Options Float)
  /-- Replaces the graph by the one that its own description gives. -/
  | reload
  | finalize
  | drop

inductive Answer where
  | done
  | failed (e : GraphError)
  | copied (out : Array Float) (outcome : Except GraphError Unit)
  | status (code : Int)
  | solved (r : LeastSquares.Result Float)
  | unsolved (e : LeastSquares.SolveError Float)
  /-- Whether the description came back from its text as it was. -/
  | reloaded (same : Bool)
  | notLoaded (e : DescriptionError)
  | stats (s : EvalStats)
  | noGraph
  | trapped (t : Trap)

/-- A graph, if it is still there, and the events so far, the last one first. -/
structure Session where
  graph : Option (Graph Float)
  journal : List Event

namespace Answer

def ofOutcome : GraphCheck Unit → Answer
  | .ok () => done
  | .error (.fault e) => failed e
  | .error (.trap t) => trapped t

/-- The status that an external loop is given: zero is success. -/
def statusOf : GraphCheck Unit → Int
  | .ok () => 0
  | .error (.fault _) => 1
  | .error (.trap _) => 2

end Answer

namespace Session

/-- Adds events in the order in which they happen. -/
def log (s : Session) (events : List Event) : Session :=
  { s with journal := events.reverse ++ s.journal }

/-- A session with a new graph. -/
def start (g : Graph Float) : Session := ⟨some g, [.ofNew g]⟩

/-- The session after its graph, if it is still there, is dropped. -/
def close (s : Session) : Session :=
  match s.graph with
  | none => s
  | some g => { s with graph := none }.log (Event.ofDropped g)

/-- The events of a callback, by its outcome. -/
def callbackEvents (d : Direction) : GraphCheck Unit → List Event
  | .ok () => []
  | .error (.fault e) => [.evaluationFailed d e]
  | .error (.trap _) => [.evaluationTrapped d]

def reload (s : Session) (g : Graph Float) : Session × Answer :=
  let snapshot := Description.ofGraph g
  match Description.ofJson snapshot.toJson with
  | .error e => (s, .notLoaded e)
  | .ok d =>
    match d.load with
    | .error (.fault e) => (s, .notLoaded e)
    | .error (.trap t) => (s, .trapped t)
    | .ok g' =>
      ({ s with graph := some g' }.log (.ofNew g' :: Event.ofDropped g), .reloaded (d = snapshot))

/-- Carries out a command on the graph. -/
def performOn (elapsed : Duration) (s : Session) (g : Graph Float) : Command → Session × Answer
  | .copyInput d data =>
    let (g, outcome) := g.copyInput d data
    ({ s with graph := some g }, .ofOutcome (.ofExcept outcome))
  | .copyOutput d out =>
    let (out, outcome) := g.copyOutput d out
    (s, .copied out outcome)
  | .evaluate d =>
    let (g, outcome) := g.evaluate d elapsed
    ({ s with graph := some g }, .ofOutcome outcome)
  | .callback d false => (s.log [.noContext d], .status (-1))
  | .callback d true =>
    let (g, outcome) := g.evaluate d elapsed
    ({ s with graph := some g }.log (callbackEvents d outcome), .status (Answer.statusOf outcome))
  | .write role start data =>
    match g.write role start data with
    | .ok g => ({ s with graph := some g }, .done)
    | .error t => (s, .trapped t)
  | .solve b options =>
    match LeastSquares.solve elapsed g b options with
    | (g, .ok r) => ({ s with graph := some g }.log [.ofSolved options.maxIters r], .solved r)
    | (g, .error (.fault e)) => ({ s with graph := some g }, .unsolved e)
    | (g, .error (.trap t)) => ({ s with graph := some g }, .trapped t)
  | .reload => s.reload g
  | .finalize => ({ s with graph := none }, .stats g.stats)
  | .drop => (s.close, .done)

/-- Carries out a command. Each evaluation that it makes is taken to last for `elapsed`. -/
def perform (elapsed : Duration) (s : Session) (c : Command) : Session × Answer :=
  match s.graph with
  | none => (s, .noGraph)
  | some g => s.performOn elapsed g c

end Session

end MatrixFree
