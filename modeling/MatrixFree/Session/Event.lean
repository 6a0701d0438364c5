import MatrixFree.LeastSquares

/-!
# Events

What a session makes known besides its answers: graphs that come and go, solves that end, calls
that fail.
-/

namespace MatrixFree

inductive Severity where
  | debug
  | warning
  | error
  deriving DecidableEq, Repr

inductive Event where
  | constructed (graph : String) (nodes edges inputLength outputLength : Nat)
  | report (graph : String) (stats : EvalStats)
  | converged (iterations : Nat) (residualNorm : Float)
  | stopped (iterations : Nat) (residualNorm : Float) (maxIters : UInt64)
  | noContext (callback : Direction)
  | evaluationFailed (callback : Direction) (cause : GraphError)
  | evaluationTrapped (callback : Direction)

/-- What a field of an event holds. -/
inductive FieldValue where
  | text (s : String)
  | count (n : Nat)
  | number (x : Float)

namespace Event

def severity : Event → Severity
  | constructed .. | report .. | converged .. => .debug
  | stopped .. => .warning
  | noContext _ | evaluationFailed .. | evaluationTrapped _ => .error

/-- The wording of an event, with times written by `time`. -/
def message (time : Duration → String) : Event → String
  | constructed .. => "operator graph constructed"
  | report _ stats => stats.reportWith time
  | converged .. => "cgls converged"
  | stopped .. => "cgls stopped before reaching tolerance"
  | noContext _ => "null graph context"
  | evaluationFailed .. => "evaluation failed"
  | evaluationTrapped _ => "panic during evaluation"

def fields : Event → List (String × FieldValue)
  | constructed graph nodes edges inputLength outputLength =>
    [("graph", .text graph), ("nodes", .count nodes), ("edges", .count edges),
      ("input_len", .count inputLength), ("output_len", .count outputLength)]
  | report graph _ => [("graph", .text graph)]
  | converged iterations residualNorm =>
    [("iterations", .count iterations), ("residual_norm", .number residualNorm)]
  | stopped iterations residualNorm maxIters =>
    [("iterations", .count iterations), ("residual_norm", .number residualNorm),
      ("max_iters", .count maxIters.toNat)]
  | noContext callback => [("callback", .text callback.text)]
  | evaluationFailed callback cause =>
    [("callback", .text callback.text), ("error", .text cause.message)]
  | evaluationTrapped callback => [("callback", .text callback.text)]

/-- The event of a new graph. -/
def ofNew (g : Graph Float) : Event :=
  .constructed g.config.name g.nodes.size g.topology.edges.count g.inputLength g.outputLength

/-- The events of a graph that is dropped: its statistics, if it is to report them. -/
def ofDropped (g : Graph Float) : List Event :=
  if g.config.reportOnDrop then [.report g.config.name g.stats] else []

/-- The event of a solve that ended with a result. -/
def ofSolved (maxIters : UInt64) (r : LeastSquares.Result Float) : Event :=
  if r.converged then .converged r.iterations r.residualNorm
  else .stopped r.iterations r.residualNorm maxIters

end Event

end MatrixFree
