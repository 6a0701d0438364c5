import MatrixFree.Graph.Basic

/-!
# Batches

Many graphs, each evaluated on an input of its own. The graphs share nothing, so one that fails
does not touch the others.
-/

namespace MatrixFree.Batch

variable {α : Type} [Scalar α]

/-- Evaluates one graph on `input`. -/
def evaluateOne (d : Direction) (elapsed : Duration) (g : Graph α) (input : Array α) :
    Graph α × GraphCheck (Array α) :=
  match g.copyInput d input with
  | (g, .error e) => (g, GraphCheck.refuse e)
  | (g, .ok ()) =>
    match g.evaluate d elapsed with
    | (g, .error stop) => (g, .error stop)
    | (g, .ok ()) =>
      match g.copyOutput d (Array.replicate (g.resultLength d) 0) with
      | (_, .error e) => (g, GraphCheck.refuse e)
      | (out, .ok ()) => (g, .ok out)

/-- Evaluates each graph on the input at its place, if there are as many inputs as graphs. -/
def evaluateAll (d : Direction) (elapsed : Duration) (graphs : List (Graph α))
    (inputs : List (Array α)) :
    List (Graph α) × Except GraphError (List (GraphCheck (Array α))) :=
  if graphs.length ≠ inputs.length then
    (graphs, .error (.batchSize graphs.length inputs.length))
  else
    let pairs := List.zipWith (evaluateOne d elapsed) graphs inputs
    (pairs.map (·.1), .ok (pairs.map (·.2)))

end MatrixFree.Batch
