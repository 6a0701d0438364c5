import MatrixFree.Ident
import MatrixFree.Operator.Check

/-!
# Graph errors

What can be wrong with a graph or with a call on it. Every error is a cause with its data; its
wording is in `GraphError.message`.
-/

namespace MatrixFree

/-- The four parts that a graph's two outer buffers play. -/
inductive BufferRole where
  | forwardInput
  | forwardOutput
  | adjointInput
  | adjointOutput
  deriving DecidableEq, Repr

def BufferRole.text : BufferRole → String
  | forwardInput => "forward input"
  | forwardOutput => "forward output"
  | adjointInput => "adjoint input"
  | adjointOutput => "adjoint output"

/-- How a node and the registry disagree on an edge: the node lists it on a side that the registry
does not give it, or does not list it on one that the registry does. -/
inductive Mismatch where
  | listed (side : Side)
  | missing (side : Side)
  deriving DecidableEq, Repr

def Mismatch.text : Mismatch → String
  | listed side => side.text
  | missing side => "missing " ++ side.text

/-- Why the shapes of a node are refused. -/
inductive ShapeProblem where
  | bufferTooLong (side : Side)
  | refused (fault : ShapeFault) (operator : String)
  deriving DecidableEq, Repr

def ShapeProblem.message : ShapeProblem → String
  | bufferTooLong side => s!"{side.text} buffer length overflows"
  | refused fault operator => s!"{fault.message} ({operator})"

inductive GraphError where
  | nodeOutOfRange (node : NodeId) (count : Nat)
  | unknownEdge (node : NodeId) (edge : EdgeId)
  | endpointMismatch (edge : EdgeId) (node : NodeId) (how : Mismatch) (registered : Edge)
  | duplicateEdge (edge : EdgeId)
  | selfLoop (edge : EdgeId) (node : NodeId)
  | portCount (node : NodeId) (side : Side) (ports edges : Nat)
  | edgeSize (edge : EdgeId) (source target : Nat)
  | invalidShape (node : NodeId) (problem : ShapeProblem)
  | rootHasInputs (node : NodeId)
  | terminalHasOutputs (node : NodeId)
  | cycle (node : NodeId)
  | lengthMismatch (role : BufferRole) (expected actual : Nat)
  | batchSize (instances inputs : Nat)
  | unvisited (direction : Direction) (nodes : List NodeId)
  deriving DecidableEq, Repr

namespace GraphError

/-- A node as the parts of a longer value are written. -/
def nodeText (n : NodeId) : String := s!"NodeId({n.index})"

def nodesText (l : List NodeId) : String := "[" ++ ", ".intercalate (l.map nodeText) ++ "]"

def endsText (e : Edge) : String := s!"({nodeText e.source}, {nodeText e.target})"

def message : GraphError → String
  | nodeOutOfRange node count =>
    s!"node {node.text} is out of range for a graph of {count} nodes"
  | unknownEdge node edge =>
    s!"edge {edge.text} referenced by node {node.text} is not in the edge registry"
  | endpointMismatch edge node how registered =>
    s!"edge {edge.text} is registered as {endsText registered} "
      ++ s!"but node {node.text} lists it as {how.text}"
  | duplicateEdge edge => s!"edge {edge.text} is listed more than once"
  | selfLoop edge node => s!"edge {edge.text} connects node {node.text} to itself"
  | portCount node side ports edges =>
    s!"node {node.text} declares {ports} {side.text} ports for {edges} {side.text} edges"
  | edgeSize edge source target =>
    s!"edge {edge.text} carries {source} elements at its source but {target} at its target"
  | invalidShape node problem => s!"invalid shapes at node {node.text}: {problem.message}"
  | rootHasInputs node => s!"root node {node.text} must not have input edges"
  | terminalHasOutputs node => s!"terminal node {node.text} must not have output edges"
  | cycle node => s!"cycle detected through node {node.text}"
  | lengthMismatch role expected actual =>
    s!"{role.text} buffer holds {expected} elements, caller supplied {actual}"
  | batchSize instances inputs =>
    s!"batch pairs {instances} graph instances with {inputs} input vectors"
  | unvisited direction nodes =>
    s!"{direction.text} traversal never visited nodes {nodesText nodes}"

/-- Whether the error is one of how the graph is declared, and not of a call on it. -/
def isConfiguration : GraphError → Bool
  | lengthMismatch .. | batchSize .. | unvisited .. => false
  | _ => true

end GraphError

/-- The outcome of a step on a graph that gives a `β` or stops. -/
abbrev GraphCheck (β : Type) := Except (Stop GraphError) β

namespace GraphCheck

def refuse {β : Type} (e : GraphError) : GraphCheck β := .error (.fault e)

/-- A result that cannot trap, seen as one that might. -/
def ofExcept {β : Type} : Except GraphError β → GraphCheck β
  | .ok b => .ok b
  | .error e => refuse e

end GraphCheck

end MatrixFree
