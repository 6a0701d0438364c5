import MatrixFree.GraphError
import MatrixFree.Node.Basic
import MatrixFree.Registry

/-!
# Wiring

Whether the edge lists of the nodes, their ports and the edge registry describe one and the same
graph. `Wiring.check` names the first disagreement that it meets. Cycles are looked for later, on
the topology.
-/

namespace MatrixFree.Wiring

variable {α : Type}

open GraphCheck

/-- The node at the end of an edge that is listed on a side. -/
def endOn : Side → Edge → NodeId
  | .input, e => e.target
  | .output, e => e.source

def checkInRange (count : Nat) (n : NodeId) : GraphCheck Unit :=
  if n.index < count then .ok () else refuse (.nodeOutOfRange n count)

/-- Requires one port for each edge of a side, and one more if the side is open to the outside. -/
def checkPorts (n : NodeId) (side : Side) (p : PortList) (isOpen : Bool) : GraphCheck Unit :=
  if p.shapes.length = p.edges.length + (if isOpen then 1 else 0) then .ok ()
  else refuse (.portCount n side p.shapes.length p.edges.length)

/-- Requires the size of every port, and their sum, to be a machine word. -/
def checkLength (n : NodeId) (side : Side) (p : PortList) : GraphCheck Unit :=
  match p.shapes.foldlM (fun total s => s.checkedSize.bind (Size.add? total)) 0 with
  | some _ => .ok ()
  | none => refuse (.invalidShape n (.bufferTooLong side))

/-- Requires the operator to accept the ports. -/
def checkOperator (n : NodeId) (spec : NodeSpec α) : GraphCheck Unit :=
  (spec.op.check spec.signature).mapError
    (Stop.mapFault fun f => .invalidShape n (.refused f spec.op.name))

/-- Adds an edge that a node lists to those listed before. The registry has to know it and to put
the node at its end, and no node may have listed it before. -/
def claim (edges : EdgeRegistry) (n : NodeId) (side : Side) (seen : List EdgeId) (e : EdgeId) :
    GraphCheck (List EdgeId) :=
  match edges.get? e with
  | none => refuse (.unknownEdge n e)
  | some edge =>
    if endOn side edge ≠ n then refuse (.endpointMismatch e n (.listed side) edge)
    else if e ∈ seen then refuse (.duplicateEdge e)
    else .ok (e :: seen)

/-- The edges listed so far on each side. -/
structure Claims where
  inputs : List EdgeId
  outputs : List EdgeId
  deriving DecidableEq, Repr

def checkNode (edges : EdgeRegistry) (root terminal : NodeId) (seen : Claims) (n : NodeId)
    (spec : NodeSpec α) : GraphCheck Claims := do
  checkPorts n .input spec.input (n = root)
  checkPorts n .output spec.output (n = terminal)
  checkLength n .input spec.input
  checkLength n .output spec.output
  checkOperator n spec
  let inputs ← spec.input.edges.foldlM (claim edges n .input) seen.inputs
  let outputs ← spec.output.edges.foldlM (claim edges n .output) seen.outputs
  return ⟨inputs, outputs⟩

/-- The size that a node gives to an edge; zero if it does not list it. -/
def sizeAt (nodes : List (NodeSpec α)) (n : NodeId) (e : EdgeId) : Nat :=
  ((nodes[n.index]?).bind (·.edgeSize? e)).getD 0

/-- Requires both ends of a registered edge to be nodes that list it, with one size. -/
def checkEdge (nodes : List (NodeSpec α)) (seen : Claims) (e : EdgeId) (edge : Edge) :
    GraphCheck Unit := do
  checkInRange nodes.length edge.source
  checkInRange nodes.length edge.target
  if edge.source = edge.target then refuse (.selfLoop e edge.source)
  if e ∉ seen.outputs then refuse (.endpointMismatch e edge.source (.missing .output) edge)
  if e ∉ seen.inputs then refuse (.endpointMismatch e edge.target (.missing .input) edge)
  let source := sizeAt nodes edge.source e
  let target := sizeAt nodes edge.target e
  if source ≠ target then refuse (.edgeSize e source target)

def check (nodes : List (NodeSpec α)) (edges : EdgeRegistry) (root terminal : NodeId) :
    GraphCheck Unit := do
  checkInRange nodes.length root
  checkInRange nodes.length terminal
  if let some spec := nodes[root.index]? then
    if spec.input.edges ≠ [] then refuse (.rootHasInputs root)
  if let some spec := nodes[terminal.index]? then
    if spec.output.edges ≠ [] then refuse (.terminalHasOutputs terminal)
  let seen ← nodes.zipIdx.foldlM
    (fun seen (spec, i) => checkNode edges root terminal seen (.ofIndex i) spec) ⟨[], []⟩
  edges.entries.forM fun (e, edge) => checkEdge nodes seen e edge

end MatrixFree.Wiring
