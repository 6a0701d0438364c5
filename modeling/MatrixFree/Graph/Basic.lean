import MatrixFree.Config
import MatrixFree.Node.Evaluate
import MatrixFree.Routing
import MatrixFree.Stats.Basic
import MatrixFree.Topology.Cycle
import MatrixFree.Topology.Walk
import MatrixFree.Wiring

/-!
# Graphs

A graph is a linear operator `A` put together from atomic ones. A forward evaluation takes `x` in
the root's input buffer to `A x` in the terminal's output buffer. An adjoint evaluation takes `y`
in the terminal's output buffer to the transpose of `A` times `y` in the root's input buffer.
`Graph.build` is the only way to a graph; it refuses every wiring on which an evaluation could
fail.
-/

namespace MatrixFree

structure Graph (α : Type) where
  nodes : Array (Node α)
  topology : Topology
  stats : EvalStats
  config : Config

namespace Graph

variable {α : Type} [Scalar α]

/-- Gives the visited node its buffers and the places of its edges. -/
def prepare : Topology.Visitor (Array (Node α)) := fun n nodes =>
  match nodes[n.index]? with
  | none => (nodes, .error (.trap .outOfRange))
  | some node => (nodes.setIfInBounds n.index node.allocate.layOut, .ok ())

/-- The graph of the given nodes and edges, its buffers filled with zeros. -/
def build (specs : List (NodeSpec α)) (root terminal : NodeId) (edges : EdgeRegistry)
    (config : Config) : GraphCheck (Graph α) := do
  Wiring.check specs edges root terminal
  let topology := Topology.ofSpecs specs edges root terminal
  GraphCheck.ofExcept topology.checkAcyclic
  let (nodes, walked) := topology.traverse .forward true prepare (specs.map Node.bare).toArray
  let _ ← walked
  let _ ← topology.order .adjoint
  return ⟨nodes, topology, .zero, config⟩

/-- Evaluates the visited node and sends on what it put out. -/
def step (edges : EdgeRegistry) (d : Direction) : Topology.Visitor (Array (Node α)) :=
  fun n nodes => match nodes[n.index]? with
  | none => (nodes, .error (.trap .outOfRange))
  | some node =>
    match node.evaluate d with
    | .error t => (nodes, .error (.trap t))
    | .ok node => Routing.propagate edges n d (nodes.setIfInBounds n.index node)

/-- Evaluates all nodes in the order of a walk. An evaluation that succeeds is counted, with the
time that it took. -/
def evaluate (g : Graph α) (d : Direction) (elapsed : Duration) : Graph α × GraphCheck Unit :=
  match g.topology.traverse d g.config.verifyTraversals (step g.topology.edges d) g.nodes with
  | (nodes, .error stop) => ({ g with nodes }, .error stop)
  | (nodes, .ok _) => ({ g with nodes, stats := g.stats.record d elapsed }, .ok ())

end Graph

/-- The node and side whose buffer plays a role. -/
def BufferRole.place (t : Topology) : BufferRole → NodeId × Side
  | forwardInput | adjointOutput => (t.root, .input)
  | forwardOutput | adjointInput => (t.terminal, .output)

/-- The role that an evaluation reads from. -/
def Direction.inputRole : Direction → BufferRole
  | forward => .forwardInput
  | adjoint => .adjointInput

/-- The role that an evaluation leaves its result in. -/
def Direction.outputRole : Direction → BufferRole
  | forward => .forwardOutput
  | adjoint => .adjointOutput

namespace Graph

variable {α : Type}

def buffer (g : Graph α) (role : BufferRole) : Array α :=
  let (n, side) := role.place g.topology
  match g.nodes[n.index]? with
  | some node => node.data side
  | none => #[]

def setBuffer (g : Graph α) (role : BufferRole) (data : Array α) : Graph α :=
  let (n, side) := role.place g.topology
  match g.nodes[n.index]? with
  | some node => { g with nodes := g.nodes.setIfInBounds n.index (node.setData side data) }
  | none => g

/-- The length of `x` in `A x`. -/
def inputLength (g : Graph α) : Nat := (g.buffer .forwardInput).size

/-- The length of `A x`. -/
def outputLength (g : Graph α) : Nat := (g.buffer .forwardOutput).size

/-- The length of the result of an evaluation. -/
def resultLength (g : Graph α) (d : Direction) : Nat := (g.buffer d.outputRole).size

/-- Copies `data` to where the next evaluation reads. Data of another length is refused and
nothing is copied. -/
def copyInput (g : Graph α) (d : Direction) (data : Array α) : Graph α × Except GraphError Unit :=
  let expected := (g.buffer d.inputRole).size
  if data.size = expected then (g.setBuffer d.inputRole data, .ok ())
  else (g, .error (.lengthMismatch d.inputRole expected data.size))

/-- Copies the result of the last evaluation over `out`, which has to be of its length. -/
def copyOutput (g : Graph α) (d : Direction) (out : Array α) : Array α × Except GraphError Unit :=
  let result := g.buffer d.outputRole
  if out.size = result.size then (result, .ok ())
  else (out, .error (.lengthMismatch d.outputRole result.size out.size))

/-- Writes `data` over the elements of a buffer from `start` on. -/
def write (g : Graph α) (role : BufferRole) (start : Nat) (data : Array α) : Checked (Graph α) := do
  return g.setBuffer role (← Table.overwrite (g.buffer role) start data)

def specs (g : Graph α) : List (NodeSpec α) := (g.nodes.map (·.spec)).toList

end Graph

end MatrixFree
