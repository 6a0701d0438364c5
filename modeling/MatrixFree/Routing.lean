import MatrixFree.GraphError
import MatrixFree.Node.Basic
import MatrixFree.Registry

/-!
# Routing

After a node is evaluated, the slice of each edge that leaves it is copied into the buffer of the
neighbour at the edge's head. A forward step goes from outputs to inputs, an adjoint step from
inputs to outputs.
-/

namespace MatrixFree.Routing

variable {α : Type}

open GraphCheck

/-- Where the slice of an edge starts on a side of a node. -/
def offset (n : NodeId) (node : Node α) (side : Side) (e : EdgeId) : GraphCheck Nat :=
  match (node.buffer side).offsets.get? e with
  | none => refuse (.unknownEdge n e)
  | some start => .ok start

/-- A slice on its way to a node. -/
structure Delivery (α : Type) where
  target : NodeId
  /-- Where the slice starts in the buffer that it arrives in. -/
  start : Nat
  part : Array α
  deriving DecidableEq, Repr

/-- What is sent over an edge that is listed in place `slot` on the departing side of `n`. -/
def delivery (edges : EdgeRegistry) (n : NodeId) (d : Direction) (nodes : Array (Node α))
    (slot : Nat) (e : EdgeId) : GraphCheck (Delivery α) := do
  match edges.get? e with
  | none => refuse (.unknownEdge n e)
  | some edge => do
    let target := d.head edge
    if target = n then refuse (.selfLoop e n)
    else do
      let origin ← (Table.read nodes n.index).lift
      let dest ← (Table.read nodes target.index).lift
      let shape ← (Table.pick (origin.spec.ports d.departure).shapes slot).lift
      let srcAt ← offset n origin d.departure e
      let start ← offset target dest d.arrival e
      let part ← (Table.slice (origin.data d.departure) srcAt shape.size).lift
      (Table.range (dest.data d.arrival) start part.size).lift
      return ⟨target, start, part⟩

/-- The nodes after a slice has arrived. -/
def Delivery.arrive (p : Delivery α) (d : Direction) (nodes : Array (Node α)) :
    Array (Node α) :=
  nodes.modify p.target.index (·.mapData d.arrival (Table.place · p.start p.part))

/-- Sends the given edges, listed from place `slot` on, until one cannot be sent. -/
def sendAll (edges : EdgeRegistry) (n : NodeId) (d : Direction) :
    (slot : Nat) → List EdgeId → Array (Node α) → Array (Node α) × GraphCheck Unit
  | _, [], nodes => (nodes, .ok ())
  | slot, e :: rest, nodes =>
    match delivery edges n d nodes slot e with
    | .error stop => (nodes, .error stop)
    | .ok p => sendAll edges n d (slot + 1) rest (p.arrive d nodes)

/-- Sends all edges that leave a node. What was sent before one that fails stays sent. -/
def propagate (edges : EdgeRegistry) (n : NodeId) (d : Direction) (nodes : Array (Node α)) :
    Array (Node α) × GraphCheck Unit :=
  match nodes[n.index]? with
  | none => (nodes, .error (.trap .outOfRange))
  | some node => sendAll edges n d 0 (node.spec.ports d.departure).edges nodes

end MatrixFree.Routing
