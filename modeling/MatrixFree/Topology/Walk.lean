import MatrixFree.GraphError
import MatrixFree.Topology.Basic

/-!
# Walks

A walk visits the nodes in the order in which they become ready. A node is ready when all edges
that it waits for have arrived, and ready nodes are visited first come, first served. Each arrival
uses up one edge that is waited for, so a walk ends: its frontier gets lighter with every visit
(`Topology.weight_leave`).
-/

namespace MatrixFree

/-- Where a walk stands: how many arrivals each node still waits for, and the nodes to visit. -/
structure Frontier where
  waiting : Array Nat
  ready : List NodeId
  deriving DecidableEq, Repr

namespace Frontier

/-- An upper bound on the number of visits still to come. -/
def weight (f : Frontier) : Nat := Size.sum f.waiting.toList + f.ready.length

/-- An edge arrives at a node. The arrival that a node waits for last makes it ready; one that it
does not wait for changes nothing. -/
def arrive (f : Frontier) (n : NodeId) : Option Frontier :=
  match f.waiting[n.index]? with
  | none => none
  | some 0 => some f
  | some 1 => some ⟨f.waiting.setIfInBounds n.index 0, f.ready ++ [n]⟩
  | some (k + 2) => some ⟨f.waiting.setIfInBounds n.index (k + 1), f.ready⟩

theorem sum_set_of_getElem? {l : List Nat} {i a b : Nat} (h : l[i]? = some a) :
    Size.sum (l.set i b) + a = Size.sum l + b := by
  induction l generalizing i with
  | nil => simp at h
  | cons x l ih =>
    cases i with
    | zero =>
      simp only [List.getElem?_cons_zero, Option.some.injEq] at h
      subst h
      simp only [List.set_cons_zero, Size.sum_cons]
      omega
    | succ i =>
      simp only [List.getElem?_cons_succ] at h
      have := ih h
      simp only [List.set_cons_succ, Size.sum_cons]
      omega

theorem weight_arrive {f f' : Frontier} {n : NodeId} (h : f.arrive n = some f') :
    f'.weight ≤ f.weight := by
  unfold arrive at h
  split at h
  · simp at h
  · simp only [Option.some.injEq] at h
    exact h ▸ Nat.le_refl _
  next hw =>
    simp only [Option.some.injEq] at h
    have := sum_set_of_getElem? (b := 0) (Array.getElem?_toList ▸ hw)
    subst h
    simp only [weight, Array.toList_setIfInBounds, List.length_append, List.length_singleton]
    omega
  next k hw =>
    simp only [Option.some.injEq] at h
    have := sum_set_of_getElem? (b := k + 1) (Array.getElem?_toList ▸ hw)
    subst h
    simp only [weight, Array.toList_setIfInBounds]
    omega

end Frontier

namespace Topology

/-- The frontier after the given edges of a node have been followed to their heads. -/
def follow (t : Topology) (d : Direction) (n : NodeId) :
    List EdgeId → Frontier → Except GraphError Frontier
  | [], f => .ok f
  | e :: rest, f =>
    match t.edges.get? e with
    | none => .error (.unknownEdge n e)
    | some edge =>
      match f.arrive (d.head edge) with
      | none => .error (.nodeOutOfRange (d.head edge) t.nodeCount)
      | some f' => t.follow d n rest f'

/-- The frontier after a node has been left by all its edges. -/
def leave (t : Topology) (d : Direction) (n : NodeId) (f : Frontier) : GraphCheck Frontier := do
  GraphCheck.ofExcept (t.follow d n (← (t.downstream d n).lift) f)

theorem weight_follow {t : Topology} {d : Direction} {n : NodeId} :
    ∀ {es : List EdgeId} {f f' : Frontier}, t.follow d n es f = .ok f' → f'.weight ≤ f.weight
  | [], f, f', h => by
    simp only [follow, Except.ok.injEq] at h
    exact h ▸ Nat.le_refl _
  | e :: es, f, f', h => by
    unfold follow at h
    split at h
    · simp at h
    · split at h
      · simp at h
      next ha => exact Nat.le_trans (weight_follow h) (Frontier.weight_arrive ha)

theorem weight_leave {t : Topology} {d : Direction} {n : NodeId} {f f' : Frontier}
    (h : t.leave d n f = .ok f') : f'.weight ≤ f.weight := by
  unfold leave at h
  cases hd : (t.downstream d n).lift with
  | error s => rw [hd] at h; simp [bind, Except.bind] at h
  | ok es =>
    rw [hd] at h
    simp only [bind, Except.bind] at h
    cases hf : t.follow d n es f with
    | error e => rw [hf] at h; simp [GraphCheck.ofExcept, GraphCheck.refuse] at h
    | ok g =>
      rw [hf] at h
      simp only [GraphCheck.ofExcept, Except.ok.injEq] at h
      exact h ▸ weight_follow hf

/-- What is done at a node on a walk. It works on a state that stays as the last visit left it,
also when that visit stopped the walk. -/
abbrev Visitor (σ : Type) := NodeId → σ → σ × GraphCheck Unit

variable {σ : Type}

/-- Walks on from a frontier, with the nodes visited so far, the last one first. Gives the nodes
in the order of their visits. -/
def walk (t : Topology) (d : Direction) (visit : Visitor σ) (s : σ) (visited : List NodeId)
    (f : Frontier) : σ × GraphCheck (List NodeId) :=
  match _hr : f.ready with
  | [] => (s, .ok visited.reverse)
  | n :: ready =>
    match visit n s with
    | (s, .error e) => (s, .error e)
    | (s, .ok ()) =>
      match _hl : t.leave d n { f with ready } with
      | .error e => (s, .error e)
      | .ok f' => t.walk d visit s (n :: visited) f'
termination_by f.weight
decreasing_by
  have := weight_leave _hl
  simp only [Frontier.weight, _hr, List.length_cons] at this ⊢
  omega

/-- The nodes that are not in a list. -/
def missing (t : Topology) (visited : List NodeId) : List NodeId :=
  ((List.range t.nodeCount).filter fun i => !visited.any (·.index = i)).map NodeId.ofIndex

/-- Walks from the start until no node is ready. With `verify`, a walk that made another number of
visits than there are nodes is an error. -/
def traverse (t : Topology) (d : Direction) (verify : Bool) (visit : Visitor σ) (s : σ) :
    σ × GraphCheck (List NodeId) :=
  match t.walk d visit s [] ⟨t.dependencies d, [t.start d]⟩ with
  | (s, .error e) => (s, .error e)
  | (s, .ok visited) =>
    if verify ∧ visited.length ≠ t.nodeCount then
      (s, GraphCheck.refuse (.unvisited d (t.missing visited)))
    else (s, .ok visited)

/-- The nodes in the order of a full walk. -/
def order (t : Topology) (d : Direction) : GraphCheck (List NodeId) :=
  (t.traverse d true (fun _ s => (s, .ok ())) ()).2

end Topology

end MatrixFree
