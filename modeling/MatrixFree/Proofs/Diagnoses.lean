import MatrixFree.Proofs.Acceptance
import MatrixFree.Proofs.Construction

/-!
# What an error of a construction tells

The fault that a construction is refused for is there (`Wiring.Exhibits`), with the data that the
error gives. Each check is met with what the checks before it established: an edge claimed before is
one of an earlier node or of the same list (`Wiring.refuses_claims`), and when the edges come to be
checked all nodes have passed (`Wiring.refuses_checkEdge_exhibits`).
-/

namespace MatrixFree

namespace Wiring

variable {α : Type}

/-- The fault that an error names is there, on a graph of the given nodes and edges. -/
def Exhibits (nodes : List (NodeSpec α)) (edges : EdgeRegistry) (root terminal : NodeId) :
    GraphError → Prop
  | .nodeOutOfRange n count => count = nodes.length ∧ count ≤ n.index
      ∧ (n = root ∨ n = terminal ∨ ∃ e edge side, edges.get? e = some edge ∧ endOn side edge = n)
  | .unknownEdge n e => (∃ side, e ∈ (portsOf nodes n side).edges) ∧ edges.get? e = none
  | .duplicateEdge e => ∃ n side, 2 ≤ (portsOf nodes n side).edges.count e
  | .endpointMismatch e n (.listed side) edge => edges.get? e = some edge
      ∧ e ∈ (portsOf nodes n side).edges ∧ endOn side edge ≠ n
  | .endpointMismatch e n (.missing side) edge => edges.get? e = some edge ∧ endOn side edge = n
      ∧ n.index < nodes.length ∧ ∀ side', e ∉ (portsOf nodes n side').edges
  | .selfLoop e n => edges.get? e = some ⟨n, n⟩
  | .portCount n side ports count => n.index < nodes.length
      ∧ ports = (portsOf nodes n side).shapes.length ∧ count = (portsOf nodes n side).edges.length
      ∧ ports ≠ count + if n = outer root terminal side then 1 else 0
  | .edgeSize e source target => ∃ edge, edges.get? e = some edge
      ∧ (portsOf nodes edge.source .output).Carries e source
      ∧ (portsOf nodes edge.target .input).Carries e target ∧ source ≠ target
  | .invalidShape n (.bufferTooLong side) => (∃ s ∈ (portsOf nodes n side).shapes, s.Overflows)
      ∨ UInt64.size ≤ ((portsOf nodes n side).shapes.map Shape.size).sum
  | .invalidShape n (.refused fault operator) => ∃ spec, nodes[n.index]? = some spec
      ∧ operator = spec.op.name ∧ spec.op.check spec.signature = .error (.fault fault)
  | .rootHasInputs n => n = root ∧ (portsOf nodes n .input).edges ≠ []
  | .terminalHasOutputs n => n = terminal ∧ (portsOf nodes n .output).edges ≠ []
  | .cycle n => Relation.TransGen (Topology.ofSpecs nodes edges root terminal).InnerAdj n n
  | .lengthMismatch .. | .batchSize .. | .unvisited .. => False

variable {nodes : List (NodeSpec α)} {edges : EdgeRegistry} {root terminal n : NodeId}
  {spec : NodeSpec α}

theorem refuses_checkInRange_exhibits {n : NodeId} (hn : n = root ∨ n = terminal
    ∨ ∃ e edge side, edges.get? e = some edge ∧ endOn side edge = n) :
    Refuses (Exhibits nodes edges root terminal) (checkInRange nodes.length n) :=
  .ite (fun _ => .ok ()) fun hlt => .fault ⟨rfl, Nat.not_lt.1 hlt, hn⟩

section Node

variable (hs : nodes[n.index]? = some spec)
include hs

theorem refuses_checkPorts (side : Side) {isOpen : Bool}
    (hopen : isOpen = decide (n = outer root terminal side)) :
    Refuses (Exhibits nodes edges root terminal) (checkPorts n side (spec.ports side) isOpen) := by
  subst hopen
  refine .ite (fun _ => .ok ()) fun hne => .fault ?_
  refine ⟨(List.getElem?_eq_some_iff.1 hs).1, ?_⟩
  rw [portsOf_eq hs]
  exact ⟨rfl, rfl, by simpa using hne⟩

theorem refuses_checkLength (side : Side) :
    Refuses (Exhibits nodes edges root terminal) (checkLength n side (spec.ports side)) := by
  unfold checkLength
  split
  · exact .ok ()
  next hnone =>
    refine .fault ?_
    rw [Exhibits, portsOf_eq hs]
    refine Shape.overflows_of_not_fits fun hfits => ?_
    rw [Shape.foldlM_checkedSize_iff.2 ⟨hfits, rfl⟩] at hnone
    cases hnone

theorem refuses_checkOperator :
    Refuses (Exhibits nodes edges root terminal) (checkOperator n spec) := by
  have hcheck : Refuses (fun f => spec.op.check spec.signature = .error (.fault f))
      (spec.op.check spec.signature) := fun stop h => by
    obtain ⟨f, rfl, -⟩ := spec.op.refuses_check spec.signature stop h
    exact ⟨f, rfl, h⟩
  exact hcheck.mapFault fun f hf => ⟨spec, hs, rfl, hf⟩

/-- The edges of a side are claimed one after the other. One that was claimed before stands earlier
in the list, if all edges that other nodes claimed end at these. -/
theorem refuses_claims (side : Side) {seen : List EdgeId}
    (hseen : ∀ e ∈ seen, ∀ edge, edges.get? e = some edge → endOn side edge ≠ n) :
    Refuses (Exhibits nodes edges root terminal)
      ((spec.ports side).edges.foldlM (claim edges n side) seen) := by
  refine .foldlM_of_split fun l₁ e l₂ seen' hl hfold => ?_
  have hmem : e ∈ (portsOf nodes n side).edges := by simp [portsOf_eq hs, hl]
  unfold claim
  split
  next hget => exact .fault ⟨⟨side, hmem⟩, hget⟩
  next edge hget =>
    refine .ite (fun hne => .fault ⟨hget, hmem, hne⟩) fun hend =>
      .ite (fun hin => .fault ⟨n, side, ?_⟩) fun _ => .ok _
    obtain rfl := (foldlM_claim_iff.1 hfold).2.2
    have hearlier : e ∈ l₁ := by
      rcases List.mem_append.1 hin with hin | hin
      · exact List.mem_reverse.1 hin
      · exact absurd (not_not.1 hend) (hseen e hin edge hget)
    have hpos := List.count_pos_iff.2 hearlier
    rw [portsOf_eq hs, hl, List.count_append, List.count_cons_self]
    omega

theorem refuses_checkNode_exhibits {seen : Claims}
    (hseen : ∀ side, ∀ e ∈ seen.on side, ∀ edge, edges.get? e = some edge → endOn side edge ≠ n) :
    Refuses (Exhibits nodes edges root terminal) (checkNode edges root terminal seen n spec) :=
  .bind (refuses_checkPorts hs .input rfl) fun _ _ =>
    .bind (refuses_checkPorts hs .output rfl) fun _ _ =>
    .bind (refuses_checkLength hs .input) fun _ _ =>
    .bind (refuses_checkLength hs .output) fun _ _ =>
    .bind (refuses_checkOperator hs) fun _ _ =>
    .bind (refuses_claims hs .input (hseen .input)) fun _ _ =>
    .bind (refuses_claims hs .output (hseen .output)) fun _ _ => .ok _

end Node

/-- The nodes are checked in order, and all edges claimed so far end at nodes before. -/
theorem refuses_checkNodes (hcount : nodes.length ≤ UInt32.size) : ∀ {rest : List (NodeSpec α)}
    {k : ℕ} {seen : Claims}, nodes.drop k = rest →
    (∀ side, ∀ e ∈ seen.on side, ∀ edge, edges.get? e = some edge → (endOn side edge).index < k) →
    Refuses (Exhibits nodes edges root terminal) ((rest.zipIdx k).foldlM
      (fun seen x => checkNode edges root terminal seen (.ofIndex x.2) x.1) seen)
  | [], _, seen, _, _ => .ok seen
  | spec :: rest, k, seen, hrest, hseen => by
    have hk : nodes[k]? = some spec := by
      rw [← Nat.add_zero k, ← List.getElem?_drop, hrest]
      rfl
    have hidx := NodeId.index_ofIndex ((List.getElem?_eq_some_iff.1 hk).1.trans_le hcount)
    have hnext : nodes.drop (k + 1) = rest := by
      rw [← List.drop_drop, hrest]
      rfl
    rw [List.zipIdx_cons, List.foldlM_cons]
    refine .bind (refuses_checkNode_exhibits (by rwa [hidx]) fun side e he edge hget hend => ?_)
      fun seen' hseen' => refuses_checkNodes hcount hnext fun side e he edge hget => ?_
    · have := hseen side e he edge hget
      rw [hend, hidx] at this
      exact this.false
    · obtain ⟨hfits, -, -, hon⟩ := checkNode_eq_ok_iff.1 hseen'
      rw [← hon side, List.mem_append, List.mem_reverse] at he
      rcases he with he | he
      · obtain ⟨edge', hget', hend⟩ := hfits.listed side e he
        obtain rfl : edge = edge' := by simpa [hget] using hget'
        rw [hend, hidx]
        exact Nat.lt_succ_self k
      · exact (hseen side e he edge hget).trans (Nat.lt_succ_self k)

section Edge

variable (hcount : nodes.length ≤ UInt32.size)
  (hfits : ∀ {i spec}, nodes[i]? = some spec → NodeFits edges root terminal (.ofIndex i) spec)
  {e : EdgeId} {edge : Edge} (hget : edges.get? e = some edge)
include hfits hget

theorem end_eq_of_mem_portsOf {side : Side} (he : e ∈ (portsOf nodes n side).edges) :
    endOn side edge = n ∧ e ∈ listedOn nodes side := by
  rcases hs : nodes[n.index]? with _ | spec
  · rw [portsOf, hs] at he
    cases he
  · rw [portsOf_eq hs] at he
    obtain ⟨edge', hget', hend⟩ := (hfits hs).listed side e he
    obtain rfl : edge = edge' := by simpa [hget] using hget'
    exact ⟨hend.trans n.ofIndex_index, mem_listedOn hs he⟩

/-- An edge between two nodes that none lists on a side is not listed at all by the node at its end
there. -/
theorem notMem_portsOf (hne : edge.source ≠ edge.target) {side : Side}
    (hnot : e ∉ listedOn nodes side) (side' : Side) :
    e ∉ (portsOf nodes (endOn side edge) side').edges := fun hmem => by
  obtain ⟨hend, hin⟩ := end_eq_of_mem_portsOf hfits hget hmem
  cases side <;> cases side'
  · exact hnot hin
  · exact hne hend
  · exact hne hend.symm
  · exact hnot hin

include hcount

theorem refuses_checkEdge_exhibits {seen : Claims}
    (hseen : ∀ side, e ∈ seen.on side ↔ e ∈ listedOn nodes side) :
    Refuses (Exhibits nodes edges root terminal) (checkEdge nodes seen e edge) := by
  have hends : ∀ side, Refuses (Exhibits nodes edges root terminal)
      (checkInRange nodes.length (endOn side edge)) := fun side =>
    refuses_checkInRange_exhibits (.inr (.inr ⟨e, edge, side, hget, rfl⟩))
  refine .bind (hends .output) fun _ hsource => .bind (hends .input) fun _ htarget =>
    .guarded_of (fun heq => ?_) fun hne => .guarded_of (fun hnot => ?_) fun hout =>
    .guarded_of (fun hnot => ?_) fun hin => ?_
  · rcases edge with ⟨source, target⟩
    obtain rfl : source = target := heq
    exact hget
  · exact ⟨hget, rfl, checkInRange_eq_ok_iff.1 hsource,
      notMem_portsOf hfits hget hne (mt (hseen .output).2 hnot)⟩
  · exact ⟨hget, rfl, checkInRange_eq_ok_iff.1 htarget,
      notMem_portsOf hfits hget hne (mt (hseen .input).2 hnot)⟩
  · -- both ends list the edge, so both have a port for it
    have hlisted : ∀ side, ∃ spec, nodes[(endOn side edge).index]? = some spec
        ∧ e ∈ (spec.ports side).edges := fun side => by
      refine exists_listing hcount hfits ((hseen side).1 ?_) hget
      cases side
      · exact not_not.1 hin
      · exact not_not.1 hout
    obtain ⟨source, hs, hes⟩ : ∃ spec, nodes[edge.source.index]? = some spec
      ∧ e ∈ (spec.ports .output).edges := hlisted .output
    obtain ⟨target, ht, het⟩ : ∃ spec, nodes[edge.target.index]? = some spec
      ∧ e ∈ (spec.ports .input).edges := hlisted .input
    obtain ⟨m, hm, hcarries⟩ := ((hfits hs).tiled .output).exists_carries hes
    obtain ⟨m', hm', hcarries'⟩ := ((hfits ht).tiled .input).exists_carries het
    have hnot : e ∉ target.output.edges := fun hmem => by
      have hout : e ∈ (portsOf nodes edge.target .output).edges := by
        rwa [portsOf_eq ht]
      exact hne (end_eq_of_mem_portsOf hfits hget hout).1
    dsimp only
    rw [sizeAt_of_output hs hm, sizeAt_of_input ht hnot hm']
    refine .ite (fun hsize => .fault ⟨edge, hget, ?_, ?_, hsize⟩) fun _ => .ok ()
    · rwa [portsOf_eq hs]
    · rwa [portsOf_eq ht]

end Edge

/-- With no more nodes than there are names, a wiring is refused for a fault that is there. -/
theorem refuses_check_exhibits (hcount : nodes.length ≤ UInt32.size) :
    Refuses (Exhibits nodes edges root terminal) (check nodes edges root terminal) := by
  refine refuses_check_of
    (fun n hn => refuses_checkInRange_exhibits (hn.imp_right .inl))
    (fun spec hs hne => ⟨rfl, (portsOf_eq hs .input).symm ▸ hne⟩)
    (fun spec hs hne => ⟨rfl, (portsOf_eq hs .output).symm ▸ hne⟩)
    (.bind (refuses_checkNodes hcount rfl fun side e he => ?_) fun seen hseen =>
      .forM_of_mem fun x hx => ?_)
  · cases side <;> cases he
  · obtain ⟨hnodes, -, hon⟩ := foldlM_checkNode_iff.1 hseen
    refine refuses_checkEdge_exhibits hcount (fun {i spec} hi => ?_)
      (EdgeRegistry.get?_eq_some_iff.2 hx) fun side => ?_
    · rw [← Nat.zero_add i]
      exact (hnodes i spec hi).1
    · rw [← hon side]
      cases side <;> simp [Claims.on]

end Wiring

namespace Graph

open Wiring

variable {α : Type} [Scalar α] {specs : List (NodeSpec α)} {edges : EdgeRegistry}
  {root terminal : NodeId} {config : Config}

theorem refuses_build_exhibits (hcount : specs.length ≤ UInt32.size) :
    Refuses (Exhibits specs edges root terminal) (build specs root terminal edges config) := by
  refine refuses_build_of hcount (refuses_check_exhibits hcount) ?_
  rcases hac : (Topology.ofSpecs specs edges root terminal).checkAcyclic with e | u
  · obtain ⟨v, rfl, hv⟩ := Topology.exists_cycle_of_checkAcyclic hac
    exact .fault hv
  · exact .ok u

/-- With no more nodes than there are names, a graph that is not built has the fault that its error
names, and the error is one of the configuration. -/
theorem build_error_exhibited (hcount : specs.length ≤ UInt32.size) {stop : Stop GraphError}
    (h : build specs root terminal edges config = .error stop) :
    ∃ e, stop = .fault e ∧ e.isConfiguration = true ∧ Exhibits specs edges root terminal e := by
  obtain ⟨e, rfl, hexhibits⟩ := refuses_build_exhibits hcount stop h
  obtain ⟨_, ⟨⟩, hconfiguration⟩ := refuses_build hcount _ h
  exact ⟨e, rfl, hconfiguration, hexhibits⟩

/-- Two parts of a vector are put together in the order of the edges, which go to ports of other
lengths. -/
def crossed : GraphBuilder ℚ :=
  let (b, split) := (GraphBuilder.empty {}).addNode .split [.vector 3] [.vector 1, .vector 2]
  let (b, concat) := b.addNode .concat [.vector 2, .vector 1] [.vector 3]
  (b.connectAs ⟨0⟩ split concat).connectAs ⟨1⟩ split concat

theorem build_error_exhibited_crossed :
    build crossed.nodes ⟨0⟩ ⟨1⟩ crossed.edges {} = .error (.fault (.edgeSize ⟨0⟩ 1 2))
      ∧ Exhibits crossed.nodes crossed.edges ⟨0⟩ ⟨1⟩ (.edgeSize ⟨0⟩ 1 2) := by
  have hbuild : build crossed.nodes ⟨0⟩ ⟨1⟩ crossed.edges {}
      = .error (.fault (.edgeSize ⟨0⟩ 1 2)) := rfl
  obtain ⟨_, ⟨⟩, -, hexhibits⟩ := build_error_exhibited (by decide) hbuild
  exact ⟨hbuild, hexhibits⟩

/-- The shapes of a node are refused although no side of it has a port that overflows or ports that
add up to too much: the negation of one element has one element. -/
theorem build_negation_refused :
    let specs : List (NodeSpec ℚ) := [⟨.negate, ⟨[], [.vector 1]⟩, ⟨[], [.vector 2]⟩⟩]
    build specs ⟨0⟩ ⟨0⟩ .empty {}
        = .error (.fault (.invalidShape ⟨0⟩ (.refused (.lengths .inputOutput 1 2) "neg")))
      ∧ ∀ side, (∀ s ∈ (portsOf specs ⟨0⟩ side).shapes, ¬ s.Overflows)
          ∧ ((portsOf specs ⟨0⟩ side).shapes.map Shape.size).sum < UInt64.size := by
  refine ⟨rfl, fun side => ?_⟩
  cases side
  · refine ⟨?_, by decide⟩
    rintro s (_ | ⟨_, ⟨⟩⟩)
    rw [← Shape.checkedSize_eq_none_iff]
    decide
  · refine ⟨?_, by decide⟩
    rintro s (_ | ⟨_, ⟨⟩⟩)
    rw [← Shape.checkedSize_eq_none_iff]
    decide

end Graph

end MatrixFree
