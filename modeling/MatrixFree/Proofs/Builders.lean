import MatrixFree.Proofs.Diagnoses
import MatrixFree.Proofs.Snapshots

/-!
# Wirings that a builder makes

A builder numbers the edges in the order of its calls, as long as there are names
(`GraphBuilder.Numbers.exists_run`), and each edge takes the next port of the two nodes that it
connects, if they are there (`GraphBuilder.Numbers.getElem?_nodes_run`). So its lists and its registry
agree on every edge whose nodes were there when it was made, and never agree again on one whose nodes
were not (`GraphBuilder.run_wires`).
-/

namespace MatrixFree

open Wiring

/-- The edge of a number; edges are numbered in 32-bit words. -/
def EdgeId.ofIndex (i : ℕ) : EdgeId := ⟨.ofNat i⟩

theorem EdgeId.index_ofIndex {i : ℕ} (h : i < UInt32.size) : (ofIndex i).index = i :=
  UInt32.toNat_ofNat_of_lt' h

theorem EdgeId.ofIndex_index (e : EdgeId) : ofIndex e.index = e :=
  congrArg mk UInt32.ofNat_toNat

theorem EdgeId.next_ofIndex {i : ℕ} (h : i + 1 < UInt32.size) :
    (ofIndex i).next = .ok (ofIndex (i + 1)) := by
  rw [next_eq_ok_iff, index_ofIndex h, index_ofIndex (Nat.lt_of_succ_lt h)]

/-- Edges with their names, which are counted from `k` on. -/
def numbered (k : ℕ) (l : List Edge) : List (EdgeId × Edge) :=
  (l.zipIdx k).map fun x => (.ofIndex x.2, x.1)

/-- The edges that a node is at the end of on a side, in their order. -/
def namesOn (n : NodeId) (side : Side) (l : List (EdgeId × Edge)) : List EdgeId :=
  (l.filter fun x => endOn side x.2 = n).map Prod.fst

section Numbered

variable {k : ℕ} {l l' : List Edge} {n : NodeId} {side : Side} {e : EdgeId} {edge : Edge}

@[simp] theorem numbered_nil : numbered k [] = [] := rfl

theorem numbered_cons : numbered k (edge :: l) = (.ofIndex k, edge) :: numbered (k + 1) l := rfl

theorem numbered_append : numbered k (l ++ l') = numbered k l ++ numbered (k + l.length) l' := by
  rw [numbered, List.zipIdx_append, List.map_append]
  rfl

/-- A name tells the place of its edge, as far as the names reach. -/
theorem index_of_mem_numbered (hk : k + l.length ≤ UInt32.size) (h : (e, edge) ∈ numbered k l) :
    k ≤ e.index ∧ e.index < k + l.length ∧ l[e.index - k]? = some edge := by
  obtain ⟨⟨edge', i⟩, hmem, hpair⟩ := List.mem_map.1 h
  obtain ⟨rfl, rfl⟩ := Prod.mk.inj hpair
  obtain ⟨hki, hget⟩ := List.mk_mem_zipIdx_iff_le_and_getElem?_sub.1 hmem
  have hlt := (List.getElem?_eq_some_iff.1 hget).1
  rw [EdgeId.index_ofIndex (by omega)]
  exact ⟨hki, by omega, hget⟩

@[simp] theorem namesOn_nil : namesOn n side [] = [] := rfl

theorem namesOn_cons {l : List (EdgeId × Edge)} :
    namesOn n side ((e, edge) :: l)
      = (if endOn side edge = n then [e] else []) ++ namesOn n side l := by
  by_cases h : endOn side edge = n <;> simp [namesOn, h]

theorem namesOn_append {l l' : List (EdgeId × Edge)} :
    namesOn n side (l ++ l') = namesOn n side l ++ namesOn n side l' := by
  simp [namesOn]

theorem mem_namesOn {l : List (EdgeId × Edge)} :
    e ∈ namesOn n side l ↔ ∃ edge, (e, edge) ∈ l ∧ endOn side edge = n := by
  simp [namesOn]

theorem EdgeRegistry.pairwise_namesOn (r : EdgeRegistry) :
    (namesOn n side r.entries).Pairwise fun e e' => e.val < e'.val :=
  List.pairwise_map.2 (r.ascending.filter _)

theorem EdgeRegistry.nextId_of_numbered {r : EdgeRegistry} (h : r.entries = numbered 0 l)
    (hlen : l.length < UInt32.size) : r.nextId = .ok (.ofIndex l.length) := by
  rcases List.eq_nil_or_concat l with rfl | ⟨l, edge, rfl⟩
  · rw [nextId, h]
    rfl
  · rw [List.concat_eq_append] at h hlen ⊢
    rw [nextId, h, numbered_append, Nat.zero_add, numbered_cons, numbered_nil,
      List.getLast?_concat, List.length_append]
    exact EdgeId.next_ofIndex (by rwa [List.length_append] at hlen)

end Numbered

/-- The node with more edges on its lists. -/
def NodeSpec.listing {α : Type} (spec : NodeSpec α) (es : Side → List EdgeId) : NodeSpec α :=
  { spec with
    input := { spec.input with edges := spec.input.edges ++ es .input }
    output := { spec.output with edges := spec.output.edges ++ es .output } }

section Listing

variable {α : Type} {spec : NodeSpec α} {es es' : Side → List EdgeId}

@[simp] theorem NodeSpec.ports_listing (side : Side) :
    (spec.listing es).ports side
      = ⟨(spec.ports side).edges ++ es side, (spec.ports side).shapes⟩ := by
  cases side <;> rfl

theorem NodeSpec.listing_nil : (spec.listing fun _ => []) = spec := by
  simp [listing]

theorem NodeSpec.listing_listing :
    (spec.listing es).listing es' = spec.listing fun side => es side ++ es' side := by
  simp [listing]

end Listing

/-- The lists of the nodes and the registry do not agree on an edge, or a node is named that is not
there. -/
def GraphError.disagrees : GraphError → Bool
  | nodeOutOfRange .. | unknownEdge .. | endpointMismatch .. | duplicateEdge .. => true
  | _ => false

namespace GraphBuilder

variable {α : Type}

/-- A call on a builder. -/
inductive Call (α : Type) where
  | addNode (op : Operator α) (inputs outputs : List Shape)
  | connect (source target : NodeId)

namespace Call

def isAddition : Call α → Bool
  | addNode .. => true
  | connect .. => false

def edge? : Call α → Option Edge
  | addNode .. => none
  | connect source target => some ⟨source, target⟩

end Call

/-- How many nodes are added. -/
def additions (calls : List (Call α)) : ℕ := calls.countP Call.isAddition

/-- What is connected, in the order of the calls. -/
def connections (calls : List (Call α)) : List Edge := calls.filterMap Call.edge?

def perform (b : GraphBuilder α) : Call α → Checked (GraphBuilder α)
  | .addNode op inputs outputs => .ok (b.addNode op inputs outputs).1
  | .connect source target => do return (← b.connect source target).1

def run (b : GraphBuilder α) (calls : List (Call α)) : Checked (GraphBuilder α) :=
  calls.foldlM perform b

/-- What a call leaves, if the name of an edge that it makes is `e`. -/
def after (b : GraphBuilder α) (e : EdgeId) : Call α → GraphBuilder α
  | .addNode op inputs outputs => (b.addNode op inputs outputs).1
  | .connect source target => b.connectAs e source target

variable {b b₀ b' : GraphBuilder α} {n source target : NodeId} {side : Side} {l : List Edge}

theorem getElem?_attach (nodes : List (NodeSpec α)) (m : NodeId) (side : Side) (e : EdgeId) :
    (attach nodes m side e)[n.index]?
      = nodes[n.index]?.map (·.listing fun side' => if side' = side ∧ m = n then [e] else []) := by
  rw [attach, List.getElem?_modify]
  by_cases hm : m = n
  · subst hm
    cases side <;> simp [NodeSpec.listing]
  · have hindex : m.index ≠ n.index := fun h => hm (NodeId.index_inj.1 h)
    simp [hm, hindex, NodeSpec.listing]

theorem getElem?_nodes_connectAs (e : EdgeId) : (b.connectAs e source target).nodes[n.index]?
    = b.nodes[n.index]?.map
      (·.listing fun side => namesOn n side [(e, ⟨source, target⟩)]) := by
  rw [connectAs, getElem?_attach, getElem?_attach, Option.map_map]
  refine congrArg (Option.map · _) (funext fun spec => ?_)
  rw [Function.comp_apply, NodeSpec.listing_listing]
  refine congrArg spec.listing (funext fun side => ?_)
  by_cases h : endOn side ⟨source, target⟩ = n <;> cases side <;>
    simp_all [endOn, namesOn_cons]

section Calls

variable (c : Call α) (calls : List (Call α))

theorem additions_cons : additions (c :: calls) = additions [c] + additions calls :=
  (List.countP_append : ([c] ++ calls).countP Call.isAddition = _)

theorem connections_cons : connections (c :: calls) = connections [c] ++ connections calls :=
  List.filterMap_append (l := [c])

theorem connections_addNode (op : Operator α) (inputs outputs : List Shape) :
    connections (.addNode op inputs outputs :: calls) = connections calls := rfl

theorem connections_connect (source target : NodeId) :
    connections (.connect source target :: calls) = ⟨source, target⟩ :: connections calls := rfl

theorem namesOn_connections_cons (l : List Edge) :
    namesOn n side (numbered l.length (connections (c :: calls)))
      = namesOn n side (numbered l.length (connections [c]))
        ++ namesOn n side (numbered (l ++ connections [c]).length (connections calls)) := by
  rw [connections_cons c calls, numbered_append, namesOn_append, List.length_append]

end Calls

/-- The edges that were made are `l`, and there are names for all that the calls make. -/
structure Numbers (b : GraphBuilder α) (l : List Edge) (calls : List (Call α)) : Prop where
  entries_eq : b.edges.entries = numbered 0 l
  length_le : l.length + (connections calls).length ≤ UInt32.size

section Perform

variable {c : Call α} {calls : List (Call α)}

theorem length_nodes_after (e : EdgeId) (c : Call α) :
    (b.after e c).nodes.length = b.nodes.length + additions [c] := by
  cases c with
  | addNode => exact List.length_append
  | connect => simp [after, connectAs, attach, additions, Call.isAddition]

theorem Numbers.connect_eq (h : b.Numbers l (.connect source target :: calls)) :
    b.connect source target
      = .ok (b.connectAs (.ofIndex l.length) source target, .ofIndex l.length) := by
  have hlen := h.length_le
  rw [connections_connect, List.length_cons] at hlen
  rw [connect, EdgeRegistry.nextId_of_numbered h.entries_eq (by omega)]
  rfl

/-- A call succeeds while there are names. -/
theorem Numbers.perform_eq (h : b.Numbers l (c :: calls)) :
    b.perform c = .ok (b.after (.ofIndex l.length) c) := by
  cases c with
  | addNode => rfl
  | connect =>
    rw [perform, h.connect_eq]
    rfl

theorem Numbers.after (h : b.Numbers l (c :: calls)) :
    (b.after (.ofIndex l.length) c).Numbers (l ++ connections [c]) calls := by
  rcases h with ⟨hl, hlen⟩
  rw [connections_cons, List.length_append] at hlen
  refine ⟨?_, by rw [List.length_append]; omega⟩
  cases c with
  | addNode op inputs outputs =>
    rw [connections_addNode]
    exact hl.trans (congrArg _ (List.append_nil l).symm)
  | connect source target =>
    rw [connections_connect, List.length_cons] at hlen
    have hlt : l.length < UInt32.size := by omega
    rw [GraphBuilder.after, connectAs, numbered_append, ← hl, Nat.zero_add]
    refine EdgeRegistry.place_of_lt fun x hx => ?_
    have hx := (index_of_mem_numbered (by omega) (hl ▸ hx)).2.1
    rw [UInt32.lt_iff_toNat_lt]
    exact (hx.trans_eq (Nat.zero_add _)).trans_eq (EdgeId.index_ofIndex hlt).symm

/-- A node that is there lists an edge that is made if it is at its end. -/
theorem getElem?_nodes_after {spec : NodeSpec α} (k : ℕ) (hs : b.nodes[n.index]? = some spec) :
    (b.after (.ofIndex k) c).nodes[n.index]? = some (spec.listing fun side =>
      namesOn n side (numbered k (connections [c]))) := by
  cases c with
  | addNode =>
    have hn := (List.getElem?_eq_some_iff.1 hs).1
    rw [after, addNode, List.getElem?_append_left hn, hs]
    exact congrArg some NodeSpec.listing_nil.symm
  | connect source target =>
    rw [after, getElem?_nodes_connectAs, hs]
    rfl

/-- A node that is not there does not come to list an edge. -/
theorem portsOf_after_sublist (k : ℕ) :
    (portsOf (b.after (.ofIndex k) c).nodes n side).edges.Sublist
      ((portsOf b.nodes n side).edges ++ namesOn n side (numbered k (connections [c]))) := by
  rcases hs : b.nodes[n.index]? with _ | spec
  · cases c with
    | addNode =>
      rw [after, addNode, portsOf, List.getElem?_append_right (List.getElem?_eq_none_iff.1 hs)]
      rcases n.index - b.nodes.length with _ | i
      · cases side <;> exact List.nil_sublist _
      · exact List.nil_sublist _
    | connect =>
      rw [after, portsOf, getElem?_nodes_connectAs, hs]
      exact List.nil_sublist _
  · rw [portsOf_eq (getElem?_nodes_after k hs), portsOf_eq hs, NodeSpec.ports_listing]

theorem Numbers.run_cons (h : b.Numbers l (c :: calls)) (rest : List (Call α)) :
    b.run (c :: rest) = (b.after (.ofIndex l.length) c).run rest := by
  rw [run, List.foldlM_cons, h.perform_eq, ok_bind]
  rfl

/-- A call that succeeds took some name for the edge that it made. -/
theorem exists_after (h : b.perform c = .ok b') : ∃ e, b' = b.after e c := by
  cases c with
  | addNode => exact ⟨.last, (Except.ok.inj h).symm⟩
  | connect =>
    obtain ⟨_, hconnect, hb'⟩ := bind_eq_ok_iff.1 h
    obtain ⟨e, -, he⟩ := bind_eq_ok_iff.1 hconnect
    cases he
    cases hb'
    exact ⟨e, rfl⟩

end Perform

theorem length_nodes_run : ∀ (calls : List (Call α)) {b : GraphBuilder α}, b.run calls = .ok b' →
    b'.nodes.length = b.nodes.length + additions calls
  | [], b, h => congrArg (·.nodes.length) (Except.ok.inj h).symm
  | c :: calls, b, h => by
    rw [run, List.foldlM_cons] at h
    obtain ⟨b₁, hc, h⟩ := bind_eq_ok_iff.1 h
    obtain ⟨e, rfl⟩ := exists_after hc
    rw [additions_cons, ← add_assoc, ← length_nodes_after e c]
    exact length_nodes_run calls h

theorem run_append {pre : List (Call α)} (h : b.run pre = .ok b₀) (rest : List (Call α)) :
    b.run (pre ++ rest) = b₀.run rest := by
  have happend : b.run (pre ++ rest) = b.run pre >>= (·.run rest) := List.foldlM_append
  rw [happend, h, ok_bind]

namespace Numbers

/-- Calls succeed while there are names. -/
theorem exists_run {rest : List (Call α)} : ∀ {calls : List (Call α)} {b : GraphBuilder α}
    {l : List Edge}, b.Numbers l (calls ++ rest) →
      ∃ b', b.run calls = .ok b' ∧ b'.Numbers (l ++ connections calls) rest
  | [], b, l, h => ⟨b, rfl, (List.append_nil l).symm ▸ h⟩
  | c :: calls, b, l, h => by
    obtain ⟨b', hb', hnumbers⟩ := exists_run h.after
    rw [List.append_assoc, ← connections_cons] at hnumbers
    exact ⟨b', (h.run_cons calls).trans hb', hnumbers⟩

/-- A node that is there lists the edges at whose end it is that are made from then on. -/
theorem getElem?_nodes_run : ∀ {calls : List (Call α)} {b : GraphBuilder α} {l : List Edge}
    {spec : NodeSpec α}, b.Numbers l calls → b.run calls = .ok b' →
      b.nodes[n.index]? = some spec →
      b'.nodes[n.index]? = some (spec.listing fun side =>
        namesOn n side (numbered l.length (connections calls)))
  | [], b, _, spec, _, hb', hs => by
    obtain rfl := Except.ok.inj hb'
    exact hs.trans (congrArg some NodeSpec.listing_nil.symm)
  | c :: calls, b, l, spec, h, hb', hs => by
    have hrun := h.after.getElem?_nodes_run ((h.run_cons calls).symm.trans hb')
      (getElem?_nodes_after l.length hs)
    rw [NodeSpec.listing_listing] at hrun
    simp only [namesOn_connections_cons c calls]
    exact hrun

/-- Any node lists nothing else than what it listed, and edges that are made from then on. -/
theorem portsOf_run_sublist : ∀ {calls : List (Call α)} {b : GraphBuilder α} {l : List Edge},
    b.Numbers l calls → b.run calls = .ok b' → (portsOf b'.nodes n side).edges.Sublist
      ((portsOf b.nodes n side).edges ++ namesOn n side (numbered l.length (connections calls)))
  | [], b, _, _, hb' => by
    obtain rfl := Except.ok.inj hb'
    exact List.sublist_append_left _ _
  | c :: calls, b, l, h, hb' => by
    rw [namesOn_connections_cons, ← List.append_assoc]
    exact (h.after.portsOf_run_sublist ((h.run_cons calls).symm.trans hb')).trans
      ((portsOf_after_sublist l.length).append (.refl _))

end Numbers

/-- Every edge connects nodes that are there when it is made. -/
def Grounded (calls : List (Call α)) : Prop :=
  ∀ pre source target post, calls = pre ++ .connect source target :: post →
    ∀ side, (endOn side ⟨source, target⟩).index < additions pre

section Split

variable {config : Config} {calls pre post rest : List (Call α)}

theorem nodeCount_of_run (hb : (empty config).run calls = .ok b) :
    b.nodes.length = additions calls :=
  (length_nodes_run calls hb).trans (Nat.zero_add _)

theorem numbers_empty (hedges : (connections calls).length ≤ UInt32.size) :
    (empty config).Numbers [] calls :=
  ⟨rfl, by simpa using hedges⟩

theorem exists_run_empty (config : Config)
    (hedges : (connections (pre ++ rest)).length ≤ UInt32.size) :
    ∃ b₀, (empty config).run pre = .ok b₀ ∧ b₀.Numbers (connections pre) rest :=
  (numbers_empty hedges).exists_run

theorem numbers_of_run (hedges : (connections (pre ++ rest)).length ≤ UInt32.size)
    (hpre : (empty config).run pre = .ok b₀) : b₀.Numbers (connections pre) rest := by
  obtain ⟨b₁, hb₁, hnumbers⟩ := exists_run_empty config hedges
  obtain rfl := Except.ok.inj (hpre.symm.trans hb₁)
  exact hnumbers

theorem entries_of_run (hedges : (connections calls).length ≤ UInt32.size)
    (hb : (empty config).run calls = .ok b) :
    b.edges.entries = numbered 0 (connections calls) := by
  have hnumbers : b.Numbers (connections calls) [] :=
    numbers_of_run (by rwa [List.append_nil]) hb
  exact hnumbers.entries_eq

/-- A registered edge was made by a call. -/
theorem exists_connect_of_getElem? : ∀ (calls : List (Call α)) {i : ℕ} {edge : Edge},
    (connections calls)[i]? = some edge → ∃ pre post,
      calls = pre ++ .connect edge.source edge.target :: post ∧ (connections pre).length = i
  | .addNode op inputs outputs :: calls, i, edge, h => by
    obtain ⟨pre, post, rfl, hlen⟩ := exists_connect_of_getElem? calls h
    exact ⟨.addNode op inputs outputs :: pre, post, rfl, hlen⟩
  | .connect source target :: calls, 0, edge, h => by
    obtain rfl : ⟨source, target⟩ = edge := Option.some.inj h
    exact ⟨[], calls, rfl, rfl⟩
  | .connect source target :: calls, i + 1, edge, h => by
    obtain ⟨pre, post, rfl, hlen⟩ := exists_connect_of_getElem? calls h
    exact ⟨.connect source target :: pre, post, rfl, congrArg (· + 1) hlen⟩

theorem additions_lt {op : Operator α} {inputs outputs : List Shape}
    (hnodes : additions (pre ++ .addNode op inputs outputs :: post) ≤ UInt32.size) :
    additions pre < UInt32.size := by
  rw [additions, List.countP_append, List.countP_cons_of_pos rfl] at hnodes
  exact (Nat.lt_add_of_pos_right (Nat.succ_pos _)).trans_le hnodes

/-- A node lists the edges at whose end it is that are made after it was added. -/
theorem getElem?_nodes_of_addNode {op : Operator α} {inputs outputs : List Shape}
    (hnodes : additions (pre ++ .addNode op inputs outputs :: post) ≤ UInt32.size)
    (hedges : (connections (pre ++ .addNode op inputs outputs :: post)).length ≤ UInt32.size)
    (hb : (empty config).run (pre ++ .addNode op inputs outputs :: post) = .ok b) :
    let n := NodeId.ofIndex (additions pre)
    let made := numbered (connections pre).length (connections post)
    b.nodes[n.index]?
      = some ⟨op, ⟨namesOn n .input made, inputs⟩, ⟨namesOn n .output made, outputs⟩⟩ := by
  intro n made
  obtain ⟨b₀, hpre, hnumbers⟩ := exists_run_empty config hedges
  have hs : (b₀.addNode op inputs outputs).1.nodes[n.index]?
      = some ⟨op, ⟨[], inputs⟩, ⟨[], outputs⟩⟩ := by
    rw [NodeId.index_ofIndex (additions_lt hnodes), ← nodeCount_of_run hpre]
    exact List.getElem?_concat_length
  rw [run_append hpre, hnumbers.run_cons] at hb
  have hrun := hnumbers.after.getElem?_nodes_run hb hs
  rw [show connections pre ++ connections [.addNode op inputs outputs] = connections pre from
    List.append_nil _] at hrun
  exact hrun

section Connect

variable (hedges : (connections (pre ++ .connect source target :: post)).length ≤ UInt32.size)
include hedges

theorem connections_lt : (connections pre).length < UInt32.size := by
  rw [connections, List.filterMap_append, List.length_append] at hedges
  exact (Nat.lt_add_of_pos_right (Nat.succ_pos _)).trans_le hedges

variable (hb : (empty config).run (pre ++ .connect source target :: post) = .ok b)
include hb

/-- An edge takes the next port of a node that is there. -/
theorem edges_portsOf_of_connect (hpre : (empty config).run pre = .ok b₀)
    (hn : (endOn side ⟨source, target⟩).index < additions pre) :
    ∃ es, (portsOf b.nodes (endOn side ⟨source, target⟩) side).edges
      = (portsOf b₀.nodes (endOn side ⟨source, target⟩) side).edges
        ++ .ofIndex (connections pre).length :: es := by
  have hnumbers := numbers_of_run hedges hpre
  rw [← nodeCount_of_run hpre] at hn
  have hs := List.getElem?_eq_getElem hn
  rw [run_append hpre] at hb
  rw [portsOf_eq (hnumbers.getElem?_nodes_run hb hs), portsOf_eq hs, NodeSpec.ports_listing]
  rw [connections_connect, numbered_cons, namesOn_cons, if_pos rfl]
  exact ⟨_, rfl⟩

/-- A node that is not there does not come to list the edge. -/
theorem notMem_portsOf_of_connect (hn : ¬ (endOn side ⟨source, target⟩).index < additions pre) :
    EdgeId.ofIndex (connections pre).length
      ∉ (portsOf b.nodes (endOn side ⟨source, target⟩) side).edges := by
  intro hmem
  obtain ⟨b₀, hpre, hnumbers⟩ := exists_run_empty config hedges
  have hnone : (b₀.after (.ofIndex (connections pre).length)
      (.connect source target)).nodes.length ≤ (endOn side ⟨source, target⟩).index := by
    rw [length_nodes_after, nodeCount_of_run hpre]
    exact Nat.not_lt.1 hn
  rw [run_append hpre, hnumbers.run_cons] at hb
  have hmem := (hnumbers.after.portsOf_run_sublist hb).subset hmem
  rw [portsOf, List.getElem?_eq_none hnone, List.nil_append] at hmem
  obtain ⟨edge, hmem, -⟩ := mem_namesOn.1 hmem
  have hle := (index_of_mem_numbered hnumbers.after.length_le hmem).1
  rw [EdgeId.index_ofIndex (connections_lt hedges), List.length_append] at hle
  exact absurd hle (Nat.not_le.2 (Nat.lt_succ_self _))

end Connect

section Lists

variable (hedges : (connections calls).length ≤ UInt32.size)
  (hb : (empty config).run calls = .ok b) {e : EdgeId} {edge : Edge}
include hedges hb

theorem portsOf_sublist_namesOn :
    (portsOf b.nodes n side).edges.Sublist (namesOn n side b.edges.entries) := by
  rw [entries_of_run hedges hb]
  exact (numbers_empty hedges).portsOf_run_sublist hb

theorem pairwise_portsOf : (portsOf b.nodes n side).edges.Pairwise fun e e' => e.val < e'.val :=
  (EdgeRegistry.pairwise_namesOn _).sublist (portsOf_sublist_namesOn hedges hb)

theorem get?_of_mem_portsOf (he : e ∈ (portsOf b.nodes n side).edges) :
    ∃ edge, b.edges.get? e = some edge ∧ endOn side edge = n := by
  obtain ⟨edge, hmem, hend⟩ := mem_namesOn.1 ((portsOf_sublist_namesOn hedges hb).subset he)
  exact ⟨edge, EdgeRegistry.get?_eq_some_iff.2 hmem, hend⟩

theorem exists_connect (hget : b.edges.get? e = some edge) : ∃ pre post,
    calls = pre ++ .connect edge.source edge.target :: post
      ∧ e = .ofIndex (connections pre).length := by
  have hmem := EdgeRegistry.get?_eq_some_iff.1 hget
  rw [entries_of_run hedges hb] at hmem
  obtain ⟨-, -, hi⟩ := index_of_mem_numbered (by omega) hmem
  obtain ⟨pre, post, rfl, hlen⟩ := exists_connect_of_getElem? calls hi
  exact ⟨pre, post, rfl, by rw [hlen, Nat.sub_zero, EdgeId.ofIndex_index]⟩

/-- If every edge connects nodes that were there, both its nodes list it. -/
theorem Grounded.claimed (hg : Grounded calls) (hget : b.edges.get? e = some edge) (side : Side) :
    (endOn side edge).index < additions calls
      ∧ e ∈ (portsOf b.nodes (endOn side edge) side).edges := by
  obtain ⟨pre, post, rfl, rfl⟩ := exists_connect hedges hb hget
  have hn := hg pre _ _ post rfl side
  obtain ⟨b₀, hpre, -⟩ := exists_run_empty config hedges
  obtain ⟨es, hes⟩ := edges_portsOf_of_connect hedges hb hpre hn
  refine ⟨hn.trans_le ?_, ?_⟩
  · rw [additions, additions, List.countP_append]
    exact Nat.le_add_right _ _
  · rw [hes]
    exact List.mem_append_right _ List.mem_cons_self

/-- If every edge connects nodes that were there, the lists and the registry agree. -/
theorem Grounded.not_disagrees (hg : Grounded calls) {root terminal : NodeId} {f : GraphError}
    (hroot : root.index < additions calls) (hterminal : terminal.index < additions calls)
    (h : Exhibits b.nodes b.edges root terminal f) : f.disagrees = false := by
  cases f with
  | nodeOutOfRange n count =>
    obtain ⟨rfl, hle, hn⟩ := h
    rw [nodeCount_of_run hb] at hle
    rcases hn with rfl | rfl | ⟨e, edge, side, hget, rfl⟩
    · exact absurd hroot (Nat.not_lt.2 hle)
    · exact absurd hterminal (Nat.not_lt.2 hle)
    · exact absurd (hg.claimed hedges hb hget side).1 (Nat.not_lt.2 hle)
  | unknownEdge n e =>
    obtain ⟨⟨side, he⟩, hnone⟩ := h
    obtain ⟨edge, hget, -⟩ := get?_of_mem_portsOf hedges hb he
    cases hnone.symm.trans hget
  | duplicateEdge e =>
    obtain ⟨n, side, hcount⟩ := h
    have hnodup : (portsOf b.nodes n side).edges.Nodup :=
      (pairwise_portsOf hedges hb).imp fun {a b} hlt (heq : a = b) =>
        UInt32.lt_irrefl _ (heq ▸ hlt)
    exact absurd (List.nodup_iff_count_le_one.1 hnodup e) (Nat.not_le.2 hcount)
  | endpointMismatch e n how edge =>
    cases how with
    | listed side =>
      obtain ⟨hget, he, hne⟩ := h
      obtain ⟨edge', hget', hend⟩ := get?_of_mem_portsOf hedges hb he
      obtain rfl : edge = edge' := Option.some.inj (hget.symm.trans hget')
      exact absurd hend hne
    | missing side =>
      obtain ⟨hget, rfl, -, hnot⟩ := h
      exact absurd (hg.claimed hedges hb hget side).2 (hnot side)
  | _ => rfl

/-- An edge to a node that was not there keeps any graph from being built. -/
theorem exists_error_of_not_grounded [Scalar α] {root terminal : NodeId}
    (hnodes : additions calls ≤ UInt32.size) (hg : ¬ Grounded calls) :
    ∃ f, b.build root terminal = .error (.fault f) ∧ f.isConfiguration = true := by
  rw [← nodeCount_of_run hb] at hnodes
  rcases hbuild : b.build root terminal with stop | g
  · obtain ⟨f, rfl, hf⟩ := Graph.refuses_build hnodes stop hbuild
    exact ⟨f, rfl, hf⟩
  · refine absurd (fun pre source target post hcalls side => ?_) hg
    subst hcalls
    by_contra hn
    have hget : b.edges.get? (.ofIndex (connections pre).length) = some ⟨source, target⟩ := by
      rw [EdgeRegistry.get?_eq_some_iff, entries_of_run hedges hb, connections,
        List.filterMap_append, numbered_append, Nat.zero_add]
      exact List.mem_append_right _ List.mem_cons_self
    obtain ⟨-, hcheck, -⟩ := Graph.build_eq_ok_iff.1 hbuild
    obtain ⟨spec, hs, he⟩ := (wellFormed_of_check hcheck hnodes).claimed hget side
    refine notMem_portsOf_of_connect hedges hb hn ?_
    rwa [portsOf_eq hs]

end Lists

end Split

/-- However a builder is called, with no more calls of either kind than there are names, the calls
succeed and its edges are numbered in their order. A node lists the edges at whose end it is that
are made after it was added, and an edge takes the next port of a node that is there. So if every
edge connects nodes that are there when it is made, no graph is refused for lists and a registry
that disagree; otherwise every graph is refused for its configuration. -/
theorem run_wires [Scalar α] (config : Config) (calls : List (Call α))
    (hnodes : additions calls ≤ UInt32.size) (hedges : (connections calls).length ≤ UInt32.size) :
    ∃ b, (empty config).run calls = .ok b
    ∧ b.nodeCount = additions calls ∧ b.edges.entries = numbered 0 (connections calls)
    ∧ (∀ pre op inputs outputs post, calls = pre ++ .addNode op inputs outputs :: post →
        let n := NodeId.ofIndex (additions pre)
        let made := numbered (connections pre).length (connections post)
        ∃ b₀, (empty config).run pre = .ok b₀
          ∧ (b₀.addNode op inputs outputs).2 = n ∧ n.index = additions pre
          ∧ b.nodes[n.index]?
            = some ⟨op, ⟨namesOn n .input made, inputs⟩, ⟨namesOn n .output made, outputs⟩⟩
          ∧ ∀ side, (namesOn n side made).Pairwise fun e e' => e.val < e'.val)
    ∧ (∀ pre source target post, calls = pre ++ .connect source target :: post →
        let e := EdgeId.ofIndex (connections pre).length
        ∃ b₀ b₁, (empty config).run pre = .ok b₀ ∧ b₀.connect source target = .ok (b₁, e)
          ∧ e.index = (connections pre).length
          ∧ ∀ side, let n := endOn side ⟨source, target⟩
            n.index < additions pre → (portsOf b.nodes n side).edges[(portsOf
              b₀.nodes n side).edges.length]? = some e)
    ∧ ∀ root terminal, root.index < b.nodeCount → terminal.index < b.nodeCount →
        (Grounded calls → ∀ stop, b.build root terminal = .error stop →
          ∃ f, stop = .fault f ∧ f.disagrees = false)
        ∧ (¬ Grounded calls →
          ∃ f, b.build root terminal = .error (.fault f) ∧ f.isConfiguration = true) := by
  have hrun : ∃ b, (empty config).run calls = .ok b ∧ b.Numbers (connections calls) [] :=
    exists_run_empty config (by rwa [List.append_nil])
  obtain ⟨b, hb, -⟩ := hrun
  refine ⟨b, hb, nodeCount_of_run hb, entries_of_run hedges hb, ?_, ?_,
    fun root terminal hr ht => ⟨?_, ?_⟩⟩
  · rintro pre op inputs outputs post rfl n made
    obtain ⟨b₀, hpre, -⟩ := exists_run_empty config hedges
    have hs := getElem?_nodes_of_addNode hnodes hedges hb
    refine ⟨b₀, hpre, congrArg NodeId.ofIndex (nodeCount_of_run hpre),
      NodeId.index_ofIndex (additions_lt hnodes), hs, fun side => ?_⟩
    have hpairwise : (portsOf b.nodes n side).edges.Pairwise _ := pairwise_portsOf hedges hb
    rw [portsOf_eq hs] at hpairwise
    cases side <;> exact hpairwise
  · rintro pre source target post rfl e
    obtain ⟨b₀, hpre, hnumbers⟩ := exists_run_empty config hedges
    refine ⟨b₀, _, hpre, hnumbers.connect_eq, EdgeId.index_ofIndex (connections_lt hedges),
      fun side => ?_⟩
    intro n hn
    obtain ⟨es, hes⟩ := edges_portsOf_of_connect hedges hb hpre hn
    rw [hes, List.getElem?_append_right (Nat.le_refl _), Nat.sub_self]
    rfl
  · intro hg stop hbuild
    rw [nodeCount, nodeCount_of_run hb] at hr ht
    obtain ⟨f, rfl, hf⟩ := Graph.refuses_build_exhibits
      ((nodeCount_of_run hb).trans_le hnodes) stop hbuild
    exact ⟨f, rfl, hg.not_disagrees hedges hb hr ht hf⟩
  · exact exists_error_of_not_grounded hedges hb hnodes

/-- The first edge leads to a node that is added after it, the last one from that node to itself. -/
def early : List (Call ℚ) :=
  [.addNode .negate [.vector 1] [.vector 1], .connect ⟨0⟩ ⟨1⟩,
    .addNode .sum [.vector 1, .vector 1] [.vector 1], .connect ⟨0⟩ ⟨1⟩, .connect ⟨1⟩ ⟨1⟩]

theorem not_grounded_early : ¬ Grounded early := fun h =>
  absurd (h [_] _ _ _ rfl .input) (by decide)

theorem grounded_early_eraseIdx : Grounded (early.eraseIdx 1) := by
  intro pre source target post h side
  rcases pre with _ | ⟨c₀, _ | ⟨c₁, _ | ⟨c₂, _ | ⟨c₃, pre⟩⟩⟩⟩ <;>
    simp only [early, List.eraseIdx_cons_succ, List.eraseIdx_cons_zero, List.nil_append,
      List.cons_append, List.cons.injEq, Call.connect.injEq, reduceCtorEq, false_and, and_false,
      List.nil_eq, List.append_eq_nil_iff] at h
  · obtain ⟨rfl, rfl, ⟨rfl, rfl⟩, -⟩ := h
    cases side <;> decide
  · obtain ⟨rfl, rfl, rfl, ⟨rfl, rfl⟩, -⟩ := h
    cases side <;> decide

theorem run_wires_early : ∃ b b', (empty {}).run early = .ok b
      ∧ b.nodes[1]?
        = some ⟨.sum, ⟨[⟨1⟩, ⟨2⟩], [.vector 1, .vector 1]⟩, ⟨[⟨2⟩], [.vector 1]⟩⟩
      ∧ (∃ f, b.build ⟨0⟩ ⟨1⟩ = .error (.fault f) ∧ f.isConfiguration = true)
      ∧ (empty {}).run (early.eraseIdx 1) = .ok b'
      ∧ ∃ f, b'.build ⟨0⟩ ⟨1⟩ = .error (.fault f) ∧ f.disagrees = false := by
  obtain ⟨b, hb, hcount, -, hadd, -, hbuild⟩ := run_wires {} early (by decide) (by decide)
  obtain ⟨b', hb', hcount', -, -, -, hbuild'⟩ :=
    run_wires {} (early.eraseIdx 1) (by decide) (by decide)
  obtain ⟨-, -, -, -, hnode, -⟩ := hadd [_, _] _ _ _ _ rfl
  refine ⟨b, b', hb, hnode, ?_, hb', ?_⟩
  · refine (hbuild ⟨0⟩ ⟨1⟩ ?_ ?_).2 not_grounded_early <;> rw [hcount] <;> decide
  · have hterminal : ((empty {}).run (early.eraseIdx 1)).map (·.build ⟨0⟩ ⟨1⟩)
        = .ok (.error (.fault (.terminalHasOutputs ⟨1⟩))) := rfl
    rw [hb'] at hterminal
    have hterminal := Except.ok.inj hterminal
    obtain ⟨f, hf, hdisagrees⟩ := (hbuild' ⟨0⟩ ⟨1⟩ (by rw [hcount']; decide)
      (by rw [hcount']; decide)).1 grounded_early_eraseIdx _ hterminal
    exact ⟨f, hterminal.trans (congrArg Except.error hf), hdisagrees⟩

end GraphBuilder

end MatrixFree
