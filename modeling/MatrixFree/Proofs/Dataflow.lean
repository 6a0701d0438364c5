import MatrixFree.Proofs.Routes

/-!
# Evaluation as dataflow

Steps along a schedule keep the nodes that they have settled settled (`Graph.Flow.step`): each puts
out what its operator gives for what it takes in, and its edges carry that. When all nodes are
settled, the buffers follow from what the start takes in (`Graph.Flow.eq`), so any two schedules
lead to the same ones.
-/

namespace MatrixFree

open MatrixFree.Topology Wiring

variable {α : Type} [Scalar α]

namespace Graph

variable {specs : List (NodeSpec α)} {edges : EdgeRegistry} {root terminal n : NodeId}
  {config : Config} {d : Direction} {nodes nodes' : Array (Node α)} {g g' : Graph α}
  {done l l' : List NodeId} {x : Array α}

/-- The buffers hold the dataflow up to the given nodes: these put out what their operators give
for what they take in, and the edges that leave them carry it. The start takes in `x`. -/
structure Flow (specs : List (NodeSpec α)) (edges : EdgeRegistry) (d : Direction) (start : NodeId)
    (x : Array α) (done : List NodeId) (nodes : Array (Node α)) : Prop where
  laidOut : LaidOut specs nodes
  computed : ∀ n ∈ done, ∀ {spec}, specs[n.index]? = some spec → ∀ stale : Array α,
    stale.size = spec.length d.departure →
      spec.run d (contents nodes n d.arrival) stale = .ok (contents nodes n d.departure)
  carried : ∀ {e edge}, edges.get? e = some edge → d.tail edge ∈ done →
    slice specs nodes (d.head edge) d.arrival e = slice specs nodes (d.tail edge) d.departure e
  start_eq : contents nodes start d.arrival = x

section

variable (hw : WellFormed specs edges root terminal)
include hw

theorem Flow.step (h : Flow specs edges d (outer root terminal d.arrival) x done nodes)
    (hn : n ∉ done) (hheads : ∀ e edge, edges.get? e = some edge → d.tail edge = n →
      d.head edge ∉ done) (hs : Stepped specs edges d n nodes nodes') :
    Flow specs edges d (outer root terminal d.arrival) x (done ++ [n]) nodes' := by
  have ht := sound_ofSpecs hw
  -- nothing that was settled before is changed
  have arrival : ∀ m, m ∈ done ∨ m = n → contents nodes' m d.arrival = contents nodes m d.arrival :=
    fun m hm => hs.other (fun _ h => d.departure_ne_arrival h.symm) fun _ e edge hget htail hhead => by
      rcases hm with hm | rfl
      · exact hheads e edge hget htail (hhead ▸ hm)
      · exact ht.head_ne_tail hget (hhead.trans htail.symm)
  have departure : ∀ m ∈ done, contents nodes' m d.departure = contents nodes m d.departure :=
    fun m hm => hs.other (fun h => absurd (h ▸ hm) hn) fun h => absurd h d.departure_ne_arrival
  refine ⟨hs.laidOut, fun m hm spec hspec stale hstale => ?_, fun {e edge} hget htail => ?_, ?_⟩
  · rcases List.mem_append.1 hm with hm | hm
    · rw [arrival m (.inl hm), departure m hm]
      exact h.computed m hm hspec stale hstale
    · obtain rfl := List.mem_singleton.1 hm
      rw [arrival m (.inr rfl)]
      exact hs.computed hspec stale hstale
  · by_cases hen : d.tail edge = n
    · rw [hs.delivered hget hen, hen]
    · have htail : d.tail edge ∈ done := by simpa [hen] using htail
      rw [hs.kept hget hen, h.carried hget htail, slice, slice, departure _ htail]
  · rw [← h.start_eq]
    refine hs.other (fun _ h => d.departure_ne_arrival h.symm) fun _ e edge hget _ hhead => ?_
    have hin : e ∈ (ofSpecs specs edges root terminal).listed (d.head edge) d.arrival :=
      ht.mem_arrivals.2 ⟨edge, hget, rfl⟩
    have hnil := ht.start_listed d
    rw [start_ofSpecs, ← hhead] at hnil
    rw [hnil] at hin
    cases hin

/-- Along a schedule the steps succeed and lead to the dataflow of all nodes. -/
theorem Flow.exists_visitAll (hl : (ofSpecs specs edges root terminal).Schedule d l) :
    ∀ {rest done : List NodeId} {nodes : Array (Node α)}, l = done ++ rest →
    Flow specs edges d (outer root terminal d.arrival) x done nodes →
    ∃ nodes', visitAll (Graph.step edges d) rest nodes = (nodes', .ok ())
      ∧ Flow specs edges d (outer root terminal d.arrival) x l nodes'
  | [], done, nodes, hsplit, h => by
    rw [List.append_nil] at hsplit
    exact ⟨nodes, rfl, hsplit ▸ h⟩
  | n :: rest, done, nodes, hsplit, h => by
    have hnd := hl.nodup
    rw [hsplit] at hnd
    have hn : n ∉ done := fun hm => List.disjoint_of_nodup_append hnd hm List.mem_cons_self
    have hlt : n.index < specs.length := by
      have := (hl.mem_iff n).1 (by rw [hsplit]; simp)
      rwa [nodeCount_ofSpecs] at this
    obtain ⟨mid, hmid, hstep⟩ := exists_step hw h.laidOut (d := d) hlt
    have hheads : ∀ e edge, edges.get? e = some edge → d.tail edge = n → d.head edge ∉ done := by
      rintro e edge hget rfl hm
      have hlt := hl.before (e := e) hget
      rw [hsplit, List.idxOf_append_of_mem hm, List.idxOf_append_of_notMem hn] at hlt
      have := List.idxOf_lt_length_of_mem hm
      omega
    have hsplit' : l = done ++ [n] ++ rest := by simp [hsplit]
    obtain ⟨nodes', hvisit, hflow⟩ := exists_visitAll hl hsplit' (h.step hw hn hheads hstep)
    refine ⟨nodes', ?_, hflow⟩
    rw [visitAll, hmid]
    exact hvisit

/-- The dataflow of all nodes follows from what the start takes in. -/
theorem Flow.eq (hac : (ofSpecs specs edges root terminal).Acyclic)
    (h : Flow specs edges d (outer root terminal d.arrival) x l nodes)
    (h' : Flow specs edges d (outer root terminal d.arrival) x l' nodes')
    (hall : ∀ n : NodeId, n.index < specs.length → n ∈ l)
    (hall' : ∀ n : NodeId, n.index < specs.length → n ∈ l') : nodes = nodes' := by
  have ht := sound_ofSpecs hw
  have key : ∀ n : NodeId, n.index < specs.length →
      contents nodes n d.arrival = contents nodes' n d.arrival
        ∧ contents nodes n d.departure = contents nodes' n d.departure := by
    intro n
    induction n using (hac.wellFounded d).induction with
    | _ n ih =>
      intro hn
      have hs : specs[n.index]? = some specs[n.index] := List.getElem?_eq_getElem hn
      generalize specs[n.index] = spec at hs
      have harr : contents nodes n d.arrival = contents nodes' n d.arrival := by
        by_cases hstart : n = outer root terminal d.arrival
        · rw [hstart, h.start_eq, h'.start_eq]
        · have hports := (hw.nodeFits hs).ports d.arrival
          rw [NodeId.ofIndex_index, if_neg hstart] at hports
          refine PortList.ext_window (hw.tiled hs d.arrival) hports.symm
            (h.laidOut.size_contents hs _) (h'.laidOut.size_contents hs _) fun e he => ?_
          obtain ⟨edge, hget, hend⟩ := hw.end_eq d.arrival hs he
          rw [d.endOn_arrival] at hend
          have htail : (d.tail edge).index < specs.length :=
            d.endOn_departure edge ▸ hw.end_lt hget d.departure
          have hc := h.carried hget (hall _ htail)
          have hc' := h'.carried hget (hall' _ htail)
          rw [slice, slice, (ih _ ⟨e, edge, hget, rfl, hend⟩ htail).2, hend, portsOf_eq hs] at hc
          rw [slice, slice, hend, portsOf_eq hs] at hc'
          exact hc.trans hc'.symm
      refine ⟨harr, ?_⟩
      have hc := h.computed n (hall n hn) hs _ (h.laidOut.size_contents hs _)
      have hc' := h'.computed n (hall' n hn) hs _ (h.laidOut.size_contents hs _)
      rw [harr, hc', Except.ok.injEq] at hc
      exact hc.symm
  refine h.laidOut.ext hw.length_le h'.laidOut fun n hn side => ?_
  by_cases hside : side = d.arrival
  · exact hside ▸ (key n hn).1
  · have hside : side = d.departure := by
      cases d <;> cases side <;> first | rfl | exact absurd rfl hside
    exact hside ▸ (key n hn).2

end

end Graph

end MatrixFree
