import MatrixFree.Proofs.Routes

/-!
# Which wirings pass

A wiring passes its check exactly if it is `Wiring.Coherent` (`Wiring.check_iff_coherent`): the
registry has the edges that the nodes list and no others, and every one of them is `Wiring.Joined`.
-/

namespace MatrixFree

open Wiring

variable {α : Type} {e : EdgeId} {size : ℕ}

namespace PortList

/-- Some port of that size has the edge. -/
def Carries (p : PortList) (e : EdgeId) (size : ℕ) : Prop :=
  ∃ (i : ℕ) (s : Shape), p.edges[i]? = some e ∧ p.shapes[i]? = some s ∧ s.size = size

variable {p : PortList}

theorem Carries.mem (h : p.Carries e size) : e ∈ p.edges := by
  obtain ⟨i, -, he, -⟩ := h
  exact List.mem_of_getElem? he

theorem Carries.edgeSize?_eq (h : p.Carries e size) (hnd : p.edges.Nodup) :
    p.edgeSize? e = some size := by
  obtain ⟨i, s, he, hs, rfl⟩ := h
  obtain ⟨hi, hie⟩ := List.getElem?_eq_some_iff.1 he
  have hfind : p.edges.findIdx? (· = e) = some i := by
    refine List.findIdx?_eq_some_iff_getElem.2 ⟨hi, by simpa using hie, fun j hj => ?_⟩
    have hne : p.edges[j] ≠ e := fun hje => hj.ne (hnd.getElem_inj_iff.1 (hje.trans hie.symm))
    simpa using hne
  rw [edgeSize?, hfind, Option.bind_some, hs]
  rfl

theorem Tiled.exists_carries (h : p.Tiled) (he : e ∈ p.edges) :
    ∃ size, p.edgeSize? e = some size ∧ p.Carries e size := by
  obtain ⟨s, hs, hsize, -⟩ := exists_port h he
  exact ⟨s.size, hsize, _, s, List.getElem?_idxOf he, hs, rfl⟩

end PortList

namespace Wiring

/-- The nodes at its two ends list the edge, on ports of one size, and no node lists it anywhere
else. -/
structure Joined (nodes : List (NodeSpec α)) (e : EdgeId) (edge : Edge) : Prop where
  source_ne : edge.source ≠ edge.target
  once : ∀ side, (listedOn nodes side).count e = 1
  ports : ∃ size, ∀ side, ∃ spec, nodes[(endOn side edge).index]? = some spec
    ∧ (spec.ports side).Carries e size

/-- The nodes and the registry agree on all edges, and every node has ports for its own that its
operator accepts. The root and the terminal have one port more, for what comes from outside and
what goes there. -/
structure Coherent (nodes : List (NodeSpec α)) (edges : EdgeRegistry) (root terminal : NodeId) :
    Prop where
  outer_lt : ∀ side, (outer root terminal side).index < nodes.length
  closed : ∀ side spec, nodes[(outer root terminal side).index]? = some spec →
    (spec.ports side).edges = []
  ports : ∀ (i : ℕ) spec side, nodes[i]? = some spec → (spec.ports side).shapes.length
    = (spec.ports side).edges.length + if i = (outer root terminal side).index then 1 else 0
  fits : ∀ spec ∈ nodes, ∀ side, Shape.Fits (spec.ports side).shapes
  accepted : ∀ spec ∈ nodes, spec.op.check spec.signature = .ok ()
  registered : ∀ side, ∀ e ∈ listedOn nodes side, ∃ edge, edges.get? e = some edge
  joined : ∀ e edge, edges.get? e = some edge → Joined nodes e edge

variable {nodes : List (NodeSpec α)} {edges : EdgeRegistry} {root terminal : NodeId}

theorem mem_listedOn {side : Side} {spec : NodeSpec α} {i : ℕ} (hi : nodes[i]? = some spec)
    (he : e ∈ (spec.ports side).edges) : e ∈ listedOn nodes side :=
  List.mem_flatMap.2 ⟨spec, List.mem_of_getElem? hi, he⟩

/-- Of edges that are listed once, no two nodes list the same. -/
theorem index_eq_of_listed {side : Side} (hnd : (listedOn nodes side).Nodup) {i j : ℕ}
    {s t : NodeSpec α} (hi : nodes[i]? = some s) (hj : nodes[j]? = some t)
    (hs : e ∈ (s.ports side).edges) (ht : e ∈ (t.ports side).edges) : i = j := by
  obtain ⟨hilt, rfl⟩ := List.getElem?_eq_some_iff.1 hi
  obtain ⟨hjlt, rfl⟩ := List.getElem?_eq_some_iff.1 hj
  have hdis := List.pairwise_iff_getElem.1 (List.nodup_flatMap.1 hnd).2
  rcases Nat.lt_trichotomy i j with hlt | heq | hlt
  · exact absurd ht (hdis i j hilt hjlt hlt hs)
  · exact heq
  · exact absurd hs (hdis j i hjlt hilt hlt ht)

theorem ofIndex_eq_iff (hcount : nodes.length ≤ UInt32.size) {i : ℕ} {spec : NodeSpec α}
    (hi : nodes[i]? = some spec) (n : NodeId) : NodeId.ofIndex i = n ↔ i = n.index := by
  have hlt := (List.getElem?_eq_some_iff.1 hi).1.trans_le hcount
  rw [← NodeId.index_inj, NodeId.index_ofIndex hlt]

namespace Coherent

variable (h : Coherent nodes edges root terminal)
include h

theorem nodup (side : Side) : (listedOn nodes side).Nodup := by
  refine List.nodup_iff_count_le_one.2 fun e => ?_
  by_cases he : e ∈ listedOn nodes side
  · obtain ⟨edge, hget⟩ := h.registered side e he
    exact ((h.joined e edge hget).once side).le
  · rw [List.count_eq_zero_of_not_mem he]
    exact Nat.zero_le 1

theorem nodeFits (hcount : nodes.length ≤ UInt32.size) {i : ℕ} {spec : NodeSpec α}
    (hi : nodes[i]? = some spec) : NodeFits edges root terminal (.ofIndex i) spec := by
  have hmem := List.mem_of_getElem? hi
  refine ⟨fun side => ?_, h.fits spec hmem, Operator.accepts_of_check (h.accepted spec hmem),
    fun side => (List.nodup_flatMap.1 (h.nodup side)).1 spec hmem, fun side e he => ?_⟩
  · rw [h.ports i spec side hi]
    exact congrArg _ (if_congr (ofIndex_eq_iff hcount hi _).symm rfl rfl)
  · obtain ⟨edge, hget⟩ := h.registered side e (mem_listedOn hi he)
    obtain ⟨size, hends⟩ := (h.joined e edge hget).ports
    obtain ⟨spec', hj, hcarries⟩ := hends side
    refine ⟨edge, hget, ((ofIndex_eq_iff hcount hi _).2 ?_).symm⟩
    exact index_eq_of_listed (h.nodup side) hi hj he hcarries.mem

/-- The lookup of a size, which takes the output ports first, finds both ports of an edge. -/
theorem sizeAt_eq {edge : Edge} (hget : edges.get? e = some edge) :
    sizeAt nodes edge.source e = sizeAt nodes edge.target e := by
  have hj := h.joined e edge hget
  have hnd : ∀ side, ∀ spec ∈ nodes, (spec.ports side).edges.Nodup := fun side =>
    (List.nodup_flatMap.1 (h.nodup side)).1
  obtain ⟨size, hends⟩ := hj.ports
  obtain ⟨source, hs, hsource⟩ := hends .output
  obtain ⟨target, ht, htarget⟩ := hends .input
  have hnot : e ∉ target.output.edges := fun hmem =>
    hj.source_ne (NodeId.index_inj.1
      (index_eq_of_listed (h.nodup .output) hs ht hsource.mem hmem))
  have hout : source.output.edgeSize? e = some size :=
    hsource.edgeSize?_eq (hnd .output _ (List.mem_of_getElem? hs))
  have hin : target.input.edgeSize? e = some size :=
    htarget.edgeSize?_eq (hnd .input _ (List.mem_of_getElem? ht))
  exact (sizeAt_of_output hs hout).trans (sizeAt_of_input ht hnot hin).symm

theorem check (hcount : nodes.length ≤ UInt32.size) :
    Wiring.check nodes edges root terminal = .ok () := by
  obtain ⟨seen, hseen⟩ : ∃ seen : Claims,
      ∀ side, (listedOn nodes side).reverse ++ Claims.on ⟨[], []⟩ side = seen.on side :=
    ⟨⟨_, _⟩, Side.forall_iff.2 ⟨rfl, rfl⟩⟩
  refine check_eq_ok_iff.2 ⟨h.outer_lt, h.closed, seen, foldlM_checkNode_iff.2
    ⟨fun i spec hi => ?_, fun side => ⟨h.nodup side, fun e _ => ?_⟩, hseen⟩,
    forM_eq_ok_iff.2 fun x hx => ?_⟩
  · rw [Nat.zero_add]
    exact ⟨h.nodeFits hcount hi, h.accepted spec (List.mem_of_getElem? hi)⟩
  · cases side <;> exact List.not_mem_nil
  · have hget := EdgeRegistry.get?_eq_some_iff.2 hx
    have hj := h.joined x.1 x.2 hget
    obtain ⟨size, hends⟩ := hj.ports
    refine checkEdge_eq_ok_iff.2 ⟨hj.source_ne, fun side => ?_, h.sizeAt_eq hget⟩
    obtain ⟨spec, hi, hcarries⟩ := hends side
    refine ⟨(List.getElem?_eq_some_iff.1 hi).1, ?_⟩
    rw [← hseen]
    exact List.mem_append_left _ (List.mem_reverse.2 (mem_listedOn hi hcarries.mem))

end Coherent

theorem coherent_of_check (hcount : nodes.length ≤ UInt32.size)
    (h : check nodes edges root terminal = .ok ()) : Coherent nodes edges root terminal := by
  have hw := wellFormed_of_check h hcount
  obtain ⟨hlt, hclosed, seen, hs, -⟩ := check_eq_ok_iff.1 h
  obtain ⟨hnodes, hnd, -⟩ := foldlM_checkNode_iff.1 hs
  have hmem : ∀ spec ∈ nodes, ∃ i : ℕ, nodes[i]? = some spec := fun spec hspec =>
    List.mem_iff_getElem?.1 hspec
  refine ⟨hlt, hclosed, fun i spec side hi => ?_, fun spec hspec side => ?_, fun spec hspec => ?_,
    fun side e he => ?_, fun e edge hget => ⟨hw.source_ne hget, fun side => ?_, ?_⟩⟩
  · rw [(hw.nodeFits hi).ports side]
    exact congrArg _ (if_congr (ofIndex_eq_iff hcount hi _) rfl rfl)
  · obtain ⟨i, hi⟩ := hmem spec hspec
    exact (hw.nodeFits hi).fits side
  · obtain ⟨i, hi⟩ := hmem spec hspec
    exact (hnodes i spec hi).2
  · obtain ⟨spec, hspec, he⟩ := List.mem_flatMap.1 he
    obtain ⟨i, hi⟩ := hmem spec hspec
    obtain ⟨edge, hget, -⟩ := (hw.nodeFits hi).listed side e he
    exact ⟨edge, hget⟩
  · obtain ⟨spec, hi, he⟩ := hw.claimed hget side
    exact List.count_eq_one_of_mem (hnd side).1 (mem_listedOn hi he)
  · obtain ⟨source, hsource, heout⟩ := hw.claimed hget .output
    obtain ⟨target, htarget, hein⟩ := hw.claimed hget .input
    obtain ⟨size, hout, hcarries⟩ := (hw.tiled hsource .output).exists_carries heout
    obtain ⟨size', hin, hcarries'⟩ := (hw.tiled htarget .input).exists_carries hein
    obtain rfl : size = size' :=
      Option.some.inj (hout.symm.trans ((hw.edgeSize?_eq hget hsource htarget).trans hin))
    exact ⟨size, Side.forall_iff.2 ⟨⟨target, htarget, hcarries'⟩, source, hsource, hcarries⟩⟩

/-- With no more nodes than there are names, the check passes exactly the coherent wirings. -/
theorem check_iff_coherent (nodes : List (NodeSpec α)) (edges : EdgeRegistry)
    (root terminal : NodeId) (hcount : nodes.length ≤ UInt32.size) :
    check nodes edges root terminal = .ok () ↔ Coherent nodes edges root terminal :=
  ⟨coherent_of_check hcount, fun h => h.check hcount⟩

theorem check_iff_coherent_branching :
    Coherent Graph.branching.nodes Graph.branching.edges ⟨0⟩ ⟨4⟩
      ∧ ¬ Coherent Graph.branching.nodes Graph.branching.edges ⟨0⟩ ⟨3⟩ := by
  have hcount : Graph.branching.nodes.length ≤ UInt32.size := by decide
  refine ⟨(check_iff_coherent _ _ _ _ hcount).1 Graph.check_branching, fun h => ?_⟩
  have hrefused : check Graph.branching.nodes Graph.branching.edges ⟨0⟩ ⟨3⟩
      = .error (.fault (.terminalHasOutputs ⟨3⟩)) := rfl
  rw [(check_iff_coherent _ _ _ _ hcount).2 h] at hrefused
  cases hrefused

end Wiring

end MatrixFree
