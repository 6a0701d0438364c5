import MatrixFree.Proofs.Dataflow
import MatrixFree.LeastSquares
import MatrixFree.Batch

/-!
# States of a graph that was built

A graph that was built is `Graph.Valid`, the operations on it keep it so
(`Graph.Reachable.valid`), and an evaluation of a valid graph succeeds and leads to the dataflow of
all its nodes (`Graph.Valid.exists_flow`).
-/

namespace MatrixFree

open MatrixFree.Topology Wiring

variable {α : Type}

namespace Graph

/-- `g` is `g₀` with other contents in its buffers. -/
structure StateOf (g₀ g : Graph α) : Prop where
  topology_eq : g.topology = g₀.topology
  config_eq : g.config = g₀.config
  size_eq : g.nodes.size = g₀.nodes.size
  node_eq : ∀ {i : ℕ} {node₀ node : Node α}, g₀.nodes[i]? = some node₀ → g.nodes[i]? = some node →
    node.spec = node₀.spec ∧ ∀ side, (node.buffer side).offsets = (node₀.buffer side).offsets
      ∧ (node.data side).size = (node₀.data side).size

/-- A state of a graph that passed all checks. -/
structure Valid (specs : List (NodeSpec α)) (edges : EdgeRegistry) (root terminal : NodeId)
    (config : Config) (g : Graph α) : Prop where
  wired : WellFormed specs edges root terminal
  acyclic : (ofSpecs specs edges root terminal).Acyclic
  topology_eq : g.topology = ofSpecs specs edges root terminal
  config_eq : g.config = config
  laidOut : LaidOut specs g.nodes

variable {specs : List (NodeSpec α)} {edges : EdgeRegistry} {root terminal n : NodeId}
  {config : Config} {d : Direction} {g₀ g g' g₁ g₂ : Graph α} {role : BufferRole} {data x : Array α}
  {nodes nodes' : Array (Node α)} {l l' : List NodeId}

theorem place_inputRole (d : Direction) : d.inputRole.place (ofSpecs specs edges root terminal)
    = (outer root terminal d.arrival, d.arrival) := by
  cases d <;> rfl

theorem place_outputRole (d : Direction) : d.outputRole.place (ofSpecs specs edges root terminal)
    = (outer root terminal d.departure, d.departure) := by
  cases d <;> rfl

theorem buffer_eq (g : Graph α) (role : BufferRole) : g.buffer role
    = contents g.nodes (role.place g.topology).1 (role.place g.topology).2 := rfl

theorem setBuffer_eq (hn : (role.place g.topology).1.index < g.nodes.size) : g.setBuffer role data
    = { g with nodes := update g.nodes (role.place g.topology).1 (role.place g.topology).2
                 fun _ => data } := by
  have hget := Array.getElem?_eq_getElem hn
  unfold setBuffer
  dsimp only
  rw [hget]
  exact congrArg (fun nodes => { g with nodes }) (setIfInBounds_setData hget _ _)

theorem copyInput_of_eq (h : data.size = (g.buffer d.inputRole).size) :
    g.copyInput d data = (g.setBuffer d.inputRole data, .ok ()) :=
  if_pos h

theorem copyInput_of_ne (h : data.size ≠ (g.buffer d.inputRole).size) : g.copyInput d data
    = (g, .error (.lengthMismatch d.inputRole (g.buffer d.inputRole).size data.size)) :=
  if_neg h

theorem copyOutput_of_eq (h : data.size = (g.buffer d.outputRole).size) :
    g.copyOutput d data = (g.buffer d.outputRole, .ok ()) :=
  if_pos h

theorem copyOutput_of_ne (h : data.size ≠ (g.buffer d.outputRole).size) : g.copyOutput d data
    = (data, .error (.lengthMismatch d.outputRole (g.buffer d.outputRole).size data.size)) :=
  if_neg h

theorem evaluateOne_eq [Scalar α] {elapsed : Duration} (hcopy : g.copyInput d x = (g₁, .ok ()))
    (heval : g₁.evaluate d elapsed = (g₂, .ok ())) :
    Batch.evaluateOne d elapsed g x = (g₂, .ok (g₂.buffer d.outputRole)) := by
  unfold Batch.evaluateOne
  rw [hcopy]
  dsimp only
  rw [heval]
  dsimp only
  rw [copyOutput_of_eq (by rw [Array.size_replicate, resultLength])]

theorem evaluateOne_of_ne [Scalar α] {elapsed : Duration}
    (h : x.size ≠ (g.buffer d.inputRole).size) : Batch.evaluateOne d elapsed g x
      = (g, .error (.fault (.lengthMismatch d.inputRole (g.buffer d.inputRole).size x.size))) := by
  unfold Batch.evaluateOne
  rw [copyInput_of_ne h]
  rfl

namespace Valid

theorem buffer_inputRole (h : Valid specs edges root terminal config g) (d : Direction) :
    g.buffer d.inputRole = contents g.nodes (outer root terminal d.arrival) d.arrival := by
  rw [buffer_eq, h.topology_eq, place_inputRole]

theorem buffer_outputRole (h : Valid specs edges root terminal config g) (d : Direction) :
    g.buffer d.outputRole = contents g.nodes (outer root terminal d.departure) d.departure := by
  rw [buffer_eq, h.topology_eq, place_outputRole]

theorem place_lt (h : Valid specs edges root terminal config g) (role : BufferRole) :
    (role.place g.topology).1.index < g.nodes.size := by
  rw [h.laidOut.size_eq, h.topology_eq]
  cases role
  · exact h.wired.outer_lt .input
  · exact h.wired.outer_lt .output
  · exact h.wired.outer_lt .output
  · exact h.wired.outer_lt .input

theorem setBuffer (h : Valid specs edges root terminal config g)
    (hsize : data.size = (g.buffer role).size) :
    Valid specs edges root terminal config (g.setBuffer role data) := by
  rw [setBuffer_eq (h.place_lt role)]
  exact ⟨h.wired, h.acyclic, h.topology_eq, h.config_eq, h.laidOut.update hsize⟩

theorem copyInput (h : Valid specs edges root terminal config g) (d : Direction)
    (data : Array α) : Valid specs edges root terminal config (g.copyInput d data).1 := by
  by_cases hsize : data.size = (g.buffer d.inputRole).size
  · rw [copyInput_of_eq hsize]
    exact h.setBuffer hsize
  · rw [copyInput_of_ne hsize]
    exact h

theorem write {start : ℕ} (h : Valid specs edges root terminal config g)
    (hw : g.write role start data = .ok g') : Valid specs edges root terminal config g' := by
  unfold Graph.write at hw
  obtain ⟨part, hpart, hw⟩ := bind_eq_ok_iff.1 hw
  obtain ⟨_, -, hpart⟩ := bind_eq_ok_iff.1 hpart
  obtain rfl := Except.ok.inj hpart
  obtain rfl := Except.ok.inj hw
  exact h.setBuffer (Table.size_place _ _ _)

theorem size_buffer (h : Valid specs edges root terminal config g)
    (h' : Valid specs edges root terminal config g') (role : BufferRole) :
    (g.buffer role).size = (g'.buffer role).size := by
  have hlt := h.place_lt role
  have hlt' : (role.place g.topology).1.index < specs.length := h.laidOut.size_eq ▸ hlt
  have hs := List.getElem?_eq_getElem hlt'
  rw [buffer_eq, buffer_eq, h'.topology_eq, ← h.topology_eq, h.laidOut.size_contents hs,
    h'.laidOut.size_contents hs]

theorem stateOf (h : Valid specs edges root terminal config g)
    (h' : Valid specs edges root terminal config g') : StateOf g g' where
  topology_eq := h'.topology_eq.trans h.topology_eq.symm
  config_eq := h'.config_eq.trans h.config_eq.symm
  size_eq := h'.laidOut.size_eq.trans h.laidOut.size_eq.symm
  node_eq {i node node'} hget hget' := by
    have hlt : i < specs.length := h.laidOut.size_eq ▸ (Array.getElem?_eq_some_iff.1 hget).1
    have hs : specs[i]? = some specs[i] := List.getElem?_eq_getElem hlt
    have hn := h.laidOut.node hs hget
    have hn' := h'.laidOut.node hs hget'
    exact ⟨hn'.spec_eq.trans hn.spec_eq.symm, fun side =>
      ⟨(hn'.offsets_eq side).trans (hn.offsets_eq side).symm,
        (hn'.size_eq side).trans (hn.size_eq side).symm⟩⟩

theorem of_stateOf (h : Valid specs edges root terminal config g) (hs : StateOf g g') :
    Valid specs edges root terminal config g' where
  wired := h.wired
  acyclic := h.acyclic
  topology_eq := hs.topology_eq.trans h.topology_eq
  config_eq := hs.config_eq.trans h.config_eq
  laidOut := by
    refine ⟨hs.size_eq.trans h.laidOut.size_eq, fun {i spec node'} hspec hget' => ?_⟩
    have hlt : i < g.nodes.size := hs.size_eq ▸ (Array.getElem?_eq_some_iff.1 hget').1
    have hget := Array.getElem?_eq_getElem hlt
    have hn := h.laidOut.node hspec hget
    obtain ⟨hspec', hsides⟩ := hs.node_eq hget hget'
    exact ⟨hspec'.trans hn.spec_eq, fun side => (hsides side).1.trans (hn.offsets_eq side),
      fun side => (hsides side).2.trans (hn.size_eq side)⟩

theorem mem_schedule (h : Valid specs edges root terminal config g)
    (hl : g.topology.Schedule d l) (hn : n.index < specs.length) : n ∈ l := by
  rw [h.topology_eq] at hl
  exact (hl.mem_iff n).2 (by rwa [nodeCount_ofSpecs])

/-- A copy of the right length leaves the data where the next evaluation starts. -/
theorem exists_copyInput (h : Valid specs edges root terminal config g)
    (hx : x.size = (g.buffer d.inputRole).size) :
    ∃ g', g.copyInput d x = (g', .ok ()) ∧ Valid specs edges root terminal config g'
      ∧ g'.buffer d.inputRole = x := by
  refine ⟨g.setBuffer d.inputRole x, copyInput_of_eq hx, h.setBuffer hx, ?_⟩
  rw [setBuffer_eq (h.place_lt d.inputRole), buffer_eq, contents_update (h.place_lt d.inputRole),
    if_pos ⟨rfl, rfl⟩]

variable [Scalar α]

theorem of_build (h : build specs root terminal edges config = .ok g) :
    Valid specs edges root terminal config g := by
  obtain ⟨hcount, hcheck, hac, rfl⟩ := build_eq_ok_iff.1 h
  have hw := wellFormed_of_check hcheck hcount
  refine ⟨hw, (checkAcyclic_eq_ok_iff (sound_ofSpecs hw) ?_).1 hac, rfl, rfl,
    laidOut_initial specs edges root terminal config⟩
  rwa [nodeCount_ofSpecs]

theorem flow_nil (h : Valid specs edges root terminal config g) (d : Direction) :
    Flow specs edges d (outer root terminal d.arrival) (g.buffer d.inputRole) [] g.nodes :=
  ⟨h.laidOut, nofun, nofun, (h.buffer_inputRole d).symm⟩

theorem of_flow (h : Valid specs edges root terminal config g) (stats : EvalStats)
    (hf : Flow specs edges d (outer root terminal d.arrival) x l nodes) :
    Valid specs edges root terminal config { g with nodes, stats } :=
  ⟨h.wired, h.acyclic, h.topology_eq, h.config_eq, hf.laidOut⟩

/-- What a dataflow puts out has the length of a result. -/
theorem size_result (h : Valid specs edges root terminal config g)
    (hf : Flow specs edges d (outer root terminal d.arrival) x l nodes) :
    (contents nodes (outer root terminal d.departure) d.departure).size = g.resultLength d := by
  have h' := h.of_flow g.stats hf
  have hout := h'.buffer_outputRole d
  rw [← hout]
  exact h'.size_buffer h d.outputRole

/-- The steps at all nodes succeed in every order along the edges, and lead to the dataflow. -/
theorem exists_visitAll (h : Valid specs edges root terminal config g)
    (hl : g.topology.Schedule d l) :
    ∃ nodes, visitAll (step g.topology.edges d) l g.nodes = (nodes, .ok ())
      ∧ Flow specs edges d (outer root terminal d.arrival) (g.buffer d.inputRole) l nodes := by
  have hflow := h.flow_nil d
  rw [h.topology_eq] at hl ⊢
  exact hflow.exists_visitAll h.wired hl rfl

/-- What an evaluation leads to follows from what its start takes in. -/
theorem flow_eq (h : Valid specs edges root terminal config g) (hl : g.topology.Schedule d l)
    (hl' : g.topology.Schedule d l')
    (hf : Flow specs edges d (outer root terminal d.arrival) x l nodes)
    (hf' : Flow specs edges d (outer root terminal d.arrival) x l' nodes') : nodes = nodes' :=
  hf.eq h.wired h.acyclic hf' (fun _ => h.mem_schedule hl) fun _ => h.mem_schedule hl'

/-- An evaluation succeeds and leads to the dataflow of all nodes. -/
theorem exists_flow (h : Valid specs edges root terminal config g) (d : Direction) :
    ∃ l nodes, g.topology.Schedule d l
      ∧ Flow specs edges d (outer root terminal d.arrival) (g.buffer d.inputRole) l nodes
      ∧ ∀ elapsed, g.evaluate d elapsed
          = ({ g with nodes, stats := g.stats.record d elapsed }, .ok ()) := by
  have hcount : g.topology.nodeCount ≤ UInt32.size := by
    rw [h.topology_eq, nodeCount_ofSpecs]
    exact h.wired.length_le
  have ht : g.topology.Sound := h.topology_eq ▸ sound_ofSpecs h.wired
  have hac : g.topology.Acyclic := h.topology_eq ▸ h.acyclic
  obtain ⟨l, hl, htraverse⟩ := exists_traverse ht hcount hac d
  obtain ⟨nodes, hvisit, hflow⟩ := h.exists_visitAll hl
  refine ⟨l, nodes, hl, hflow, fun elapsed => ?_⟩
  unfold Graph.evaluate
  rw [htraverse, hvisit]
  rfl

theorem evaluate (h : Valid specs edges root terminal config g) (d : Direction)
    (elapsed : Duration) : Valid specs edges root terminal config (g.evaluate d elapsed).1 := by
  obtain ⟨l, nodes, -, hflow, heval⟩ := h.exists_flow d
  rw [heval]
  exact h.of_flow _ hflow

/-- What one evaluation of `x` gives is what the dataflow of `x` puts out. -/
theorem exists_evaluateOne (h : Valid specs edges root terminal config g)
    (hx : x.size = (g.buffer d.inputRole).size) :
    ∃ l nodes, g.topology.Schedule d l
      ∧ Flow specs edges d (outer root terminal d.arrival) x l nodes
      ∧ ∀ elapsed, (Batch.evaluateOne d elapsed g x).2
          = .ok (contents nodes (outer root terminal d.departure) d.departure) := by
  obtain ⟨g', hcopy, h', rfl⟩ := h.exists_copyInput hx
  obtain ⟨l, nodes, hl, hflow, heval⟩ := h'.exists_flow d
  refine ⟨l, nodes, ?_, hflow, fun elapsed => ?_⟩
  · rwa [h'.topology_eq, ← h.topology_eq] at hl
  · rw [evaluateOne_eq hcopy (heval elapsed)]
    exact congrArg Except.ok ((h'.of_flow _ hflow).buffer_outputRole d)

/-- What an evaluation gives or refuses does not depend on what the buffers held before. -/
theorem evaluateOne_congr (h : Valid specs edges root terminal config g)
    (h' : Valid specs edges root terminal config g') (d : Direction) (elapsed elapsed' : Duration)
    (x : Array α) :
    (Batch.evaluateOne d elapsed g x).2 = (Batch.evaluateOne d elapsed' g' x).2 := by
  have hsize := h.size_buffer h' d.inputRole
  by_cases hx : x.size = (g.buffer d.inputRole).size
  · obtain ⟨l, nodes, hl, hflow, hres⟩ := h.exists_evaluateOne hx
    obtain ⟨l', nodes', hl', hflow', hres'⟩ := h'.exists_evaluateOne (hx.trans hsize)
    rw [h'.topology_eq, ← h.topology_eq] at hl'
    rw [hres, hres', h.flow_eq hl hl' hflow hflow']
  · rw [evaluateOne_of_ne hx, evaluateOne_of_ne (hsize ▸ hx), hsize]

end Valid

variable [Scalar α]

/-- The states that the operations on a graph lead to. -/
inductive Reachable (g₀ : Graph α) : Graph α → Prop
  | refl : Reachable g₀ g₀
  | copyInput {g : Graph α} (d : Direction) (data : Array α) :
      Reachable g₀ g → Reachable g₀ (g.copyInput d data).1
  | evaluate {g : Graph α} (d : Direction) (elapsed : Duration) :
      Reachable g₀ g → Reachable g₀ (g.evaluate d elapsed).1
  | write {g g' : Graph α} (role : BufferRole) (start : ℕ) (data : Array α) :
      Reachable g₀ g → g.write role start data = .ok g' → Reachable g₀ g'

namespace Reachable

theorem valid (h₀ : Valid specs edges root terminal config g₀) (h : g₀.Reachable g) :
    Valid specs edges root terminal config g := by
  induction h with
  | refl => exact h₀
  | copyInput d data _ ih => exact ih.copyInput d data
  | evaluate d elapsed _ ih => exact ih.evaluate d elapsed
  | write role start data _ hw ih => exact ih.write hw

theorem stateOf (hbuild : build specs root terminal edges config = .ok g₀) (h : g₀.Reachable g) :
    StateOf g₀ g :=
  (Valid.of_build hbuild).stateOf (h.valid (.of_build hbuild))

theorem evaluateOne (h : g₀.Reachable g) (d : Direction) (elapsed : Duration) (x : Array α) :
    g₀.Reachable (Batch.evaluateOne d elapsed g x).1 := by
  have hcopy := h.copyInput d x
  have heval := hcopy.evaluate d elapsed
  unfold Batch.evaluateOne
  rcases hc : g.copyInput d x with ⟨g₁, e | _⟩
  · rwa [hc] at hcopy
  · rw [hc] at heval
    dsimp only
    rcases he : g₁.evaluate d elapsed with ⟨g₂, stop | _⟩
    · rwa [he] at heval
    · rw [he] at heval
      dsimp only
      split <;> exact heval

end Reachable

/-- From now on all evaluations of `x` give one result. -/
theorem Valid.exists_result (h : Valid specs edges root terminal config g)
    (hx : x.size = (g.buffer d.inputRole).size) :
    ∃ l nodes, g.topology.Schedule d l
      ∧ Flow specs edges d (outer root terminal d.arrival) x l nodes
      ∧ ∀ g', g.Reachable g' → ∀ elapsed, ∃ g'', g.Reachable g''
        ∧ Batch.evaluateOne d elapsed g' x
          = (g'', .ok (contents nodes (outer root terminal d.departure) d.departure)) := by
  obtain ⟨l, nodes, hl, hflow, hres⟩ := h.exists_evaluateOne hx
  refine ⟨l, nodes, hl, hflow, fun g' hg' elapsed => ⟨_, hg'.evaluateOne d elapsed x, ?_⟩⟩
  rw [← hres elapsed, h.evaluateOne_congr (hg'.valid h) d elapsed elapsed]

section

open LeastSquares

variable {α : Type} [SolverScalar α] {g₀ g : Graph α}

/-- A solver evaluates a graph as it is evaluated alone. -/
theorem apply_eq (elapsed : Duration) (d : Direction) (g : Graph α) (x : Array α) :
    apply elapsed d g x = ((Batch.evaluateOne d elapsed g x).1,
      (Batch.evaluateOne d elapsed g x).2.mapError (Stop.mapFault .evaluation)) := by
  unfold apply Batch.evaluateOne
  rcases g.copyInput d x with ⟨g, e | _⟩
  · rfl
  · dsimp only
    rcases g.evaluate d elapsed with ⟨g, stop | _⟩
    · rfl
    · dsimp only
      rcases g.copyOutput d (Array.replicate (g.resultLength d) 0) with ⟨out, e | _⟩ <;> rfl

theorem Reachable.apply (h : g₀.Reachable g) (elapsed : Duration) (d : Direction) (x : Array α) :
    g₀.Reachable (LeastSquares.apply elapsed d g x).1 := by
  rw [apply_eq]
  exact h.evaluateOne d elapsed x

theorem Reachable.iterate (elapsed : Duration) (threshold : α) : ∀ (left : ℕ) {g : Graph α}
    (st : State α), g₀.Reachable g →
      g₀.Reachable (LeastSquares.iterate elapsed threshold left g st).1
  | 0, g, st, h => by
    unfold LeastSquares.iterate
    split <;> exact h
  | left + 1, g, st, h => by
    unfold LeastSquares.iterate
    have hp := h.apply elapsed .forward st.p
    split
    · exact h
    · rcases ha : LeastSquares.apply elapsed .forward g st.p with ⟨g₁, stop | q⟩
      · rwa [ha] at hp
      · rw [ha] at hp
        dsimp only
        split
        · exact hp
        · have hr := hp.apply elapsed .adjoint (Kernel.axpy (-(st.gamma / Kernel.dot q q)) q st.r)
          split
          next g₂ stop hb => rwa [hb] at hr
          next g₂ s hb =>
            rw [hb] at hr
            exact iterate elapsed threshold left _ hr

/-- A solver goes through states that the operations on the graph lead to. -/
theorem Reachable.solve (h : g₀.Reachable g) (elapsed : Duration) (b : Array α)
    (options : Options α) : g₀.Reachable (LeastSquares.solve elapsed g b options).1 := by
  unfold LeastSquares.solve
  have hb := h.apply elapsed .adjoint b
  split
  · exact h
  · split
    · exact h
    · dsimp only
      rcases ha : LeastSquares.apply elapsed .adjoint g b with ⟨g₁, stop | s⟩
      · rwa [ha] at hb
      · rw [ha] at hb
        dsimp only
        have hi := hb.iterate elapsed (options.tol * Kernel.norm2 s) options.maxIters.toNat
          ⟨Array.replicate g.inputLength 0, b, s, Kernel.dot s s, []⟩
        split
        next g₂ stop hr => rwa [hr] at hi
        next g₂ st converged hr => rwa [hr] at hi

end

end Graph

end MatrixFree
