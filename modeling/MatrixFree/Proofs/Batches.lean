import MatrixFree.Proofs.Histories
import MatrixFree.Proofs.Snapshots

/-!
# Batches of graphs that were built

The graphs of a batch do not touch each other: each gives what it would give alone and freshly
built, one that is given data of another length is left as it was, and the order in which they are
evaluated does not matter (`Batch.evaluateAll_independent`).
-/

namespace MatrixFree

open MatrixFree.Topology Wiring

theorem getElem?_foldl_modify {β : Type} (f : β → β) : ∀ {order : List ℕ} (l : List β),
    order.Nodup → ∀ i : ℕ, (order.foldl (fun l i => l.modify i f) l)[i]?
      = if i ∈ order then (l[i]?).map f else l[i]?
  | [], l, _, i => by rw [List.foldl_nil, if_neg List.not_mem_nil]
  | j :: order, l, hnd, i => by
    obtain ⟨hj, hnd⟩ := List.nodup_cons.1 hnd
    rw [List.foldl_cons, getElem?_foldl_modify f _ hnd]
    by_cases hij : j = i
    · subst hij
      rw [if_neg hj, if_pos List.mem_cons_self, List.getElem?_modify_eq]
      rfl
    · have hmem : i ∈ j :: order ↔ i ∈ order := by
        simp [Ne.symm hij]
      rw [List.getElem?_modify_ne f l hij]
      exact if_congr hmem.symm rfl rfl

/-- Changing all items of a list one at a time is the same in every order. -/
theorem foldl_modify_of_perm {β : Type} (f : β → β) {order : List ℕ} {l : List β}
    (h : order.Perm (List.range l.length)) :
    order.foldl (fun l i => l.modify i f) l = l.map f := by
  refine List.ext_getElem? fun i => ?_
  rw [getElem?_foldl_modify f l (h.nodup_iff.2 List.nodup_range), List.getElem?_map]
  by_cases hi : i < l.length
  · rw [if_pos (h.mem_iff.2 (List.mem_range.2 hi))]
  · rw [List.getElem?_eq_none (Nat.not_lt.1 hi)]
    split <;> rfl

/-! ### Single graphs -/

namespace Graph

variable {α : Type} [Scalar α]

/-- A graph that was built, at any time since. -/
def InUse (g : Graph α) : Prop :=
  ∃ specs edges root terminal config g₀,
    build specs root terminal edges config = .ok g₀ ∧ g₀.Reachable g

/-- Evaluated on `x`, the graph puts out `out`, whatever the result is copied over. -/
def Yields (g : Graph α) (d : Direction) (x out : Array α) : Prop :=
  ∀ elapsed stale, stale.size = out.size → ∃ g₁ g₂, g.copyInput d x = (g₁, .ok ())
    ∧ g₁.evaluate d elapsed = (g₂, .ok ()) ∧ g₂.copyOutput d stale = (out, .ok ())

variable {specs : List (NodeSpec α)} {edges : EdgeRegistry} {root terminal : NodeId}
  {config : Config} {g : Graph α} {d : Direction} {x out : Array α} {elapsed : Duration}

theorem Valid.yields (h : Valid specs edges root terminal config g)
    (hx : x.size = (g.buffer d.inputRole).size)
    (hout : ∀ elapsed, (Batch.evaluateOne d elapsed g x).2 = .ok out) : g.Yields d x out := by
  intro elapsed stale hstale
  obtain ⟨g₁, g₂, hcopy, heval, -, -⟩ := h.exists_evaluated hx elapsed
  have hresult := hout elapsed
  rw [evaluateOne_eq hcopy heval] at hresult
  obtain rfl := Except.ok.inj hresult
  exact ⟨g₁, g₂, hcopy, heval, copyOutput_of_eq hstale⟩

/-- A graph in use gives what it gives freshly built from its description. -/
theorem InUse.exists_evaluateOne (hg : g.InUse) (hx : x.size = (g.buffer d.inputRole).size)
    (elapsed : Duration) : ∃ g' fresh out, Batch.evaluateOne d elapsed g x = (g', .ok out)
      ∧ (Description.ofGraph g).toGraph = .ok fresh ∧ fresh.Yields d x out
      ∧ g'.stats = g.stats.record d elapsed := by
  obtain ⟨specs, edges, root, terminal, config, g₀, hbuild, hreach⟩ := hg
  have h₀ := Valid.of_build hbuild
  have h := hreach.valid h₀
  obtain ⟨g₁, g₂, hcopy, heval, -, -⟩ := h.exists_evaluated hx elapsed
  have hout := evaluateOne_eq hcopy heval
  refine ⟨g₂, g₀, _, hout, Description.toGraph_ofGraph hbuild hreach,
    h₀.yields (hx.trans (h.size_buffer h₀ _)) fun elapsed' => ?_, ?_⟩
  · rw [← h.evaluateOne_congr h₀ d elapsed elapsed' x, hout]
  · rw [stats_evaluate heval, ← stats_copyInput g d x, hcopy]

end Graph

/-! ### Batches -/

namespace Batch

variable {α : Type} [Scalar α]

/-- A graph of a batch with its input, and its result once it was evaluated. -/
structure Slot (α : Type) where
  graph : Graph α
  input : Array α
  result : Option (GraphCheck (Array α))

def Slot.evaluate (d : Direction) (elapsed : Duration) (s : Slot α) : Slot α :=
  ⟨(evaluateOne d elapsed s.graph s.input).1, s.input,
    some (evaluateOne d elapsed s.graph s.input).2⟩

/-- A batch whose graphs are evaluated one at a time, in the given order of their places. -/
def evaluateInOrder (d : Direction) (elapsed : Duration) (order : List ℕ) (graphs : List (Graph α))
    (inputs : List (Array α)) : List (Slot α) :=
  order.foldl (fun slots i => slots.modify i (Slot.evaluate d elapsed))
    (List.zipWith (fun g x => ⟨g, x, none⟩) graphs inputs)

variable {graphs : List (Graph α)} {inputs : List (Array α)} {order : List ℕ}

theorem evaluateInOrder_eq (d : Direction) (elapsed : Duration)
    (hlength : graphs.length = inputs.length) (horder : order.Perm (List.range graphs.length)) :
    evaluateInOrder d elapsed order graphs inputs
      = List.zipWith (fun g x => Slot.evaluate d elapsed ⟨g, x, none⟩) graphs inputs := by
  unfold evaluateInOrder
  rw [foldl_modify_of_perm, List.map_zipWith]
  rwa [List.length_zipWith, ← hlength, Nat.min_self]

/-- A batch of graphs in use is refused as a whole if it has another number of inputs. Otherwise
each graph has its result at its place. It fails exactly if its input has the wrong length, and is
then left as it was. Otherwise it gives what it gives freshly built, and that counts as one
evaluation. The order in which the graphs are evaluated does not matter. -/
theorem evaluateAll_independent (d : Direction) (elapsed : Duration) {graphs : List (Graph α)}
    (hgraphs : ∀ g ∈ graphs, g.InUse) (inputs : List (Array α)) :
    (graphs.length ≠ inputs.length → evaluateAll d elapsed graphs inputs
        = (graphs, .error (.batchSize graphs.length inputs.length)))
      ∧ (graphs.length = inputs.length → ∃ graphs' results,
          evaluateAll d elapsed graphs inputs = (graphs', .ok results)
          ∧ graphs'.length = graphs.length ∧ results.length = graphs.length
          ∧ (∀ (i : ℕ) g x, graphs[i]? = some g → inputs[i]? = some x →
              ∃ g' result, graphs'[i]? = some g' ∧ results[i]? = some result
              ∧ (x.size ≠ (g.buffer d.inputRole).size → g' = g ∧ result = .error (.fault
                  (.lengthMismatch d.inputRole (g.buffer d.inputRole).size x.size)))
              ∧ (x.size = (g.buffer d.inputRole).size → ∃ fresh out,
                  (Description.ofGraph g).toGraph = .ok fresh ∧ fresh.Yields d x out
                  ∧ result = .ok out
                  ∧ (g'.stats.counter d).evals = (g.stats.counter d).evals + 1
                  ∧ ∀ d', d' ≠ d → g'.stats.counter d' = g.stats.counter d'))
          ∧ ∀ order : List ℕ, order.Perm (List.range graphs.length) →
              (evaluateInOrder d elapsed order graphs inputs).map (·.graph) = graphs'
              ∧ (evaluateInOrder d elapsed order graphs inputs).map (·.result)
                = results.map some) := by
  refine ⟨fun hne => ?_, fun hlength => ?_⟩
  · unfold evaluateAll
    rw [if_pos hne]
  · have hpairs : (List.zipWith (evaluateOne d elapsed) graphs inputs).length = graphs.length := by
      rw [List.length_zipWith, ← hlength, Nat.min_self]
    refine ⟨(List.zipWith (evaluateOne d elapsed) graphs inputs).map (·.1),
      (List.zipWith (evaluateOne d elapsed) graphs inputs).map (·.2), ?_, ?_, ?_,
      fun i g x hg hx => ?_, fun order horder => ?_⟩
    · unfold evaluateAll
      rw [if_neg (not_not.2 hlength)]
    · rw [List.length_map, hpairs]
    · rw [List.length_map, hpairs]
    · have hpair : (List.zipWith (evaluateOne d elapsed) graphs inputs)[i]?
          = some (evaluateOne d elapsed g x) := by
        rw [List.getElem?_zipWith, hg, hx]
      refine ⟨(evaluateOne d elapsed g x).1, (evaluateOne d elapsed g x).2, ?_, ?_, fun hne => ?_,
        fun heq => ?_⟩
      · rw [List.getElem?_map, hpair]
        rfl
      · rw [List.getElem?_map, hpair]
        rfl
      · rw [Graph.evaluateOne_of_ne hne]
        exact ⟨rfl, rfl⟩
      · obtain ⟨g', fresh, out, heval, hfresh, hyields, hstats⟩ :=
          (hgraphs g (List.mem_of_getElem? hg)).exists_evaluateOne heq elapsed
        rw [heval]
        refine ⟨fresh, out, hfresh, hyields, rfl, ?_, fun d' hd => ?_⟩
        · rw [hstats, EvalStats.counter_record]
          rfl
        · rw [hstats, EvalStats.counter_record_of_ne _ hd]
    · rw [evaluateInOrder_eq d elapsed hlength horder, List.map_zipWith, List.map_zipWith,
        List.map_zipWith, List.map_map, List.map_zipWith]
      exact ⟨rfl, rfl⟩

/-- A graph that was just built, and one that was evaluated. -/
def branchings : List (Graph ℚ) :=
  [Graph.branchingGraph, (Graph.branchingGraph.evaluate .adjoint ⟨3⟩).1]

/-- The first of the inputs is too short. -/
theorem evaluateAll_independent_branchings :
    (∀ g ∈ branchings, g.InUse)
      ∧ ∃ graphs' results,
        evaluateAll .forward ⟨5⟩ branchings [#[3], #[3, -12, 25, 7]] = (graphs', .ok results)
        ∧ results[0]? = some (.error (.fault (.lengthMismatch .forwardInput 4 1)))
        ∧ graphs'[0]? = some Graph.branchingGraph
        ∧ (∃ out, results[1]? = some (.ok out)
            ∧ Graph.branchingGraph.Yields .forward #[3, -12, 25, 7] out)
        ∧ (evaluateInOrder .forward ⟨5⟩ [1, 0] branchings [#[3], #[3, -12, 25, 7]]).map (·.result)
          = results.map some := by
  have hreach : Graph.branchingGraph.Reachable (Graph.branchingGraph.evaluate .adjoint ⟨3⟩).1 :=
    .evaluate .adjoint ⟨3⟩ .refl
  have huse : ∀ {g}, Graph.branchingGraph.Reachable g → g.InUse := fun hg =>
    ⟨_, _, _, _, _, _, Graph.build_branching, hg⟩
  have hgraphs : ∀ g ∈ branchings, g.InUse := by
    simp only [branchings, List.forall_mem_cons]
    exact ⟨huse .refl, huse hreach, List.forall_mem_nil _⟩
  obtain ⟨graphs', results, hall, -, -, hone, horder⟩ :=
    (evaluateAll_independent .forward ⟨5⟩ hgraphs [#[3], #[3, -12, 25, 7]]).2 rfl
  obtain ⟨g₀, result₀, hg₀, hresult₀, hrefused, -⟩ := hone 0 _ #[3] rfl rfl
  obtain ⟨rfl, rfl⟩ := hrefused (by decide)
  obtain ⟨g₁, result₁, -, hresult₁, -, hgiven⟩ := hone 1 _ #[3, -12, 25, 7] rfl rfl
  have h₀ := Graph.Valid.of_build Graph.build_branching
  obtain ⟨fresh, out, hfresh, hyields, rfl, -⟩ :=
    hgiven (Eq.trans (by decide) (h₀.size_buffer (hreach.valid h₀) _))
  rw [Description.toGraph_ofGraph Graph.build_branching hreach] at hfresh
  obtain rfl := Except.ok.inj hfresh
  exact ⟨hgraphs, graphs', results, hall, hresult₀, hg₀, ⟨out, hresult₁, hyields⟩,
    (horder [1, 0] (by decide)).2⟩

end Batch

end MatrixFree
