import MatrixFree.Proofs.Histories
import MatrixFree.Session.Basic

/-!
# Sessions on a graph that was built

No evaluation of a graph that was built fails, and each one is counted once. So an external loop is
given the status of success (`Graph.evaluate_succeeds`). Whatever operations a session carries out,
its graph stays as it was built but for the contents of the buffers, and its counters tell the
evaluations that were made (`Session.run_keeps_graph`).
-/

namespace MatrixFree

open MatrixFree.Topology Wiring

theorem Session.perform_callback {s : Session} {g g' : Graph Float} {d : Direction}
    {elapsed : Duration} (hs : s.graph = some g) (h : g.evaluate d elapsed = (g', .ok ())) :
    s.perform elapsed (.callback d true) = ({ s with graph := some g' }, .status 0) := by
  simp only [perform, hs, performOn, h]
  rfl

namespace Graph

/-- A vector is cut into three parts, one of them empty, that are put together again. Evaluations do
not check that they reach all nodes. -/
def splitting : GraphBuilder Float :=
  let parts := [.vector 2, .vector 0, .vector 3]
  let (b, split) := (GraphBuilder.empty ⟨false, true, none⟩).addNode .split [.vector 5] parts
  let (b, concat) := b.addNode .concat parts [.vector 5]
  let b := (b.connectAs ⟨0⟩ split concat).connectAs ⟨1⟩ split concat
  b.connectAs ⟨2⟩ split concat

/-- The graph of `splitting`, from the cut to what is put together. -/
def splittingGraph : Graph Float :=
  initial splitting.nodes splitting.edges ⟨0⟩ ⟨1⟩ splitting.config

theorem build_splitting :
    build splitting.nodes ⟨0⟩ ⟨1⟩ splitting.edges splitting.config = .ok splittingGraph :=
  build_of_schedule (by decide) rfl (l := [⟨0⟩, ⟨1⟩])
    (schedule_of_entries (by decide) (by decide) (by decide) (by decide))

variable {specs : List (NodeSpec Float)} {edges : EdgeRegistry} {root terminal : NodeId}
  {config : Config} {g₀ g : Graph Float}

/-- Every evaluation of a graph that was built succeeds in either direction, counts as one of that
direction, and gives an external loop the status of success. -/
theorem evaluate_succeeds (hbuild : build specs root terminal edges config = .ok g₀)
    (hg : g₀.Reachable g) (d : Direction) (elapsed : Duration) :
    ∃ g', g.evaluate d elapsed = (g', .ok ())
      ∧ (g'.stats.counter d).evals = (g.stats.counter d).evals + 1
      ∧ (∀ d', d' ≠ d → g'.stats.counter d' = g.stats.counter d')
      ∧ ∀ s : Session, s.graph = some g →
        s.perform elapsed (.callback d true) = ({ s with graph := some g' }, .status 0) := by
  obtain ⟨l, nodes, -, -, heval⟩ := (hg.valid (.of_build hbuild)).exists_flow d
  refine ⟨_, heval elapsed, ?_, fun d' hd => ?_, fun s hs => ?_⟩
  · rw [EvalStats.counter_record]
    rfl
  · exact EvalStats.counter_record_of_ne _ hd elapsed
  · exact Session.perform_callback hs (heval elapsed)

theorem evaluate_succeeds_splitting :
    ∃ g, (splittingGraph.copyInput .adjoint #[1, 2, 3, 4, 5]).1.evaluate .adjoint ⟨7⟩ = (g, .ok ())
      ∧ (g.stats.counter .adjoint).evals = 1
      ∧ (Session.start (splittingGraph.copyInput .adjoint #[1, 2, 3, 4, 5]).1).perform ⟨7⟩
          (.callback .adjoint true)
        = ({ Session.start (splittingGraph.copyInput .adjoint #[1, 2, 3, 4, 5]).1 with
              graph := some g }, .status 0) := by
  obtain ⟨g, heval, hcount, -, hperform⟩ :=
    evaluate_succeeds build_splitting (.copyInput .adjoint #[1, 2, 3, 4, 5] .refl) .adjoint ⟨7⟩
  exact ⟨g, heval, hcount, hperform _ rfl⟩

end Graph

/-! ### Runs of operations -/

namespace BufferRole

/-- The side of the outer buffer that plays a role. -/
def side : BufferRole → Side
  | forwardInput | adjointOutput => .input
  | forwardOutput | adjointInput => .output

theorem place_ofSpecs {α : Type} {specs : List (NodeSpec α)} {edges : EdgeRegistry}
    {root terminal : NodeId} (role : BufferRole) :
    role.place (ofSpecs specs edges root terminal)
      = (outer root terminal role.side, role.side) := by
  cases role <;> rfl

theorem place_eq_of_side {role role' : BufferRole} (h : role.side = role'.side) (t : Topology) :
    role.place t = role'.place t := by
  cases role <;> cases role' <;> first | rfl | cases h

end BufferRole

namespace Graph

theorem write_eq_of_side {α : Type} {role role' : BufferRole} (h : role.side = role'.side)
    (g : Graph α) (start : ℕ) (data : Array α) :
    g.write role start data = g.write role' start data := by
  unfold write buffer setBuffer
  rw [BufferRole.place_eq_of_side h]

end Graph

/-- Whether the session has the same graph after the command as before. -/
def Command.keepsGraph : Command → Bool
  | reload | finalize | drop => false
  | _ => true

/-- The evaluations that succeeded in a command, by its answer. -/
def Answer.evaluations : Command → Answer → List Direction
  | .evaluate d, done => [d]
  | .callback d _, status code => if code = 0 then [d] else []
  | .solve _ options, solved r => r.evaluations options.maxIters.toNat
  | _, _ => []

namespace Session

/-- Carries out commands one after the other, each with the time that its evaluations last for. -/
def run (s : Session) : List (Duration × Command) → Session × List Answer
  | [] => (s, [])
  | (elapsed, c) :: steps =>
    let (s, answer) := s.perform elapsed c
    let (s, answers) := s.run steps
    (s, answer :: answers)

/-- The evaluations that succeeded in a run, by its answers. -/
def evaluations (steps : List (Duration × Command)) (answers : List Answer) : List Direction :=
  (List.zipWith (fun step answer => Answer.evaluations step.2 answer) steps answers).flatten

variable {specs : List (NodeSpec Float)} {edges : EdgeRegistry} {root terminal : NodeId}
  {config : Config} {s : Session} {g g₀ : Graph Float} {elapsed : Duration} {c : Command}
  {d : Direction} {steps : List (Duration × Command)}

theorem eq_of_graph (hs : s.graph = some g) : ({ s with graph := some g } : Session) = s := by
  rw [← hs]

/-- A command that keeps the graph of a session acts on it by operations, and by its answer it
tells which evaluations succeeded. -/
theorem exists_perform (hs : s.graph = some g) (h : g.Valid specs edges root terminal config)
    (hc : c.keepsGraph = true) (elapsed : Duration) :
    ∃ s' answer g', s.perform elapsed c = (s', answer) ∧ s'.graph = some g'
      ∧ g.History (Answer.evaluations c answer) g' := by
  have hperform : s.perform elapsed c = s.performOn elapsed g c := by
    unfold perform
    rw [hs]
  rw [hperform]
  cases c with
  | copyInput d data => exact ⟨_, _, _, rfl, rfl, .copyInput d data .nil⟩
  | copyOutput d out => exact ⟨s, _, g, rfl, hs, .nil⟩
  | evaluate d =>
    obtain ⟨l, nodes, -, -, heval⟩ := h.exists_flow d
    refine ⟨{ s with graph := some _ }, .done, _, ?_, rfl, .evaluate d elapsed .nil (heval elapsed)⟩
    unfold performOn
    dsimp only
    rw [heval]
    rfl
  | callback d hasContext =>
    rcases hasContext
    · exact ⟨_, _, g, rfl, hs, .nil⟩
    · obtain ⟨l, nodes, -, -, heval⟩ := h.exists_flow d
      refine ⟨{ s with graph := some _ }, .status 0, _, ?_, rfl,
        .evaluate d elapsed .nil (heval elapsed)⟩
      unfold performOn
      dsimp only
      rw [heval]
      rfl
  | write role start data =>
    unfold performOn
    dsimp only
    rcases hw : g.write role start data with t | g'
    · exact ⟨s, .trapped t, g, rfl, hs, .nil⟩
    · exact ⟨_, .done, g', rfl, rfl, .write role start data .nil hw⟩
  | solve b options =>
    unfold performOn
    dsimp only
    rcases LeastSquares.exists_solve h elapsed b options with ⟨e, he⟩ | ⟨g', r, hr, -, hist⟩
    · rw [he]
      exact ⟨_, .unsolved e, g, rfl, rfl, .nil⟩
    · rw [hr]
      exact ⟨_, .solved r, g', rfl, rfl, hist⟩
  | reload => cases hc
  | finalize => cases hc
  | drop => cases hc

theorem exists_run : ∀ {steps : List (Duration × Command)} {s : Session} {g : Graph Float},
    s.graph = some g → g.Valid specs edges root terminal config →
    (∀ step ∈ steps, step.2.keepsGraph = true) →
    ∃ s' answers g', s.run steps = (s', answers) ∧ s'.graph = some g'
      ∧ g.History (evaluations steps answers) g'
  | [], s, g, hs, _, _ => ⟨s, [], g, rfl, hs, .nil⟩
  | (elapsed, c) :: steps, s, g, hs, h, hsteps => by
    obtain ⟨hc, hsteps⟩ := List.forall_mem_cons.1 hsteps
    obtain ⟨s₁, answer, g₁, hperform, hs₁, hist₁⟩ := exists_perform hs h hc elapsed
    obtain ⟨s', answers, g', hrun, hs', hist'⟩ :=
      exists_run hs₁ (hist₁.reachable.valid h) hsteps
    refine ⟨s', answer :: answers, g', ?_, hs', hist₁.trans hist'⟩
    unfold run
    rw [hperform]
    dsimp only
    rw [hrun]

theorem perform_copyInput_of_ne (hs : s.graph = some g) {data : Array Float}
    (h : data.size ≠ (g.buffer d.inputRole).size) (elapsed : Duration) :
    s.perform elapsed (.copyInput d data) = (s, .failed
      (.lengthMismatch d.inputRole (g.buffer d.inputRole).size data.size)) := by
  unfold perform
  rw [hs]
  dsimp only [performOn]
  rw [Graph.copyInput_of_ne h, eq_of_graph hs]
  rfl

theorem perform_copyOutput_of_ne (hs : s.graph = some g) {out : Array Float}
    (h : out.size ≠ (g.buffer d.outputRole).size) (elapsed : Duration) :
    s.perform elapsed (.copyOutput d out) = (s, .copied out (.error
      (.lengthMismatch d.outputRole (g.buffer d.outputRole).size out.size))) := by
  unfold perform
  rw [hs]
  dsimp only [performOn]
  rw [Graph.copyOutput_of_ne h]

/-- After any operations on a graph that was built all but the contents of its buffers is as it was
built. The counters tell how many of the evaluations succeeded, those of a solver included. Data of
another length than a role's buffer is refused, and nothing changes. The roles are played by two
buffers, the one that the root takes in from and the one that the terminal puts out to. -/
theorem run_keeps_graph (hbuild : Graph.build specs root terminal edges config = .ok g₀)
    (hsteps : ∀ step ∈ steps, step.2.keepsGraph = true) :
    ∃ s answers g, (start g₀).run steps = (s, answers) ∧ s.graph = some g ∧ g₀.StateOf g
      ∧ g₀.History (evaluations steps answers) g
      ∧ (∀ d, (g.stats.counter d).evals = UInt64.ofNat ((evaluations steps answers).count d))
      ∧ (∀ d data elapsed, data.size ≠ (g.buffer d.inputRole).size →
          s.perform elapsed (.copyInput d data) = (s, .failed
            (.lengthMismatch d.inputRole (g.buffer d.inputRole).size data.size)))
      ∧ (∀ d out elapsed, out.size ≠ (g.buffer d.outputRole).size →
          s.perform elapsed (.copyOutput d out) = (s, .copied out (.error
            (.lengthMismatch d.outputRole (g.buffer d.outputRole).size out.size))))
      ∧ ∀ role, ∃ node, g.nodes[(outer root terminal role.side).index]? = some node
          ∧ g.buffer role = node.data role.side
          ∧ ∀ role', role'.side = role.side → ∀ elapsed start data,
              s.perform elapsed (.write role' start data)
                = s.perform elapsed (.write role start data) := by
  have h₀ := Graph.Valid.of_build hbuild
  obtain ⟨s, answers, g, hrun, hs, hist⟩ := exists_run (s := start g₀) rfl h₀ hsteps
  have h := hist.reachable.valid h₀
  refine ⟨s, answers, g, hrun, hs, h₀.stateOf h, hist, fun d => ?_, fun d data elapsed hne => ?_,
    fun d out elapsed hne => ?_, fun role => ?_⟩
  · rw [hist.evals_eq d, Graph.stats_of_build hbuild]
    cases d <;> exact UInt64.zero_add _
  · exact perform_copyInput_of_ne hs hne elapsed
  · exact perform_copyOutput_of_ne hs hne elapsed
  · have hplace : role.place g.topology = (outer root terminal role.side, role.side) := by
      rw [h.topology_eq, BufferRole.place_ofSpecs]
    have hlt := h.place_lt role
    rw [hplace] at hlt
    have hnode := Array.getElem?_eq_getElem hlt
    refine ⟨_, hnode, ?_, fun role' hside elapsed start data => ?_⟩
    · rw [Graph.buffer_eq, hplace, Graph.contents_eq hnode]
    · unfold perform
      rw [hs]
      dsimp only [performOn]
      rw [Graph.write_eq_of_side hside]

/-- Data that is too short, an evaluation, a solve and an evaluation by an external loop. -/
def trial : List (Duration × Command) :=
  [(⟨7⟩, .copyInput .forward #[1, 2]), (⟨7⟩, .evaluate .forward),
    (⟨5⟩, .solve #[1, 2, 3, 4, 5] ⟨3, 0⟩), (⟨2⟩, .callback .adjoint true)]

theorem run_keeps_graph_trial :
    (∀ step ∈ trial, step.2.keepsGraph = true)
      ∧ ∃ s answers g, (start Graph.splittingGraph).run trial = (s, answers) ∧ s.graph = some g
        ∧ Graph.splittingGraph.StateOf g
        ∧ ∀ d, (g.stats.counter d).evals = UInt64.ofNat ((evaluations trial answers).count d) := by
  have hsteps : ∀ step ∈ trial, step.2.keepsGraph = true := by
    simp [trial, Command.keepsGraph]
  obtain ⟨s, answers, g, hrun, hs, hstate, -, hevals, -⟩ :=
    run_keeps_graph Graph.build_splitting hsteps
  exact ⟨hsteps, s, answers, g, hrun, hs, hstate, hevals⟩

end Session

end MatrixFree
