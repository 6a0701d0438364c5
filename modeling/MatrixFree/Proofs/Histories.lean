import MatrixFree.Proofs.Evaluations

/-!
# Histories of a graph

How operations lead from one graph to another, with the evaluations that succeeded on the way
(`Graph.History`). Each of them is counted once and nothing else is (`Graph.History.evals_eq`). A
solver takes its steps on a graph that was built without a failure: one adjoint evaluation, and a
forward and an adjoint one in each iteration (`Graph.Valid.exists_solve`).
-/

namespace MatrixFree

open MatrixFree.Topology Wiring

namespace EvalStats

theorem counter_record (s : EvalStats) (d : Direction) (elapsed : Duration) :
    (s.record d elapsed).counter d = (s.counter d).record elapsed := by
  cases d <;> rfl

theorem counter_record_of_ne (s : EvalStats) {d d' : Direction} (h : d' ≠ d) (elapsed : Duration) :
    (s.record d elapsed).counter d' = s.counter d' := by
  cases d <;> cases d' <;> first | rfl | exact absurd rfl h

theorem evals_record (s : EvalStats) (d d' : Direction) (elapsed : Duration) :
    ((s.record d elapsed).counter d').evals
      = (s.counter d').evals + UInt64.ofNat ([d].count d') := by
  by_cases h : d' = d
  · subst h
    rw [counter_record, List.count_singleton_self]
    rfl
  · rw [counter_record_of_ne s h, List.count_singleton, if_neg (by simpa using Ne.symm h)]
    exact (UInt64.add_zero _).symm

end EvalStats

namespace Graph

variable {α : Type}

section

variable {g g' : Graph α} {d : Direction} {x : Array α}

theorem stats_setBuffer (g : Graph α) (role : BufferRole) (data : Array α) :
    (g.setBuffer role data).stats = g.stats := by
  unfold setBuffer
  dsimp only
  split <;> rfl

theorem stats_copyInput (g : Graph α) (d : Direction) (data : Array α) :
    (g.copyInput d data).1.stats = g.stats := by
  by_cases h : data.size = (g.buffer d.inputRole).size
  · rw [copyInput_of_eq h]
    exact stats_setBuffer g _ _
  · rw [copyInput_of_ne h]

theorem stats_write {role : BufferRole} {start : ℕ} (h : g.write role start x = .ok g') :
    g'.stats = g.stats := by
  obtain ⟨part, -, h⟩ := bind_eq_ok_iff.1 h
  obtain rfl := Except.ok.inj h
  exact stats_setBuffer g _ _

variable [Scalar α] {elapsed : Duration}

theorem stats_of_build {specs : List (NodeSpec α)} {edges : EdgeRegistry} {root terminal : NodeId}
    {config : Config} (h : build specs root terminal edges config = .ok g) : g.stats = .zero := by
  obtain ⟨-, -, -, rfl⟩ := build_eq_ok_iff.1 h
  rfl

theorem stats_evaluate (h : g.evaluate d elapsed = (g', .ok ())) :
    g'.stats = g.stats.record d elapsed := by
  unfold evaluate at h
  split at h
  · cases h
  · obtain ⟨rfl, -⟩ := Prod.mk.inj h
    rfl

theorem stats_evaluate_of_error {stop : Stop GraphError}
    (h : g.evaluate d elapsed = (g', .error stop)) : g'.stats = g.stats := by
  unfold evaluate at h
  split at h
  · obtain ⟨rfl, -⟩ := Prod.mk.inj h
    rfl
  · cases h

end

variable [Scalar α]

/-- Operations lead from `g₀` to a graph, and on the way the evaluations in the given directions
succeeded, in this order. -/
inductive History (g₀ : Graph α) : List Direction → Graph α → Prop
  | nil : History g₀ [] g₀
  | copyInput {log : List Direction} {g : Graph α} (d : Direction) (data : Array α) :
      History g₀ log g → History g₀ log (g.copyInput d data).1
  | write {log : List Direction} {g g' : Graph α} (role : BufferRole) (start : ℕ)
      (data : Array α) :
      History g₀ log g → g.write role start data = .ok g' → History g₀ log g'
  | evaluate {log : List Direction} {g g' : Graph α} (d : Direction) (elapsed : Duration) :
      History g₀ log g → g.evaluate d elapsed = (g', .ok ()) → History g₀ (log ++ [d]) g'
  | failed {log : List Direction} {g g' : Graph α} {stop : Stop GraphError} (d : Direction)
      (elapsed : Duration) :
      History g₀ log g → g.evaluate d elapsed = (g', .error stop) → History g₀ log g'

namespace History

variable {g₀ g g' : Graph α} {log log' : List Direction} {d : Direction}

theorem trans (h : g₀.History log g) (h' : g.History log' g') : g₀.History (log ++ log') g' := by
  induction h' with
  | nil => rwa [List.append_nil]
  | copyInput d data _ ih => exact .copyInput d data ih
  | write role start data _ hw ih => exact .write role start data ih hw
  | evaluate d elapsed _ he ih =>
    rw [← List.append_assoc]
    exact .evaluate d elapsed ih he
  | failed d elapsed _ he ih => exact .failed d elapsed ih he

theorem reachable (h : g₀.History log g) : g₀.Reachable g := by
  induction h with
  | nil => exact .refl
  | copyInput d data _ ih => exact .copyInput d data ih
  | write role start data _ hw ih => exact .write role start data ih hw
  | evaluate d elapsed _ he ih =>
    have := ih.evaluate d elapsed
    rwa [he] at this
  | failed d elapsed _ he ih =>
    have := ih.evaluate d elapsed
    rwa [he] at this

/-- The counters, which are machine words, tell how many evaluations succeeded. -/
theorem evals_eq (h : g₀.History log g) (d : Direction) :
    (g.stats.counter d).evals = (g₀.stats.counter d).evals + UInt64.ofNat (log.count d) := by
  induction h with
  | nil => exact (UInt64.add_zero _).symm
  | copyInput d' data _ ih => rw [stats_copyInput, ih]
  | write role start data _ hw ih => rw [stats_write hw, ih]
  | evaluate d' elapsed _ he ih =>
    rw [stats_evaluate he, EvalStats.evals_record, ih, List.count_append, UInt64.ofNat_add,
      UInt64.add_assoc]
  | failed d' elapsed _ he ih => rw [stats_evaluate_of_error he, ih]

end History

/-! ### Evaluations of a vector -/

section

variable {specs : List (NodeSpec α)} {edges : EdgeRegistry} {root terminal : NodeId}
  {config : Config} {g : Graph α} {d : Direction} {x : Array α}

/-- An evaluation of a vector of the right length goes through, and is a single evaluation. -/
theorem Valid.exists_evaluated (h : Valid specs edges root terminal config g)
    (hx : x.size = (g.buffer d.inputRole).size) (elapsed : Duration) :
    ∃ g₁ g₂, g.copyInput d x = (g₁, .ok ()) ∧ g₁.evaluate d elapsed = (g₂, .ok ())
      ∧ Valid specs edges root terminal config g₂ ∧ g.History [d] g₂ := by
  obtain ⟨g₁, hcopy, h₁, -⟩ := h.exists_copyInput hx
  obtain ⟨l, nodes, -, hflow, heval⟩ := h₁.exists_flow d
  have hhist : g.History [] g₁ := by
    have := History.copyInput d x (History.nil : g.History [] g)
    rwa [hcopy] at this
  exact ⟨g₁, _, hcopy, heval elapsed, h₁.of_flow _ hflow, .evaluate d elapsed hhist (heval elapsed)⟩

end

end Graph

/-! ### Solving -/

namespace LeastSquares

open MatrixFree.Graph

/-- One forward and one adjoint evaluation for each of `k` iterations. -/
def rounds (k : ℕ) : List Direction := (List.replicate k [Direction.forward, .adjoint]).flatten

theorem rounds_succ (k : ℕ) : rounds (k + 1) = [.forward, .adjoint] ++ rounds k := by
  rw [rounds, List.replicate_succ, List.flatten_cons, ← rounds]

/-- The evaluations that a solver makes to come to its result. It makes one more if it stops before
the last iteration with nothing found: the one that mapped the direction of its step to zero. -/
def Result.evaluations {α : Type} (r : Result α) (maxIters : ℕ) : List Direction :=
  .adjoint :: rounds r.iterations
    ++ if r.converged ∨ r.iterations = maxIters then [] else [.forward]

variable {α : Type} [SolverScalar α] {specs : List (NodeSpec α)} {edges : EdgeRegistry}
  {root terminal : NodeId} {config : Config} {g : Graph α} {d : Direction} {x : Array α}

theorem exists_apply (h : Valid specs edges root terminal config g)
    (hx : x.size = (g.buffer d.inputRole).size) (elapsed : Duration) :
    ∃ g' out, apply elapsed d g x = (g', .ok out)
      ∧ Valid specs edges root terminal config g' ∧ g.History [d] g'
      ∧ out.size = (g.buffer d.outputRole).size := by
  obtain ⟨g₁, g₂, hcopy, heval, h₂, hhist⟩ := h.exists_evaluated hx elapsed
  refine ⟨g₂, g₂.buffer d.outputRole, ?_, h₂, hhist, h₂.size_buffer h _⟩
  rw [apply_eq, evaluateOne_eq hcopy heval]
  rfl

/-- The direction and the residual are as long as what a graph takes in and puts out. -/
structure State.Fits (st : State α) (g : Graph α) : Prop where
  direction : st.p.size = (g.buffer .forwardInput).size
  residual : st.r.size = (g.buffer .forwardOutput).size

/-- An iteration evaluates the graph forward, and then back from a new residual. What it makes of
the results fits the graph again. -/
theorem exists_round {st : State α} (h : Valid specs edges root terminal config g)
    (hst : st.Fits g) (elapsed : Duration) :
    ∃ g₁ q, apply elapsed .forward g st.p = (g₁, .ok q)
      ∧ Valid specs edges root terminal config g₁ ∧ g.History [.forward] g₁
      ∧ ∀ step : α, ∃ g₂ s, apply elapsed .adjoint g₁ (Kernel.axpy step q st.r) = (g₂, .ok s)
        ∧ Valid specs edges root terminal config g₂ ∧ g.History [.forward, .adjoint] g₂
        ∧ ∀ x, (advance st (Kernel.axpy step q st.r) s x).Fits g₂ := by
  obtain ⟨g₁, q, hq, h₁, hist₁, -⟩ := exists_apply (d := .forward) h hst.direction elapsed
  refine ⟨g₁, q, hq, h₁, hist₁, fun step => ?_⟩
  have hr : (Kernel.axpy step q st.r).size = (g₁.buffer .forwardOutput).size :=
    (Kernel.size_axpy step q st.r).trans (hst.residual.trans (h.size_buffer h₁ _))
  obtain ⟨g₂, s, hs, h₂, hist₂, hssize⟩ := exists_apply (d := .adjoint) h₁ hr elapsed
  refine ⟨g₂, s, hs, h₂, hist₁.trans hist₂, fun x => ⟨?_, hr.trans (h₁.size_buffer h₂ _)⟩⟩
  have hs₂ : s.size = (g₂.buffer .forwardInput).size := hssize.trans (h₁.size_buffer h₂ _)
  unfold advance
  dsimp only
  rw [Array.size_zipWith, hs₂, hst.direction, h.size_buffer h₂]
  exact Nat.min_self _

/-- The iteration never fails on a state that fits the graph. -/
theorem exists_iterate (elapsed : Duration) (threshold : α) : ∀ (left : ℕ) (st : State α)
    {g : Graph α}, Valid specs edges root terminal config g → st.Fits g →
    ∃ k st' converged g', iterate elapsed threshold left g st = (g', .ok (st', converged))
      ∧ k ≤ left ∧ st'.trace.length = st.trace.length + k
      ∧ Valid specs edges root terminal config g'
      ∧ g.History (rounds k ++ if converged ∨ k = left then [] else [.forward]) g' := by
  intro left
  induction left with
  | zero =>
    intro st g h _
    unfold iterate
    split
    · exact ⟨0, st, true, g, rfl, le_rfl, rfl, h, .nil⟩
    · exact ⟨0, st, false, g, rfl, le_rfl, rfl, h, .nil⟩
  | succ left ih =>
    intro st g h hst
    obtain ⟨g₁, q, hq, h₁, hist₁, hround⟩ := exists_round h hst elapsed
    unfold iterate
    split
    · exact ⟨0, st, true, g, rfl, Nat.zero_le _, rfl, h, .nil⟩
    · rw [hq]
      dsimp only
      split
      · exact ⟨0, st, false, g₁, rfl, Nat.zero_le _, rfl, h₁, hist₁⟩
      · obtain ⟨g₂, s, hs, h₂, hist₂, hfits⟩ := hround (-(st.gamma / Kernel.dot q q))
        rw [hs]
        obtain ⟨k, st', converged, g', hit, hk, htrace, h', hist'⟩ :=
          ih (advance st (Kernel.axpy (-(st.gamma / Kernel.dot q q)) q st.r) s
            (Kernel.axpy (st.gamma / Kernel.dot q q) st.p st.x)) h₂ (hfits _)
        refine ⟨k + 1, st', converged, g', hit, Nat.succ_le_succ hk, ?_, h', ?_⟩
        · rw [htrace, advance]
          dsimp only
          rw [List.length_cons]
          omega
        · rw [rounds_succ]
          simpa using hist₂.trans hist'

section

variable {elapsed : Duration} {b : Array α} {options : Options α}

theorem solve_of_length_ne (hb : b.size ≠ g.outputLength) : solve elapsed g b options
    = (g, .error (.fault (.rhsLength g.outputLength b.size))) :=
  if_pos hb

theorem solve_of_invalid_tolerance (hb : b.size = g.outputLength)
    (ht : (SolverScalar.isNaN options.tol || SolverScalar.lt options.tol 0) = true) :
    solve elapsed g b options = (g, .error (.fault (.invalidTolerance options.tol))) := by
  unfold solve
  rw [if_neg (not_not.2 hb), if_pos ht]

/-- What is not refused comes to a result. -/
theorem exists_solve_eq_ok (h : Valid specs edges root terminal config g)
    (hb : b.size = g.outputLength)
    (ht : ¬(SolverScalar.isNaN options.tol || SolverScalar.lt options.tol 0) = true) :
    ∃ g' r, solve elapsed g b options = (g', .ok r)
      ∧ Valid specs edges root terminal config g'
      ∧ g.History (r.evaluations options.maxIters.toNat) g' := by
  obtain ⟨g₁, s, hs, h₁, hist₁, hssize⟩ := exists_apply (d := .adjoint) h hb elapsed
  obtain ⟨k, st', converged, g', hit, -, htrace, h', hist'⟩ := exists_iterate elapsed
    (options.tol * Kernel.norm2 s) options.maxIters.toNat
    ⟨Array.replicate g.inputLength 0, b, s, Kernel.dot s s, []⟩ h₁
    ⟨hssize.trans (h.size_buffer h₁ _), hb.trans (h.size_buffer h₁ _)⟩
  refine ⟨g', ⟨st'.x, st'.trace.length, Kernel.norm2 st'.r, converged, st'.trace.reverse⟩,
    ?_, h', ?_⟩
  · unfold solve
    rw [if_neg (not_not.2 hb), if_neg ht]
    dsimp only
    rw [hs]
    dsimp only
    rw [hit]
  · rw [List.length_nil, Nat.zero_add] at htrace
    rw [Result.evaluations, htrace]
    exact hist₁.trans hist'

end

/-- On a graph that was built a solve is refused, and nothing is evaluated, or it comes to a
result. -/
theorem exists_solve (h : Valid specs edges root terminal config g) (elapsed : Duration)
    (b : Array α) (options : Options α) :
    (∃ e, solve elapsed g b options = (g, .error (.fault e)))
      ∨ ∃ g' r, solve elapsed g b options = (g', .ok r)
          ∧ Valid specs edges root terminal config g'
          ∧ g.History (r.evaluations options.maxIters.toNat) g' := by
  by_cases hb : b.size = g.outputLength
  · by_cases ht : (SolverScalar.isNaN options.tol || SolverScalar.lt options.tol 0) = true
    · exact .inl ⟨_, solve_of_invalid_tolerance hb ht⟩
    · exact .inr (exists_solve_eq_ok h hb ht)
  · exact .inl ⟨_, solve_of_length_ne hb⟩

end LeastSquares

end MatrixFree
