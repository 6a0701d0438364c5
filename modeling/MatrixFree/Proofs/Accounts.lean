import Mathlib.Algebra.Order.Ring.Nat
import Mathlib.Algebra.Field.Rat
import MatrixFree.Proofs.Iterations
import MatrixFree.Proofs.SolveOutcomes

/-!
# What the result of a solve accounts for

The count of a result, its trace, its norm and its verdict are all told by the test at which the
loop was left, whatever the scalars mean: the trace numbers the updates
(`LeastSquares.Tested.map_count_trace`), its last entry holds what was tested last, and every entry
before it failed the test (`LeastSquares.Tested.not_le_of_mem_tail`). The counters of the graph tell
one evaluation more than that only if the loop was broken off (`LeastSquares.solve_accounts`).
-/

namespace MatrixFree.LeastSquares

open MatrixFree.Graph

theorem count_rounds (d : Direction) : ∀ k : ℕ, (rounds k).count d = k
  | 0 => rfl
  | k + 1 => by
    rw [rounds_succ, List.count_append, count_rounds d k, Nat.add_comm]
    cases d <;> rfl

theorem Result.count_adjoint_evaluations {α : Type} (r : Result α) (maxIters : ℕ) :
    (r.evaluations maxIters).count .adjoint = r.iterations + 1 := by
  have hlast : (if r.converged ∨ r.iterations = maxIters then [] else [Direction.forward]).count
      .adjoint = 0 := by
    split <;> rfl
  rw [evaluations, List.count_append, List.count_cons_self, count_rounds, hlast]

theorem Result.count_forward_evaluations {α : Type} (r : Result α) (maxIters : ℕ) :
    (r.evaluations maxIters).count .forward
      = r.iterations + if r.converged ∨ r.iterations = maxIters then 0 else 1 := by
  have hne : Direction.adjoint ≠ .forward := nofun
  rw [evaluations, List.count_append, List.count_cons_of_ne hne, count_rounds]
  split <;> rfl

variable {α : Type} [SolverScalar α] {specs : List (NodeSpec α)} {edges : EdgeRegistry}
  {root terminal : NodeId} {config : Config} {g g' g₀ g₁ : Graph α} {elapsed : Duration}
  {b s : Array α} {options : Options α} {threshold : α} {k : ℕ} {st : State α}

/-- The body of the loop is entered after `k` updates and left in the middle, since the operator
maps the direction to zero. -/
def BreaksOff (elapsed : Duration) (g : Graph α) (b : Array α) (options : Options α) (k : ℕ) :
    Prop :=
  ∃ threshold g₁ s st, Tested elapsed g b options threshold k g₁ s st
    ∧ Enters options threshold k st
    ∧ ∃ g₂ q, apply elapsed .forward g₁ st.p = (g₂, .ok q) ∧ Scalar.isZero (Kernel.dot q q) = true

namespace Tested

theorem map_count_trace (h : Tested elapsed g b options threshold k g₁ s st) :
    st.trace.reverse.map Iteration.count = List.range' 1 k := by
  induction h with
  | start => rfl
  | @update k _ _ _ _ _ _ st h _ _ _ _ _ ih =>
    rw [List.range'_1_concat, ← ih, advance, List.reverse_cons, List.map_append, h.length_trace,
      Nat.add_comm k 1]
    rfl

theorem head?_trace (h : Tested elapsed g b options threshold (k + 1) g₁ s st) :
    st.trace.head? = some ⟨k + 1, Kernel.norm2 st.r, SolverScalar.sqrt st.gamma⟩ := by
  cases h with
  | update h => rw [advance, h.length_trace]; rfl

/-- What was tested before failed the test. -/
theorem not_le_of_mem_tail (h : Tested elapsed g b options threshold k g₁ s st) :
    ∀ entry ∈ st.trace.tail, ¬ SolverScalar.le entry.normalResidualNorm threshold = true := by
  induction h with
  | start => exact fun _ hentry => by cases hentry
  | @update k _ _ _ _ _ _ st h hle _ _ _ _ ih =>
    intro entry hentry
    have hentry : entry ∈ st.trace := hentry
    rcases k with _ | k
    · rw [List.eq_nil_of_length_eq_zero h.length_trace] at hentry
      cases hentry
    · obtain ⟨older, hst⟩ := List.head?_eq_some_iff.1 h.head?_trace
      rw [hst] at hentry ih
      rcases List.mem_cons.1 hentry with rfl | hentry
      · exact hle
      · exact ih entry hentry

/-- The solution is as long as what the graph takes in. -/
theorem fits (h : Tested elapsed g b options threshold k g₁ s st)
    (hv : Valid specs edges root terminal config g) (hb : b.size = g.outputLength) :
    Valid specs edges root terminal config g₁ ∧ st.Fits g₁ ∧ st.x.size = g.inputLength := by
  induction h with
  | start hs _ =>
    obtain ⟨g₁', s', hs', h₁, -, hsize⟩ := exists_apply (d := .adjoint) hv hb elapsed
    obtain ⟨rfl, rfl⟩ := apply_unique hs hs'
    exact ⟨h₁, ⟨hsize.trans (hv.size_buffer h₁ _), hb.trans (hv.size_buffer h₁ _)⟩,
      Array.size_replicate⟩
  | @update k g₁ g₂ g₃ s q s' st h _ _ hq _ hs ih =>
    obtain ⟨h₁, hst, hx⟩ := ih
    obtain ⟨g₂', q', hq', -, -, hround⟩ := exists_round h₁ hst elapsed
    obtain ⟨rfl, rfl⟩ := apply_unique hq hq'
    obtain ⟨g₃', s'', hs', h₃, -, hfits⟩ := hround (-(st.gamma / Kernel.dot q q))
    obtain ⟨rfl, rfl⟩ := apply_unique hs hs'
    refine ⟨h₃, hfits _, ?_⟩
    exact (Kernel.size_axpy _ _ _).trans hx

/-- Where the loop is left, it is broken off exactly if its body was entered. -/
theorem breaksOff_iff (h : Tested elapsed g b options threshold k g₁ s st)
    (hstop : Stops elapsed options threshold k g₁ st) :
    BreaksOff elapsed g b options k ↔ Enters options threshold k st := by
  constructor
  · rintro ⟨threshold', g₂, s', st', h', henter, -⟩
    obtain rfl := h.threshold_eq h'
    obtain ⟨-, -, rfl⟩ := h.unique h'
    exact henter
  · intro henter
    rcases hstop with hle | hk | hzero
    · exact absurd hle henter.1
    · exact absurd hk henter.2.ne
    · exact ⟨threshold, g₁, s, st, h, henter, hzero⟩

end Tested

/-- Whatever the operations and comparisons of the scalars mean, a solve that is not refused comes
to a result of which all parts agree. The trace numbers the iterations, of which there are no more
than allowed, and only its last entry can be within the threshold. It is exactly if the result is
said to have converged, and its residual is that of the result. A result that has not converged used
up its iterations or broke off. There was one adjoint evaluation for each iteration and one before
them, and one forward evaluation for each iteration and one more if the loop broke off. -/
theorem solve_accounts (hbuild : build specs root terminal edges config = .ok g₀)
    (hg : g₀.Reachable g) (elapsed : Duration) (hb : b.size = g.outputLength)
    (hnan : SolverScalar.isNaN options.tol = false) (hneg : SolverScalar.lt options.tol 0 = false) :
    ∃ g' result g₁ s, solve elapsed g b options = (g', .ok result)
      ∧ apply elapsed .adjoint g b = (g₁, .ok s)
      ∧ result.trace.length = result.iterations
      ∧ result.iterations ≤ options.maxIters.toNat
      ∧ result.trace.map Iteration.count = List.range' 1 result.iterations
      ∧ (∀ entry ∈ result.trace.dropLast,
          ¬ SolverScalar.le entry.normalResidualNorm (options.tol * Kernel.norm2 s) = true)
      ∧ (0 < result.iterations → ∃ last, result.trace.getLast? = some last
          ∧ (result.converged = true
            ↔ SolverScalar.le last.normalResidualNorm (options.tol * Kernel.norm2 s) = true)
          ∧ result.residualNorm = last.residualNorm)
      ∧ (result.converged = false → result.iterations = options.maxIters.toNat
          ∨ BreaksOff elapsed g b options result.iterations)
      ∧ (g'.stats.counter .adjoint).evals
        = (g.stats.counter .adjoint).evals + UInt64.ofNat (result.iterations + 1)
      ∧ (BreaksOff elapsed g b options result.iterations → (g'.stats.counter .forward).evals
        = (g.stats.counter .forward).evals + UInt64.ofNat (result.iterations + 1))
      ∧ (¬ BreaksOff elapsed g b options result.iterations → (g'.stats.counter .forward).evals
        = (g.stats.counter .forward).evals + UInt64.ofNat result.iterations)
      ∧ result.x.size = g.inputLength := by
  have hv := hg.valid (.of_build hbuild)
  have ht : ¬(SolverScalar.isNaN options.tol || SolverScalar.lt options.tol 0) = true := by
    simp [hnan, hneg]
  obtain ⟨g', result, hsolve, -, hist⟩ : ∃ g' r, solve elapsed g b options = (g', .ok r)
    ∧ g'.Valid specs edges root terminal config
    ∧ g.History (r.evaluations options.maxIters.toNat) g' := exists_solve_eq_ok hv hb ht
  obtain ⟨threshold, g₂, s', st, h, hstop, hresult⟩ := tested_of_solve hsolve
  obtain ⟨g₁, s, hs, rfl⟩ := h.exists_start
  have hcount := h.iterate_eq.1
  have hconverged : result.converged
      = SolverScalar.le (SolverScalar.sqrt st.gamma) (options.tol * Kernel.norm2 s) :=
    congrArg Result.converged hresult
  have htrace : result.trace = st.trace.reverse := congrArg Result.trace hresult
  -- the loop broke off if it neither converged nor used up its iterations
  have hbroke : BreaksOff elapsed g b options result.iterations
      ↔ ¬(result.converged = true ∨ result.iterations = options.maxIters.toNat) := by
    rw [h.breaksOff_iff hstop, Enters, hconverged, not_or]
    exact and_congr_right fun _ => lt_iff_le_and_ne.trans (and_iff_right hcount)
  refine ⟨g', result, g₁, s, hsolve, hs, ?_, hcount, ?_, ?_, fun hpos => ?_, fun hconv => ?_,
    ?_, fun hbreak => ?_, fun hbreak => ?_, ?_⟩
  · rw [htrace, List.length_reverse, h.length_trace]
  · rw [htrace, h.map_count_trace]
  · rw [htrace, List.dropLast_reverse]
    exact fun entry hentry => h.not_le_of_mem_tail entry (List.mem_reverse.1 hentry)
  · obtain ⟨k, hk⟩ := Nat.exists_eq_succ_of_ne_zero hpos.ne'
    rw [hk] at h
    refine ⟨_, by rw [htrace, List.getLast?_reverse, h.head?_trace], ?_, ?_⟩
    · rw [hconverged]
    · exact congrArg Result.residualNorm hresult
  · by_cases hk : result.iterations = options.maxIters.toNat
    · exact .inl hk
    · exact .inr (hbroke.2 (by simp [hconv, hk]))
  · rw [hist.evals_eq, Result.count_adjoint_evaluations]
  · rw [hist.evals_eq, Result.count_forward_evaluations, if_neg (hbroke.1 hbreak)]
  · rw [hist.evals_eq, Result.count_forward_evaluations, if_pos (not_not.1 (hbroke.not.1 hbreak)),
      Nat.add_zero]
  · rw [congrArg Result.x hresult]
    exact (h.fits hv hb).2.2

theorem solve_accounts_splitting :
    SolverScalar.isNaN (⟨3, 0⟩ : Options Float).tol = false
      ∧ SolverScalar.lt (⟨3, 0⟩ : Options Float).tol 0 = false
      ∧ ∃ g' result, solve ⟨2⟩ splittingGraph #[1, 2, 3, 4, 5] ⟨3, 0⟩ = (g', .ok result)
        ∧ result.trace.length = result.iterations ∧ result.iterations ≤ 3
        ∧ (g'.stats.counter .adjoint).evals = UInt64.ofNat (result.iterations + 1)
        ∧ result.x.size = 5 := by
  have hnan : SolverScalar.isNaN (⟨3, 0⟩ : Options Float).tol = false := by decide +kernel
  have hneg : SolverScalar.lt (⟨3, 0⟩ : Options Float).tol 0 = false := by decide +kernel
  obtain ⟨g', result, -, -, hsolve, -, hlength, hle, -, -, -, -, hadjoint, -, -, hx⟩ :=
    solve_accounts build_splitting .refl ⟨2⟩ (b := #[1, 2, 3, 4, 5]) rfl hnan hneg
  exact ⟨hnan, hneg, g', result, hsolve, hlength, hle, hadjoint.trans (UInt64.zero_add _), hx⟩

end MatrixFree.LeastSquares
