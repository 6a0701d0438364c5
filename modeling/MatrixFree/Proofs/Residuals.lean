import MatrixFree.Proofs.Histories
import MatrixFree.Proofs.Iterations
import MatrixFree.Proofs.Solving

/-!
# The residuals that a solve keeps

A solve updates its residual and the normal residual from the last ones. In exact arithmetic they
are the residual of the solution so far and its image under the adjoint whenever the loop is tested
(`LeastSquares.Tracks`, `Graph.Computes.exists_tracks`), so the result and its trace tell the true
norms, however the loop is left (`Graph.solve_residuals`).
-/

namespace MatrixFree

open Buffer LeastSquares MatrixFree.Topology Wiring
open scoped RealInnerProductSpace

namespace LeastSquares

variable {n m : ℕ} {A : EuclideanSpace ℝ (Fin n) →ₗ[ℝ] EuclideanSpace ℝ (Fin m)}
  {b : EuclideanSpace ℝ (Fin m)} {x p : EuclideanSpace ℝ (Fin n)} {s : Array ℝ} {st : State ℝ}

/-- A state stands at `x`, with the residual of `x`, its image `s` under the adjoint, and the
squared length of `s`. -/
structure Tracks (A : EuclideanSpace ℝ (Fin n) →ₗ[ℝ] EuclideanSpace ℝ (Fin m))
    (b : EuclideanSpace ℝ (Fin m)) (x : EuclideanSpace ℝ (Fin n)) (s : Array ℝ) (st : State ℝ) :
    Prop where
  x_eq : st.x = ofVector x
  r_eq : st.r = ofVector (b - A x)
  s_eq : s = ofVector (A.adjoint (b - A x))
  gamma_eq : st.gamma = Kernel.dot s s
  size_p : st.p.size = n

namespace Tracks

theorem start (A : EuclideanSpace ℝ (Fin n) →ₗ[ℝ] EuclideanSpace ℝ (Fin m))
    (b : EuclideanSpace ℝ (Fin m)) : Tracks A b 0 (ofVector (A.adjoint b))
      ⟨Array.replicate n 0, ofVector b, ofVector (A.adjoint b),
        Kernel.dot (ofVector (A.adjoint b)) (ofVector (A.adjoint b)), []⟩ where
  x_eq := replicate_zero n
  r_eq := by rw [map_zero, sub_zero]
  s_eq := by rw [map_zero, sub_zero]
  gamma_eq := rfl
  size_p := size_ofVector _

variable (h : Tracks A b x s st)
include h

theorem sqrt_gamma : SolverScalar.sqrt st.gamma = ‖A.adjoint (b - A x)‖ := by
  rw [h.gamma_eq, h.s_eq, ← Kernel.norm2_ofVector]
  rfl

theorem norm2_r : Kernel.norm2 st.r = ‖b - A x‖ := by
  rw [h.r_eq, Kernel.norm2_ofVector]

/-- Moving the solution moves the residual against it. -/
theorem axpy_r (c : ℝ) : Kernel.axpy (-c) (ofVector (A p)) st.r
    = ofVector (b - A (x + c • p)) := by
  rw [h.r_eq, Kernel.axpy_ofVector, map_add, map_smul, neg_smul, ← sub_eq_add_neg, sub_sub]

theorem advance (hp : st.p = ofVector p) (c : ℝ) :
    Tracks A b (x + c • p) (ofVector (A.adjoint (b - A (x + c • p))))
      (advance st (Kernel.axpy (-c) (ofVector (A p)) st.r)
        (ofVector (A.adjoint (b - A (x + c • p)))) (Kernel.axpy c st.p st.x)) where
  x_eq := by
    rw [hp, h.x_eq, Kernel.axpy_ofVector]
    rfl
  r_eq := h.axpy_r c
  s_eq := rfl
  gamma_eq := rfl
  size_p := by
    rw [LeastSquares.advance, Array.size_zipWith, size_ofVector, h.size_p, Nat.min_self]

end Tracks

end LeastSquares

namespace Graph

variable {specs : List (NodeSpec ℝ)} {edges : EdgeRegistry} {root terminal : NodeId}
  {config : Config} {g₀ g : Graph ℝ}

/-- Whenever the loop is tested, its state tells the residuals of some solution. -/
theorem Computes.exists_tracks {A : EuclideanSpace ℝ (Fin g.inputLength) →ₗ[ℝ]
      EuclideanSpace ℝ (Fin g.outputLength)} (hA : g.Computes A) {elapsed : Duration}
    {b : EuclideanSpace ℝ (Fin g.outputLength)} {options : Options ℝ} {threshold : ℝ} {k : ℕ}
    {g₁ : Graph ℝ} {s : Array ℝ} {st : State ℝ}
    (h : Tested elapsed g (ofVector b) options threshold k g₁ s st) :
    g.Reachable g₁ ∧ ∃ x, Tracks A b x s st := by
  induction h with
  | start hs ht =>
    obtain ⟨g₂, hg₂, hs'⟩ := hA.apply_adjoint elapsed b .refl
    obtain ⟨rfl, rfl⟩ := apply_unique hs hs'
    exact ⟨hg₂, 0, .start A b⟩
  | update h _ _ hq _ hs ih =>
    obtain ⟨hg, x, hx⟩ := ih
    obtain ⟨p, hp⟩ := exists_ofVector hx.size_p
    obtain ⟨g₂, hg₂, hq'⟩ := hA.apply_forward elapsed p hg
    obtain ⟨rfl, rfl⟩ := apply_unique hq (hp ▸ hq')
    rw [hx.axpy_r] at hs
    obtain ⟨g₃, hg₃, hs'⟩ := hA.apply_adjoint elapsed _ hg₂
    obtain ⟨rfl, rfl⟩ := apply_unique hs hs'
    exact ⟨hg₃, _, hx.advance hp.symm _⟩

/-- The solution at a test of the loop is told by the number of updates. -/
theorem Computes.exists_solutions {A : EuclideanSpace ℝ (Fin g.inputLength) →ₗ[ℝ]
      EuclideanSpace ℝ (Fin g.outputLength)} (hA : g.Computes A) (elapsed : Duration)
    (b : EuclideanSpace ℝ (Fin g.outputLength)) (options : Options ℝ) :
    ∃ x : ℕ → EuclideanSpace ℝ (Fin g.inputLength), ∀ k threshold g₁ s st,
      Tested elapsed g (ofVector b) options threshold k g₁ s st → Tracks A b (x k) s st := by
  have hpoint : ∀ k, ∃ x, ∀ threshold g₁ s st,
      Tested elapsed g (ofVector b) options threshold k g₁ s st → Tracks A b x s st := fun k => by
    by_cases hk : ∃ threshold g₁ s st, Tested elapsed g (ofVector b) options threshold k g₁ s st
    · obtain ⟨threshold, g₁, s, st, h⟩ := hk
      obtain ⟨-, x, hx⟩ := hA.exists_tracks h
      refine ⟨x, fun threshold' g₂ s' st' h' => ?_⟩
      obtain rfl := h.threshold_eq h'
      obtain ⟨-, rfl, rfl⟩ := h.unique h'
      exact hx
    · exact ⟨0, fun threshold g₁ s st h => absurd ⟨threshold, g₁, s, st, h⟩ hk⟩
  choose x hx using hpoint
  exact ⟨x, hx⟩

theorem exists_solve_of_tolerance (h : Valid specs edges root terminal config g)
    (elapsed : Duration) (b : EuclideanSpace ℝ (Fin g.outputLength)) {options : Options ℝ}
    (htol : 0 ≤ options.tol) : ∃ g' result,
      solve elapsed g (ofVector b) options = (g', .ok result) := by
  have hvalid : ¬ (SolverScalar.isNaN options.tol || SolverScalar.lt options.tol 0) = true :=
    SolverScalar.isNaN_or_lt_iff.not.2 htol.not_gt
  exact (exists_solve_eq_ok h (size_ofVector b) hvalid).imp fun g' h => h.imp fun result h => h.1

/-- In exact arithmetic a solve keeps the true residuals. There is a sequence of solutions such that
at the test of the loop after `k` updates the state holds the `k`-th of them, its residual and its
normal residual. So the norms that the result and its trace tell are those of the solutions that
they belong to, whichever way the loop was left. -/
theorem solve_residuals (hbuild : build specs root terminal edges config = .ok g₀)
    (hg : g₀.Reachable g) :
    ∃ A : EuclideanSpace ℝ (Fin g.inputLength) →ₗ[ℝ] EuclideanSpace ℝ (Fin g.outputLength),
      (∀ elapsed x, (Batch.evaluateOne .forward elapsed g (ofVector x)).2 = .ok (ofVector (A x)))
      ∧ ∀ elapsed (b : EuclideanSpace ℝ (Fin g.outputLength)) (options : Options ℝ),
          0 ≤ options.tol →
          ∃ (g' : Graph ℝ) (result : Result ℝ)
            (x : ℕ → EuclideanSpace ℝ (Fin g.inputLength)),
            solve elapsed g (ofVector b) options = (g', .ok result)
            ∧ (∀ k ≤ result.iterations, ∃ threshold g₁ s st,
                Tested elapsed g (ofVector b) options threshold k g₁ s st)
            ∧ (∀ threshold k g₁ s st, Tested elapsed g (ofVector b) options threshold k g₁ s st →
                k ≤ result.iterations ∧ Tracks A b (x k) s st)
            ∧ result.x = ofVector (x result.iterations)
            ∧ result.residualNorm = ‖b - A (x result.iterations)‖
            ∧ result.trace = (List.range result.iterations).map fun k =>
                ⟨k + 1, ‖b - A (x (k + 1))‖, ‖A.adjoint (b - A (x (k + 1)))‖⟩ := by
  have hvalid := hg.valid (.of_build hbuild)
  obtain ⟨A, hA⟩ := exists_computes hvalid
  refine ⟨A, fun elapsed x => ?_, fun elapsed b options htol => ?_⟩
  · obtain ⟨g', -, heval⟩ := hA.forward x g .refl elapsed
    rw [heval]
  · obtain ⟨g', result, hsolve⟩ := exists_solve_of_tolerance hvalid elapsed b htol
    obtain ⟨x, hx⟩ := hA.exists_solutions elapsed b options
    obtain ⟨threshold, g₁, s, st, h, hstop, hresult⟩ := tested_of_solve hsolve
    have htracks := hx _ _ _ _ _ h
    refine ⟨g', result, x, hsolve, fun k hk => ?_, fun threshold' k g₂ s' st' h' => ⟨?_, ?_⟩,
      ?_, ?_, ?_⟩
    · obtain ⟨g₂, s', st', h'⟩ := h.exists_of_le hk
      exact ⟨threshold, g₂, s', st', h'⟩
    · obtain rfl := h.threshold_eq h'
      exact h.le_of_stops hstop h'
    · exact hx _ _ _ _ _ h'
    · rw [congrArg Result.x hresult]
      exact htracks.x_eq
    · rw [congrArg Result.residualNorm hresult]
      exact htracks.norm2_r
    · rw [congrArg Result.trace hresult]
      refine h.reverse_trace fun {i g₂ s' st'} h' => ?_
      have := hx _ _ _ _ _ h'
      rw [this.norm2_r, this.sqrt_gamma]

theorem solve_residuals_singular :
    ∃ (A : EuclideanSpace ℝ (Fin singularGraph.inputLength) →ₗ[ℝ]
        EuclideanSpace ℝ (Fin singularGraph.outputLength)) (b : _)
      (g' : Graph ℝ) (result : Result ℝ) (x : ℕ → _), ofVector b = #[1, 3]
      ∧ (∀ z, (Batch.evaluateOne .forward ⟨0⟩ singularGraph (ofVector z)).2 = .ok (ofVector (A z)))
      ∧ solve ⟨0⟩ singularGraph #[1, 3] ⟨2, 0⟩ = (g', .ok result)
      ∧ result.x = ofVector (x result.iterations)
      ∧ result.residualNorm = ‖b - A (x result.iterations)‖
      ∧ result.trace = (List.range result.iterations).map fun k =>
          ⟨k + 1, ‖b - A (x (k + 1))‖, ‖A.adjoint (b - A (x (k + 1)))‖⟩ := by
  obtain ⟨A, hA, h⟩ := solve_residuals build_singular .refl
  obtain ⟨b, hb⟩ := exists_ofVector (show #[(1 : ℝ), 3].size = singularGraph.outputLength from rfl)
  obtain ⟨g', result, x, hsolve, -, -, hx, hnorm, htrace⟩ := h ⟨0⟩ b ⟨2, 0⟩ le_rfl
  exact ⟨A, b, g', result, x, hb, hA ⟨0⟩, hb ▸ hsolve, hx, hnorm, htrace⟩

end Graph

end MatrixFree
