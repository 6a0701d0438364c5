import MatrixFree.Proofs.Residuals

/-!
# Every step of a solve makes the residual shorter

In exact arithmetic the loop of a solve goes on from a test only where its normal residual is not
zero. The state then holds a step of conjugate gradients (`Graph.Computes.exists_represents`), whose
direction the operator does not map to zero, so both quotients of the loop are defined. The step
takes from the squared residual what an exact search along the direction gains
(`LeastSquares.Conjugate.norm_sq_nextPoint`), so the norms that the trace tells fall strictly
(`Graph.solve_descends`).
-/

namespace MatrixFree

open Buffer LeastSquares MatrixFree.Topology Wiring
open scoped RealInnerProductSpace

namespace LeastSquares

section

variable {E F : Type*} [NormedAddCommGroup E] [InnerProductSpace ℝ E] [FiniteDimensional ℝ E]
  [NormedAddCommGroup F] [InnerProductSpace ℝ F] [FiniteDimensional ℝ F] {A : E →ₗ[ℝ] F} {b : F}
  {x p : E} {D : Submodule ℝ E}

/-- Along the direction, the squared residual falls by what the exact search gains. -/
theorem Conjugate.norm_sq_nextPoint (h : Conjugate A b D x p) (hs : normalResidual A b x ≠ 0) :
    ‖b - A (nextPoint A b x p)‖ ^ 2 = ‖b - A x‖ ^ 2
      - ⟪normalResidual A b x, normalResidual A b x⟫ ^ 2 / ⟪A p, A p⟫ := by
  have hq : ⟪A p, A p⟫ ≠ 0 := inner_self_ne_zero.2 (h.image_ne_zero hs)
  have hr : b - A (nextPoint A b x p) = (b - A x) - stepLength A b x p • A p := by
    rw [nextPoint, map_add, map_smul, sub_sub]
  -- the inner product of the residual with the image is that of the normal residual with `p`
  have hinner : ⟪b - A x, A p⟫ = ⟪normalResidual A b x, normalResidual A b x⟫ := by
    rw [← h.inner_direction, normalResidual, LinearMap.adjoint_inner_left]
  rw [hr, norm_sub_sq_real, real_inner_smul_right, hinner, norm_smul, mul_pow,
    ← real_inner_self_eq_norm_sq (A p), Real.norm_eq_abs, sq_abs, stepLength]
  field_simp
  ring

end

variable {n m : ℕ} {A : EuclideanSpace ℝ (Fin n) →ₗ[ℝ] EuclideanSpace ℝ (Fin m)}
  {b : EuclideanSpace ℝ (Fin m)} {D : Submodule ℝ (EuclideanSpace ℝ (Fin n))}
  {x p : EuclideanSpace ℝ (Fin n)} {st : State ℝ} {threshold : ℝ}

theorem Represents.normalResidual_ne_zero (h : Represents A b D x p st) (ht : 0 ≤ threshold)
    (hle : ¬ SolverScalar.le (SolverScalar.sqrt st.gamma) threshold = true) :
    normalResidual A b x ≠ 0 := fun hs =>
  hle (h.le_iff.2 (by rwa [hs, norm_zero]))

theorem Tested.threshold_nonneg {elapsed : Duration} {g g₁ : Graph ℝ} {b s : Array ℝ}
    {options : Options ℝ} {k : ℕ} (h : Tested elapsed g b options threshold k g₁ s st)
    (htol : 0 ≤ options.tol) : 0 ≤ threshold := by
  obtain ⟨g₀, s₀, -, rfl⟩ := h.exists_start
  exact mul_nonneg htol (Real.sqrt_nonneg _)

end LeastSquares

namespace Kernel

variable {x y : Array ℝ}

theorem dot_self_nonneg (x : Array ℝ) : 0 ≤ dot x x := by
  obtain ⟨v, hv⟩ := exists_ofVector (rfl : x.size = x.size)
  rw [← hv, dot_ofVector]
  exact real_inner_self_nonneg

theorem norm2_lt_of_dot_lt (h : dot x x < dot y y) : norm2 x < norm2 y :=
  Real.sqrt_lt_sqrt (dot_self_nonneg x) h

end Kernel

namespace Graph

variable {specs : List (NodeSpec ℝ)} {edges : EdgeRegistry} {root terminal : NodeId}
  {config : Config} {g₀ g g₁ : Graph ℝ}

section

variable {A : EuclideanSpace ℝ (Fin g.inputLength) →ₗ[ℝ] EuclideanSpace ℝ (Fin g.outputLength)}
  (hA : g.Computes A) {elapsed : Duration} {b : EuclideanSpace ℝ (Fin g.outputLength)}
  {options : Options ℝ} (htol : 0 ≤ options.tol) {threshold : ℝ} {k : ℕ} {s : Array ℝ}
  {st : State ℝ}
include hA htol

/-- Whenever the loop is tested, its state holds a step of conjugate gradients. -/
theorem Computes.exists_represents
    (h : Tested elapsed g (ofVector b) options threshold k g₁ s st) :
    g.Reachable g₁ ∧ ∃ D x p, Represents A b D x p st := by
  induction h with
  | start hs ht =>
    obtain ⟨g₂, hg₂, hs'⟩ := hA.apply_adjoint elapsed b .refl
    obtain ⟨rfl, rfl⟩ := apply_unique hs hs'
    exact ⟨hg₂, _, _, _, .start A b⟩
  | update h hle _ hq _ hs ih =>
    obtain ⟨hg, D, x, p, hx⟩ := ih
    have hne := hx.normalResidual_ne_zero (h.threshold_nonneg htol) hle
    obtain ⟨g₂, hg₂, hq'⟩ := hA.apply_forward elapsed p hg
    rw [← hx.p_eq] at hq'
    obtain ⟨rfl, rfl⟩ := apply_unique hq hq'
    rw [hx.axpy_r] at hs
    obtain ⟨g₃, hg₃, hs'⟩ := hA.apply_adjoint elapsed _ hg₂
    obtain ⟨rfl, rfl⟩ := apply_unique hs hs'
    rw [hx.axpy_r, hx.axpy_x]
    exact ⟨hg₃, _, _, _, hx.advance hne⟩

/-- A step from a test where the loop goes on: neither divisor is zero, the loop comes to its next
test, and the squared residual falls. -/
theorem Computes.exists_step (h : Tested elapsed g (ofVector b) options threshold k g₁ s st)
    (henter : Enters options threshold k st) :
    0 < st.gamma ∧ ∃ g₂ q g₃ s' st', apply elapsed .forward g₁ st.p = (g₂, .ok q)
      ∧ 0 < Kernel.dot q q ∧ Tested elapsed g (ofVector b) options threshold (k + 1) g₃ s' st'
      ∧ Kernel.dot st'.r st'.r = Kernel.dot st.r st.r - st.gamma ^ 2 / Kernel.dot q q := by
  obtain ⟨hg, D, x, p, hx⟩ := hA.exists_represents htol h
  have hne := hx.normalResidual_ne_zero (h.threshold_nonneg htol) henter.1
  have hgamma : 0 < st.gamma := hx.gamma_eq ▸ real_inner_self_pos.2 hne
  obtain ⟨g₂, hg₂, hq⟩ := hA.apply_forward elapsed p hg
  rw [← hx.p_eq] at hq
  have hqq : 0 < Kernel.dot (ofVector (A p)) (ofVector (A p)) := by
    rw [Kernel.dot_ofVector]
    exact real_inner_self_pos.2 (hx.conjugate.image_ne_zero hne)
  obtain ⟨g₃, -, hs⟩ := hA.apply_adjoint elapsed (b - A (nextPoint A b x p)) hg₂
  rw [← hx.axpy_r] at hs
  refine ⟨hgamma, g₂, _, g₃, _, _, hq, hqq, .update h henter.1 henter.2 hq
    (fun hz => hqq.ne' ((ExactScalar.isZero_iff _).1 hz)) hs, ?_⟩
  rw [advance, hx.axpy_r, hx.r_eq, Kernel.dot_ofVector, Kernel.dot_ofVector, Kernel.dot_ofVector,
    real_inner_self_eq_norm_sq, real_inner_self_eq_norm_sq (b - A x), hx.gamma_eq]
  exact hx.conjugate.norm_sq_nextPoint hne

/-- The norm of the residual falls from test to test: those of the trace, the last entry first, and
that of the right-hand side ascend. -/
theorem Computes.pairwise_norms (h : Tested elapsed g (ofVector b) options threshold k g₁ s st) :
    ∃ norms, st.trace.map Iteration.residualNorm ++ [Kernel.norm2 (ofVector b)]
        = Kernel.norm2 st.r :: norms ∧ (Kernel.norm2 st.r :: norms).Pairwise (· < ·) := by
  induction h with
  | start => exact ⟨[], rfl, List.pairwise_singleton _ _⟩
  | update h hle hk hq hqq hs ih =>
    obtain ⟨norms, hnorms, hpair⟩ := ih
    obtain ⟨hgamma, g₂, q, g₃, s', st', -, hpos, h', hfall⟩ := hA.exists_step htol h ⟨hle, hk⟩
    obtain ⟨-, rfl, rfl⟩ := h'.unique (.update h hle hk hq hqq hs)
    have hlt := Kernel.norm2_lt_of_dot_lt (hfall.trans_lt (sub_lt_self _ (by positivity)))
    refine ⟨_, congrArg (_ :: ·) hnorms, List.pairwise_cons.2 ⟨fun norm hmem => ?_, hpair⟩⟩
    rcases List.mem_cons.1 hmem with rfl | hmem
    · exact hlt
    · exact hlt.trans ((List.pairwise_cons.1 hpair).1 norm hmem)

end

/-- In exact arithmetic every step of a solve is defined and makes the residual shorter. Wherever
the body of the loop is entered, neither divisor is zero, so the direction is not one that the
operator maps to zero, and the loop comes to its next test with a squared residual that is smaller
by the square of the first divisor over the second. So the solve converges or makes all of its
iterations, and the norms of the right-hand side and of the trace fall strictly. -/
theorem solve_descends (hbuild : build specs root terminal edges config = .ok g₀)
    (hg : g₀.Reachable g) (elapsed : Duration) {b : Array ℝ} (hb : b.size = g.outputLength)
    {options : Options ℝ} (htol : 0 ≤ options.tol) :
    ∃ g' result, solve elapsed g b options = (g', .ok result)
      ∧ (∀ k < result.iterations, ∃ threshold g₁ s st,
          Tested elapsed g b options threshold k g₁ s st ∧ Enters options threshold k st)
      ∧ (∀ threshold k g₁ s st, Tested elapsed g b options threshold k g₁ s st →
          Enters options threshold k st → k < result.iterations ∧ 0 < st.gamma
            ∧ ∃ g₂ q g₃ s' st', apply elapsed .forward g₁ st.p = (g₂, .ok q)
              ∧ 0 < Kernel.dot q q ∧ Tested elapsed g b options threshold (k + 1) g₃ s' st'
              ∧ Kernel.dot st'.r st'.r = Kernel.dot st.r st.r - st.gamma ^ 2 / Kernel.dot q q)
      ∧ (result.converged = true ∨ result.iterations = options.maxIters.toNat)
      ∧ (Kernel.norm2 b :: result.trace.map Iteration.residualNorm).Pairwise (· > ·) := by
  have hvalid := hg.valid (.of_build hbuild)
  obtain ⟨A, hA⟩ := exists_computes hvalid
  obtain ⟨b, rfl⟩ := exists_ofVector hb
  obtain ⟨g', result, hsolve⟩ := exists_solve_of_tolerance hvalid elapsed b htol
  obtain ⟨threshold, g₁, s, st, h, hstop, hresult⟩ := tested_of_solve hsolve
  refine ⟨g', result, hsolve, fun k hk => ?_, fun threshold' k g₂ s' st' h' henter => ?_, ?_, ?_⟩
  · obtain ⟨g₂, s', st', hnext⟩ := h.exists_of_le (Nat.succ_le_of_lt hk)
    cases hnext with
    | update h' hle hk' => exact ⟨threshold, _, _, _, h', hle, hk'⟩
  · obtain ⟨hgamma, g₃, q, g₄, s₁, st₁, hq, hqq, hnext, hfall⟩ := hA.exists_step htol h' henter
    obtain rfl := h.threshold_eq h'
    exact ⟨h.le_of_stops hstop hnext, hgamma, g₃, q, g₄, s₁, st₁, hq, hqq, hnext, hfall⟩
  · rcases hstop with hle | hk | ⟨g₂, q, hq, hzero⟩
    · exact .inl (hresult ▸ hle)
    · exact .inr hk
    -- the way out for a direction that is mapped to zero is not taken
    · by_contra hnot
      push Not at hnot
      rw [hresult] at hnot
      have hle := h.iterate_eq.1
      obtain ⟨-, g₃, q', g₄, s', st', hq', hqq, -⟩ := hA.exists_step htol h
        ⟨hnot.1, lt_of_le_of_ne hle fun hk => hnot.2 (h.length_trace.trans hk)⟩
      rw [hq, Prod.mk.injEq, Except.ok.injEq] at hq'
      rw [hq'.2] at hzero
      exact hqq.ne' ((ExactScalar.isZero_iff _).1 hzero)
  · obtain ⟨norms, hnorms, hpair⟩ := hA.pairwise_norms htol h
    have hlist : Kernel.norm2 (ofVector b) :: result.trace.map Iteration.residualNorm
        = (Kernel.norm2 st.r :: norms).reverse := by
      rw [← hnorms, congrArg Result.trace hresult]
      simp
    rw [hlist, List.pairwise_reverse]
    exact hpair

/-- A matrix with two rows and two columns, its elements column by column. -/
def square {α : Type} (a b c d : α) : GraphBuilder α :=
  ((GraphBuilder.empty {}).addNode (.dense ⟨2, 2, #[a, b, c, d]⟩) [.vector 2] [.vector 2]).1

/-- The graph of `square`. -/
def squareGraph {α : Type} [Scalar α] (a b c d : α) : Graph α :=
  initial (square a b c d).nodes .empty ⟨0⟩ ⟨0⟩ {}

theorem apply_adjoint_square {α : Type} [SolverScalar α] (a b c d x y : α) :
    (apply ⟨0⟩ .adjoint (squareGraph a b c d) #[x, y]).2
      = .ok #[Kernel.dot #[a, b] #[x, y], Kernel.dot #[c, d] #[x, y]] := by
  cbv

theorem build_square : build (square 1 2 2 4 : GraphBuilder ℝ).nodes ⟨0⟩ ⟨0⟩ .empty {}
    = .ok (squareGraph 1 2 2 4) :=
  build_of_schedule (by decide) rfl (l := [⟨0⟩])
    (schedule_of_entries (by decide) (by decide) (by decide) (by decide))

theorem solve_descends_square : ∃ (g' : Graph ℝ) (result : Result ℝ),
    solve ⟨0⟩ (squareGraph 1 2 2 4) #[1, 3] ⟨2, 0⟩ = (g', .ok result)
      ∧ 0 < result.iterations ∧ (result.converged = true ∨ result.iterations = 2)
      ∧ (Kernel.norm2 #[1, 3] :: result.trace.map Iteration.residualNorm).Pairwise (· > ·) := by
  have htol : 0 ≤ (⟨2, 0⟩ : Options ℝ).tol := le_rfl
  obtain ⟨g', result, hsolve, -, hsteps, hend, hnorms⟩ :=
    solve_descends build_square .refl ⟨0⟩ (b := #[1, 3]) rfl htol
  have hs : (apply ⟨0⟩ .adjoint (squareGraph (1 : ℝ) 2 2 4) #[1, 3]).2 = .ok #[7, 14] := by
    rw [apply_adjoint_square, Kernel.dot_eq_inner (by simp), Kernel.dot_eq_inner (by simp)]
    norm_num [Buffer.inner]
  -- the normal residual of the start is not zero, so the body of the loop is entered
  have henter : Enters (⟨2, 0⟩ : Options ℝ) (0 * Kernel.norm2 #[7, 14]) 0
      ⟨Array.replicate (squareGraph (1 : ℝ) 2 2 4).inputLength 0, #[1, 3], #[7, 14],
        Kernel.dot #[7, 14] #[7, 14], []⟩ := by
    refine ⟨fun hle => ?_, by decide⟩
    rw [SolverScalar.le_iff, zero_mul] at hle
    refine hle.not_gt (Real.sqrt_pos.2 ?_)
    rw [Kernel.dot_eq_inner rfl]
    norm_num [Buffer.inner]
  exact ⟨g', result, hsolve, (hsteps _ _ _ _ _ (.start (Prod.ext rfl hs) rfl) henter).1, hend,
    hnorms⟩

end Graph

end MatrixFree
