import MatrixFree.Proofs.Adjointness
import MatrixFree.Proofs.ConjugateGradients
import MatrixFree.Proofs.Iterations
import MatrixFree.Proofs.RealBuffers

/-!
# Solving for least squares

Read over the real numbers, a graph that was built computes a linear operator and its adjoint
(`Graph.exists_computes`). The iteration of the solver takes the steps of conjugate gradients
(`LeastSquares.Represents.advance`), so it converges in no more steps than the operator's rank
(`Graph.Computes.exists_iterate`).
-/

namespace MatrixFree

open Buffer LeastSquares MatrixFree.Topology Wiring
open scoped RealInnerProductSpace

namespace LeastSquares

variable {n m : ℕ} {A : EuclideanSpace ℝ (Fin n) →ₗ[ℝ] EuclideanSpace ℝ (Fin m)}
  {b : EuclideanSpace ℝ (Fin m)} {D : Submodule ℝ (EuclideanSpace ℝ (Fin n))}
  {x p : EuclideanSpace ℝ (Fin n)} {st : State ℝ}

/-- The iteration stands at `x` after as many steps as `D` has dimensions, and goes on along
`p`. -/
structure Represents (A : EuclideanSpace ℝ (Fin n) →ₗ[ℝ] EuclideanSpace ℝ (Fin m))
    (b : EuclideanSpace ℝ (Fin m)) (D : Submodule ℝ (EuclideanSpace ℝ (Fin n)))
    (x p : EuclideanSpace ℝ (Fin n)) (st : State ℝ) : Prop where
  conjugate : Conjugate A b D x p
  x_eq : st.x = ofVector x
  r_eq : st.r = ofVector (b - A x)
  p_eq : st.p = ofVector p
  gamma_eq : st.gamma = ⟪normalResidual A b x, normalResidual A b x⟫
  length_eq : st.trace.length = Module.finrank ℝ D

namespace Represents

theorem sqrt_gamma (h : Represents A b D x p st) :
    SolverScalar.sqrt st.gamma = ‖normalResidual A b x‖ := by
  rw [h.gamma_eq, real_inner_self_eq_norm_sq]
  exact Real.sqrt_sq (norm_nonneg _)

theorem le_iff (h : Represents A b D x p st) {threshold : ℝ} :
    SolverScalar.le (SolverScalar.sqrt st.gamma) threshold = true
      ↔ ‖normalResidual A b x‖ ≤ threshold := by
  rw [h.sqrt_gamma, SolverScalar.le_iff]

theorem start (A : EuclideanSpace ℝ (Fin n) →ₗ[ℝ] EuclideanSpace ℝ (Fin m))
    (b : EuclideanSpace ℝ (Fin m)) : Represents A b ⊥ 0 (A.adjoint b)
      ⟨Array.replicate n 0, ofVector b, ofVector (A.adjoint b),
        Kernel.dot (ofVector (A.adjoint b)) (ofVector (A.adjoint b)), []⟩ where
  conjugate := conjugate_zero A b
  x_eq := replicate_zero n
  r_eq := by rw [map_zero, sub_zero]
  p_eq := rfl
  gamma_eq := by rw [Kernel.dot_ofVector, normalResidual, map_zero, sub_zero]
  length_eq := by simp

variable (h : Represents A b D x p st)
include h

theorem axpy_x : Kernel.axpy (st.gamma / Kernel.dot (ofVector (A p)) (ofVector (A p))) st.p st.x
    = ofVector (nextPoint A b x p) := by
  rw [h.gamma_eq, h.p_eq, h.x_eq, Kernel.dot_ofVector, Kernel.axpy_ofVector]
  rfl

theorem axpy_r :
    Kernel.axpy (-(st.gamma / Kernel.dot (ofVector (A p)) (ofVector (A p)))) (ofVector (A p)) st.r
      = ofVector (b - A (nextPoint A b x p)) := by
  rw [h.gamma_eq, h.r_eq, Kernel.dot_ofVector, Kernel.axpy_ofVector, nextPoint, map_add, map_smul,
    neg_smul, ← sub_eq_add_neg, sub_sub]
  rfl

theorem advance (hs : normalResidual A b x ≠ 0) :
    Represents A b (D ⊔ Submodule.span ℝ {p}) (nextPoint A b x p) (nextDirection A b x p)
      (advance st (ofVector (b - A (nextPoint A b x p)))
        (ofVector (A.adjoint (b - A (nextPoint A b x p)))) (ofVector (nextPoint A b x p))) where
  conjugate := h.conjugate.step hs
  x_eq := rfl
  r_eq := rfl
  p_eq := by
    rw [LeastSquares.advance, h.p_eq, zipWith_ofVector, Kernel.dot_ofVector, h.gamma_eq]
    rfl
  gamma_eq := Kernel.dot_ofVector _ _
  length_eq := by
    rw [h.conjugate.finrank_span hs, ← h.length_eq]
    rfl

end Represents

end LeastSquares

namespace Graph

variable {specs : List (NodeSpec ℝ)} {edges : EdgeRegistry} {root terminal : NodeId}
  {config : Config} {g₀ g : Graph ℝ}

/-- From now on every forward evaluation computes `A` and every adjoint evaluation its adjoint. -/
structure Computes (g : Graph ℝ)
    (A : EuclideanSpace ℝ (Fin g.inputLength) →ₗ[ℝ] EuclideanSpace ℝ (Fin g.outputLength)) :
    Prop where
  forward : ∀ x g', g.Reachable g' → ∀ elapsed, ∃ g'', g.Reachable g''
    ∧ Batch.evaluateOne .forward elapsed g' (ofVector x) = (g'', .ok (ofVector (A x)))
  adjoint : ∀ y g', g.Reachable g' → ∀ elapsed, ∃ g'', g.Reachable g''
    ∧ Batch.evaluateOne .adjoint elapsed g' (ofVector y) = (g'', .ok (ofVector (A.adjoint y)))

theorem Valid.exists_vector (h : Valid specs edges root terminal config g) (d : Direction) {n m : ℕ}
    (hn : (g.buffer d.inputRole).size = n) (hm : (g.buffer d.outputRole).size = m)
    (x : EuclideanSpace ℝ (Fin n)) : ∃ (y : EuclideanSpace ℝ (Fin m)) (l : List NodeId)
      (nodes : Array (Node ℝ)), g.topology.Schedule d l
        ∧ Flow specs edges d (outer root terminal d.arrival) (ofVector x) l nodes
        ∧ contents nodes (outer root terminal d.departure) d.departure = ofVector y
        ∧ ∀ g', g.Reachable g' → ∀ elapsed, ∃ g'', g.Reachable g''
          ∧ Batch.evaluateOne d elapsed g' (ofVector x) = (g'', .ok (ofVector y)) := by
  obtain ⟨l, nodes, hl, hf, hres⟩ := h.exists_result (d := d) ((size_ofVector x).trans hn.symm)
  have h' := h.of_flow g.stats hf
  have hsize : (contents nodes (outer root terminal d.departure) d.departure).size = m := by
    rw [← hm, ← h'.size_buffer h, h'.buffer_outputRole]
  obtain ⟨y, hy⟩ := exists_ofVector hsize
  exact ⟨y, l, nodes, hl, hf, hy.symm, hy ▸ hres⟩

theorem exists_computes (h : Valid specs edges root terminal config g) : ∃ A, g.Computes A := by
  choose f l nodes hl hf hout hres using
    h.exists_vector .forward (n := g.inputLength) (m := g.outputLength) rfl rfl
  choose f' l' nodes' hl' hf' hout' hres' using
    h.exists_vector .adjoint (n := g.outputLength) (m := g.inputLength) rfl rfl
  have hadj : ∀ x y, ⟪f x, y⟫ = ⟪x, f' y⟫ := fun x y => by
    rw [← inner_ofVector, ← inner_ofVector, ← hout x, ← hout' y]
    exact inner_outer h.wired (hf x) (hf' y) (fun _ => h.mem_schedule (hl x))
      fun _ => h.mem_schedule (hl' y)
  obtain ⟨A, hA, hA'⟩ := exists_linearMap hadj
  exact ⟨A, fun x => hA x ▸ hres x, fun y => hA' y ▸ hres' y⟩

namespace Computes

variable {A : EuclideanSpace ℝ (Fin g.inputLength) →ₗ[ℝ] EuclideanSpace ℝ (Fin g.outputLength)}
  (hA : g.Computes A) (elapsed : Duration)
include hA

theorem apply_forward (x : EuclideanSpace ℝ (Fin g.inputLength)) {g' : Graph ℝ}
    (hg : g.Reachable g') : ∃ g'', g.Reachable g''
      ∧ apply elapsed .forward g' (ofVector x) = (g'', .ok (ofVector (A x))) := by
  obtain ⟨g'', hg'', heval⟩ := hA.forward x g' hg elapsed
  refine ⟨g'', hg'', ?_⟩
  rw [apply_eq, heval]
  rfl

theorem apply_adjoint (y : EuclideanSpace ℝ (Fin g.outputLength)) {g' : Graph ℝ}
    (hg : g.Reachable g') : ∃ g'', g.Reachable g''
      ∧ apply elapsed .adjoint g' (ofVector y) = (g'', .ok (ofVector (A.adjoint y))) := by
  obtain ⟨g'', hg'', heval⟩ := hA.adjoint y g' hg elapsed
  refine ⟨g'', hg'', ?_⟩
  rw [apply_eq, heval]
  rfl

/-- The iteration converges if as many iterations are left as the range of the adjoint has
dimensions more than the steps so far span. -/
theorem exists_iterate {b : EuclideanSpace ℝ (Fin g.outputLength)} {threshold : ℝ}
    (hthreshold : 0 ≤ threshold) : ∀ (left : ℕ) {g' : Graph ℝ} {D : Submodule ℝ _}
      {x p : EuclideanSpace ℝ (Fin g.inputLength)} {st : State ℝ}, g.Reachable g' →
      Represents A b D x p st →
      Module.finrank ℝ A.adjoint.range ≤ Module.finrank ℝ D + left →
      ∃ g'' D' x' p' st', iterate elapsed threshold left g' st = (g'', .ok (st', true))
        ∧ Represents A b D' x' p' st' ∧ ‖normalResidual A b x'‖ ≤ threshold := by
  intro left
  induction left with
  | zero =>
    intro g' D x p st hg h hle
    have hconv : ‖normalResidual A b x‖ ≤ threshold := by
      by_contra hnot
      have hs : normalResidual A b x ≠ 0 := fun hs => hnot (by rwa [hs, norm_zero])
      exact absurd (h.conjugate.finrank_lt hs) (by omega)
    exact ⟨g', D, x, p, st, iterate_of_le (h.le_iff.2 hconv), h, hconv⟩
  | succ left ih =>
    intro g' D x p st hg h hle
    by_cases hconv : ‖normalResidual A b x‖ ≤ threshold
    · exact ⟨g', D, x, p, st, iterate_of_le (h.le_iff.2 hconv), h, hconv⟩
    · have hs : normalResidual A b x ≠ 0 := fun hs => hconv (by rwa [hs, norm_zero])
      obtain ⟨g₁, hg₁, hq⟩ := hA.apply_forward elapsed p hg
      obtain ⟨g₂, hg₂, hr⟩ := hA.apply_adjoint elapsed (b - A (nextPoint A b x p)) hg₁
      rw [← h.p_eq] at hq
      rw [← h.axpy_r] at hr
      have hqq : ¬ Scalar.isZero (Kernel.dot (ofVector (A p)) (ofVector (A p))) = true := by
        rw [Kernel.dot_ofVector]
        exact fun hz => inner_self_ne_zero.2 (h.conjugate.image_ne_zero hs)
          ((ExactScalar.isZero_iff _).1 hz)
      have hrank := h.conjugate.finrank_span hs
      obtain ⟨g'', D', x', p', st', hit, h', hconv'⟩ := ih hg₂ (h.advance hs) (by omega)
      refine ⟨g'', D', x', p', st', ?_, h', hconv'⟩
      rw [iterate_succ (fun hle => hconv (h.le_iff.1 hle)) hq hqq hr, h.axpy_r, h.axpy_x, hit]

/-- With as many iterations as the shorter of the two sides is long, the solver converges. Without
a tolerance the result is the shortest vector of those that make the residual shortest. -/
theorem exists_solve (b : EuclideanSpace ℝ (Fin g.outputLength)) {options : Options ℝ}
    (htol : 0 ≤ options.tol) (hiters : min g.inputLength g.outputLength ≤ options.maxIters.toNat) :
    ∃ g' result x, solve elapsed g (ofVector b) options = (g', .ok result)
      ∧ result.x = ofVector x ∧ result.converged = true
      ∧ result.iterations ≤ min g.inputLength g.outputLength
      ∧ ‖normalResidual A b x‖ ≤ options.tol * ‖A.adjoint b‖ ∧ x ∈ A.adjoint.range := by
  have hrank := finrank_range_adjoint_le A
  rw [finrank_euclideanSpace_fin, finrank_euclideanSpace_fin] at hrank
  have hthreshold : 0 ≤ options.tol * ‖A.adjoint b‖ := mul_nonneg htol (norm_nonneg _)
  obtain ⟨g₁, hg₁, hb⟩ := hA.apply_adjoint elapsed b .refl
  obtain ⟨g', D, x, p, st, hit, h, hconv⟩ := hA.exists_iterate elapsed hthreshold
    options.maxIters.toNat hg₁ (Represents.start A b)
    (by rw [finrank_bot, zero_add]; exact hrank.trans hiters)
  have hle := Submodule.finrank_mono h.conjugate.le_range
  refine ⟨g', ⟨st.x, st.trace.length, Kernel.norm2 st.r, true, st.trace.reverse⟩, x, ?_, h.x_eq,
    rfl, ?_, hconv, h.conjugate.le_range h.conjugate.mem⟩
  · have hlen : ¬ (ofVector b).size ≠ g.outputLength := not_not.2 (size_ofVector b)
    have hvalid : ¬ (SolverScalar.isNaN options.tol || SolverScalar.lt options.tol 0) = true :=
      SolverScalar.isNaN_or_lt_iff.not.2 htol.not_gt
    unfold solve
    rw [if_neg hlen, if_neg hvalid, hb]
    dsimp only
    rw [Kernel.norm2_ofVector, hit]
  · rw [h.length_eq]
    exact hle.trans hrank

end Computes

/-- In exact arithmetic the solver converges on every graph that was built, in no more iterations
than the shorter of its two sides is long. Without a tolerance it ends at the shortest of the
vectors that make the residual shortest, whatever the rank. -/
theorem solve_least_squares (hbuild : build specs root terminal edges config = .ok g₀)
    (hg : g₀.Reachable g) :
    ∃ A : EuclideanSpace ℝ (Fin g.inputLength) →ₗ[ℝ] EuclideanSpace ℝ (Fin g.outputLength),
      (∀ elapsed x, (Batch.evaluateOne .forward elapsed g (ofVector x)).2 = .ok (ofVector (A x)))
      ∧ ∀ elapsed (b : EuclideanSpace ℝ (Fin g.outputLength)) (options : Options ℝ),
          0 ≤ options.tol → min g.inputLength g.outputLength ≤ options.maxIters.toNat →
          ∃ g' result, solve elapsed g (ofVector b) options = (g', .ok result)
            ∧ result.converged = true ∧ result.iterations ≤ min g.inputLength g.outputLength
            ∧ (options.tol = 0 → ∃ x, result.x = ofVector x ∧ A.adjoint (b - A x) = 0
                ∧ x ∈ A.adjoint.range ∧ Shortest A b x) := by
  obtain ⟨A, hA⟩ := exists_computes (hg.valid (.of_build hbuild))
  refine ⟨A, fun elapsed x => ?_, fun elapsed b options htol hiters => ?_⟩
  · obtain ⟨g', -, heval⟩ := hA.forward x g .refl elapsed
    rw [heval]
  · obtain ⟨g', result, x, hsolve, hx, hconv, hle, hs, hrange⟩ :=
      hA.exists_solve elapsed b htol hiters
    refine ⟨g', result, hsolve, hconv, hle, fun hzero => ⟨x, hx, ?_, hrange, ?_⟩⟩
    all_goals
      have hs : normalResidual A b x = 0 := by
        rwa [hzero, zero_mul, norm_le_zero_iff] at hs
    · exact hs
    · exact shortest_of_normalResidual hs hrange

/-- A matrix of rank one, and a change of sign. -/
noncomputable def singular : GraphBuilder ℝ :=
  let (b, dense) := (GraphBuilder.empty {}).addNode (.dense ⟨2, 2, #[1, 2, 2, 4]⟩)
    [.vector 2] [.vector 2]
  let (b, negate) := b.addNode .negate [.vector 2] [.vector 2]
  b.connectAs ⟨0⟩ dense negate

/-- The graph of `singular`, from its matrix to its change of sign. -/
noncomputable def singularGraph : Graph ℝ :=
  initial singular.nodes singular.edges ⟨0⟩ ⟨1⟩ singular.config

theorem build_singular :
    build singular.nodes ⟨0⟩ ⟨1⟩ singular.edges singular.config = .ok singularGraph :=
  build_of_schedule (by decide) rfl (l := [⟨0⟩, ⟨1⟩])
    (schedule_of_entries (by decide) (by decide) (by decide) (by decide))

theorem solve_least_squares_singular :
    ∃ (A : EuclideanSpace ℝ (Fin singularGraph.inputLength) →ₗ[ℝ]
        EuclideanSpace ℝ (Fin singularGraph.outputLength)) (b : _)
      (g' : Graph ℝ) (result : LeastSquares.Result ℝ) (x : _), ofVector b = #[1, 3]
      ∧ (∀ z, (Batch.evaluateOne .forward ⟨0⟩ singularGraph (ofVector z)).2 = .ok (ofVector (A z)))
      ∧ solve ⟨0⟩ singularGraph #[1, 3] ⟨2, 0⟩ = (g', .ok result)
      ∧ result.converged = true ∧ result.iterations ≤ 2
      ∧ result.x = ofVector x ∧ Shortest A b x := by
  obtain ⟨A, hA, h⟩ := solve_least_squares build_singular .refl
  obtain ⟨b, hb⟩ := exists_ofVector (show #[(1 : ℝ), 3].size = singularGraph.outputLength from rfl)
  obtain ⟨g', result, hsolve, hconv, hle, hx⟩ := h ⟨0⟩ b ⟨2, 0⟩ le_rfl le_rfl
  obtain ⟨x, hx, -, -, hshort⟩ := hx rfl
  exact ⟨A, b, g', result, x, hb, hA ⟨0⟩, hb ▸ hsolve, hconv, hle, hx, hshort⟩

end Graph

end MatrixFree
