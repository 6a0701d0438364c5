import Mathlib.Algebra.Field.Rat
import Mathlib.Algebra.Order.Ring.Nat
import Mathlib.Analysis.InnerProductSpace.Adjoint

/-!
# Conjugate gradients on the normal equations

The steps that have been taken span a space on which the length of the residual cannot be made
smaller (`LeastSquares.Conjugate`). A step from a point whose normal residual is not zero leads out
of that space (`LeastSquares.Conjugate.finrank_span`) and keeps the invariant
(`LeastSquares.Conjugate.step`), so there are no more steps than the rank of the operator. Where the
normal residual is zero, the point reached is the shortest of those that make the residual shortest
(`LeastSquares.Conjugate.shortest`).
-/

namespace MatrixFree.LeastSquares

open Submodule
open scoped RealInnerProductSpace

variable {E F : Type*} [NormedAddCommGroup E] [InnerProductSpace ℝ E] [FiniteDimensional ℝ E]
  [NormedAddCommGroup F] [InnerProductSpace ℝ F] [FiniteDimensional ℝ F]

/-- The residual of `x`, taken back by the adjoint. -/
noncomputable def normalResidual (A : E →ₗ[ℝ] F) (b : F) (x : E) : E := A.adjoint (b - A x)

/-- How far a step from `x` goes along `p`. -/
noncomputable def stepLength (A : E →ₗ[ℝ] F) (b : F) (x p : E) : ℝ :=
  ⟪normalResidual A b x, normalResidual A b x⟫ / ⟪A p, A p⟫

/-- The point that a step from `x` along `p` leads to. -/
noncomputable def nextPoint (A : E →ₗ[ℝ] F) (b : F) (x p : E) : E := x + stepLength A b x p • p

/-- The direction of the step after the one from `x` along `p`. -/
noncomputable def nextDirection (A : E →ₗ[ℝ] F) (b : F) (x p : E) : E :=
  normalResidual A b (nextPoint A b x p)
    + (⟪normalResidual A b (nextPoint A b x p), normalResidual A b (nextPoint A b x p)⟫
      / ⟪normalResidual A b x, normalResidual A b x⟫) • p

/-- No `z` makes the residual shorter than `x` does, and none that makes it as short is as short as
`x` itself. -/
structure Shortest (A : E →ₗ[ℝ] F) (b : F) (x : E) : Prop where
  residual_le : ∀ z, ‖A x - b‖ ≤ ‖A z - b‖
  norm_lt : ∀ z, ‖A z - b‖ = ‖A x - b‖ → z ≠ x → ‖x‖ < ‖z‖

variable {A : E →ₗ[ℝ] F} {b : F} {x p : E} {D : Submodule ℝ E}

theorem finrank_range_adjoint_le (A : E →ₗ[ℝ] F) :
    Module.finrank ℝ A.adjoint.range ≤ min (Module.finrank ℝ E) (Module.finrank ℝ F) := by
  refine le_min (finrank_le _) ?_
  rw [A.finrank_range_adjoint]
  exact finrank_le _

/-- Two maps that are adjoint to each other are linear. -/
theorem exists_linearMap {f : E → F} {h : F → E} (hadj : ∀ x y, ⟪f x, y⟫ = ⟪x, h y⟫) :
    ∃ A : E →ₗ[ℝ] F, (∀ x, A x = f x) ∧ ∀ y, A.adjoint y = h y := by
  refine ⟨⟨⟨f, fun x x' => ext_inner_right ℝ fun y => ?_⟩, fun c x => ext_inner_right ℝ fun y => ?_⟩,
    fun _ => rfl, fun y => ext_inner_left ℝ fun x => ?_⟩
  · rw [inner_add_left, hadj, hadj, hadj, inner_add_left]
  · rw [RingHom.id_apply, real_inner_smul_left, hadj, hadj, real_inner_smul_left]
  · rw [LinearMap.adjoint_inner_right]
    exact hadj x y

theorem normalResidual_add_smul (A : E →ₗ[ℝ] F) (b : F) (x p : E) (c : ℝ) :
    normalResidual A b (x + c • p) = normalResidual A b x - c • A.adjoint (A p) := by
  simp only [normalResidual, map_add, map_smul, map_sub]
  abel

theorem norm_sq_sub_of_normalResidual (h : normalResidual A b x = 0) (z : E) :
    ‖A z - b‖ ^ 2 = ‖A x - b‖ ^ 2 + ‖A (z - x)‖ ^ 2 := by
  have hinner : ⟪A x - b, A (z - x)⟫ = 0 := by
    rw [← LinearMap.adjoint_inner_left, ← neg_sub, map_neg, show A.adjoint (b - A x) = 0 from h,
      neg_zero, inner_zero_left]
  have hsum : A z - b = (A x - b) + A (z - x) := by
    rw [map_sub]
    abel
  rw [hsum, norm_add_sq_real, hinner]
  ring

/-- Vectors in the range of the adjoint are orthogonal to those that the operator maps to zero. -/
theorem norm_sq_of_mem_range (hx : x ∈ A.adjoint.range) {z : E} (hz : A (z - x) = 0) :
    ‖z‖ ^ 2 = ‖x‖ ^ 2 + ‖z - x‖ ^ 2 := by
  obtain ⟨w, rfl⟩ := hx
  have hinner : ⟪A.adjoint w, z - A.adjoint w⟫ = 0 := by
    rw [LinearMap.adjoint_inner_left, hz, inner_zero_right]
  conv_lhs => rw [show z = A.adjoint w + (z - A.adjoint w) by abel, norm_add_sq_real, hinner]
  ring

theorem shortest_of_normalResidual (h : normalResidual A b x = 0) (hx : x ∈ A.adjoint.range) :
    Shortest A b x where
  residual_le z := by
    have := norm_sq_sub_of_normalResidual h z
    exact le_of_sq_le_sq (by nlinarith [sq_nonneg ‖A (z - x)‖]) (norm_nonneg _)
  norm_lt z hz hne := by
    have hsq := norm_sq_sub_of_normalResidual h z
    rw [hz, left_eq_add] at hsq
    have hzero : A (z - x) = 0 := norm_eq_zero.1 (pow_eq_zero_iff two_ne_zero |>.1 hsq)
    have hpos : 0 < ‖z - x‖ := norm_pos_iff.2 (sub_ne_zero.2 hne)
    have := norm_sq_of_mem_range hx hzero
    exact lt_of_pow_lt_pow_left₀ 2 (norm_nonneg _) (by nlinarith)

/-- The state after steps that span `D`: the point `x` has a normal residual orthogonal to all of
them, and the next direction `p` is conjugate to all of them. -/
structure Conjugate (A : E →ₗ[ℝ] F) (b : F) (D : Submodule ℝ E) (x p : E) : Prop where
  mem : x ∈ D
  le_range : D ≤ A.adjoint.range
  orthogonal : ∀ v ∈ D, ⟪normalResidual A b x, v⟫ = 0
  direction : p - normalResidual A b x ∈ D
  conjugate : ∀ v ∈ D, ⟪A p, A v⟫ = 0
  image : ∀ v ∈ D, A.adjoint (A v) ∈ D ⊔ span ℝ {normalResidual A b x}

theorem conjugate_zero (A : E →ₗ[ℝ] F) (b : F) : Conjugate A b ⊥ 0 (A.adjoint b) where
  mem := zero_mem _
  le_range := bot_le
  orthogonal v hv := by rw [(mem_bot ℝ).1 hv, inner_zero_right]
  direction := by simp [normalResidual]
  conjugate v hv := by rw [(mem_bot ℝ).1 hv, map_zero, inner_zero_right]
  image v hv := by
    rw [(mem_bot ℝ).1 hv, map_zero, map_zero]
    exact zero_mem _

namespace Conjugate

variable (h : Conjugate A b D x p)
include h

theorem shortest (hs : normalResidual A b x = 0) : Shortest A b x :=
  shortest_of_normalResidual hs (h.le_range h.mem)

theorem inner_direction :
    ⟪normalResidual A b x, p⟫ = ⟪normalResidual A b x, normalResidual A b x⟫ := by
  have := h.orthogonal _ h.direction
  rwa [inner_sub_right, sub_eq_zero] at this

theorem direction_mem_range : p ∈ A.adjoint.range := by
  rw [← sub_add_cancel p (normalResidual A b x)]
  exact add_mem (h.le_range h.direction) (LinearMap.mem_range_self _ _)

theorem residual_mem : normalResidual A b x ∈ D ⊔ span ℝ {p} := by
  rw [← sub_sub_cancel p (normalResidual A b x)]
  exact sub_mem (mem_sup_right (mem_span_singleton_self p)) (mem_sup_left h.direction)

theorem span_le_range : D ⊔ span ℝ {p} ≤ A.adjoint.range :=
  sup_le h.le_range ((span_singleton_le_iff_mem _ _).2 h.direction_mem_range)

variable (hs : normalResidual A b x ≠ 0)
include hs

/-- The operator maps no direction to zero before the normal residual is zero. -/
theorem image_ne_zero : A p ≠ 0 := by
  intro hp
  obtain ⟨w, hw⟩ := h.direction_mem_range
  have hzero : p = 0 := by
    rw [← inner_self_eq_zero (𝕜 := ℝ)]
    conv_lhs => rw [← hw, LinearMap.adjoint_inner_left, hw, hp, inner_zero_right]
  have := h.inner_direction
  rw [hzero, inner_zero_right] at this
  exact hs (inner_self_eq_zero.1 this.symm)

theorem finrank_span : Module.finrank ℝ ↥(D ⊔ span ℝ {p}) = Module.finrank ℝ D + 1 := by
  refine finrank_sup_span_singleton fun hp => hs ?_
  rw [← inner_self_eq_zero (𝕜 := ℝ), ← h.inner_direction]
  exact h.orthogonal p hp

theorem finrank_lt : Module.finrank ℝ D < Module.finrank ℝ A.adjoint.range := by
  have := finrank_mono h.span_le_range
  rw [h.finrank_span hs] at this
  exact this

theorem stepLength_ne_zero : stepLength A b x p ≠ 0 :=
  div_ne_zero (inner_self_ne_zero.2 hs) (inner_self_ne_zero.2 (h.image_ne_zero hs))

/-- The new normal residual is orthogonal to the step that led to it, and to all steps before. -/
theorem orthogonal_nextPoint :
    ∀ v ∈ D ⊔ span ℝ {p}, ⟪normalResidual A b (nextPoint A b x p), v⟫ = 0 := by
  have hp : ⟪normalResidual A b (nextPoint A b x p), p⟫ = 0 := by
    have hq : ⟪A p, A p⟫ ≠ 0 := inner_self_ne_zero.2 (h.image_ne_zero hs)
    rw [nextPoint, normalResidual_add_smul, inner_sub_left, real_inner_smul_left,
      LinearMap.adjoint_inner_left, h.inner_direction, stepLength, div_mul_cancel₀ _ hq, sub_self]
  intro v hv
  obtain ⟨d, hd, w, hw, rfl⟩ := mem_sup.1 hv
  obtain ⟨c, rfl⟩ := mem_span_singleton.1 hw
  rw [inner_add_right, real_inner_smul_right, hp, nextPoint, normalResidual_add_smul,
    inner_sub_left, real_inner_smul_left, LinearMap.adjoint_inner_left, h.orthogonal d hd,
    h.conjugate d hd]
  ring

/-- What the operator and its adjoint make of a direction is in the span of two normal residuals. -/
theorem image_direction : A.adjoint (A p) = (stepLength A b x p)⁻¹
    • (normalResidual A b x - normalResidual A b (nextPoint A b x p)) := by
  rw [nextPoint, normalResidual_add_smul, sub_sub_cancel, inv_smul_smul₀ (h.stepLength_ne_zero hs)]

/-- The next direction is conjugate to all steps so far. -/
theorem conjugate_nextDirection :
    ∀ v ∈ D ⊔ span ℝ {p}, ⟪A (nextDirection A b x p), A v⟫ = 0 := by
  have horth := h.orthogonal_nextPoint hs
  have hd : ∀ d ∈ D, ⟪A (nextDirection A b x p), A d⟫ = 0 := fun d hd => by
    have himage : A.adjoint (A d) ∈ D ⊔ span ℝ {p} :=
      sup_le le_sup_left ((span_singleton_le_iff_mem _ _).2 h.residual_mem) (h.image d hd)
    rw [nextDirection, map_add, map_smul, inner_add_left, real_inner_smul_left, h.conjugate d hd,
      mul_zero, add_zero, ← LinearMap.adjoint_inner_right, horth _ himage]
  have hp : ⟪A (nextDirection A b x p), A p⟫ = 0 := by
    have hq : ⟪A p, A p⟫ ≠ 0 := inner_self_ne_zero.2 (h.image_ne_zero hs)
    have hss : ⟪normalResidual A b x, normalResidual A b x⟫ ≠ 0 := inner_self_ne_zero.2 hs
    rw [nextDirection, map_add, map_smul, inner_add_left, real_inner_smul_left,
      ← LinearMap.adjoint_inner_right, h.image_direction hs, real_inner_smul_right, inner_sub_right,
      horth _ h.residual_mem, stepLength]
    field_simp
    ring
  intro v hv
  obtain ⟨d, hdmem, w, hw, rfl⟩ := mem_sup.1 hv
  obtain ⟨c, rfl⟩ := mem_span_singleton.1 hw
  rw [map_add, map_smul, inner_add_right, real_inner_smul_right, hd d hdmem, hp, mul_zero, add_zero]

theorem step : Conjugate A b (D ⊔ span ℝ {p}) (nextPoint A b x p) (nextDirection A b x p) where
  mem := add_mem (mem_sup_left h.mem)
    (mem_sup_right (smul_mem _ _ (mem_span_singleton_self p)))
  le_range := h.span_le_range
  orthogonal := h.orthogonal_nextPoint hs
  direction := by
    rw [nextDirection, add_sub_cancel_left]
    exact mem_sup_right (smul_mem _ _ (mem_span_singleton_self p))
  conjugate := h.conjugate_nextDirection hs
  image v hv := by
    obtain ⟨d, hd, w, hw, rfl⟩ := mem_sup.1 hv
    obtain ⟨c, rfl⟩ := mem_span_singleton.1 hw
    rw [map_add, map_smul, map_add, map_smul, h.image_direction hs]
    refine add_mem (mem_sup_left ?_) (smul_mem _ _ (smul_mem _ _ (sub_mem ?_ ?_)))
    · exact sup_le le_sup_left ((span_singleton_le_iff_mem _ _).2 h.residual_mem) (h.image d hd)
    · exact mem_sup_left h.residual_mem
    · exact mem_sup_right (mem_span_singleton_self _)

end Conjugate

end MatrixFree.LeastSquares
