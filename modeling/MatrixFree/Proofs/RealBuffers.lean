import Mathlib.Analysis.InnerProductSpace.Adjoint
import MatrixFree.Proofs.Kernels

/-!
# Buffers of real numbers

Read over the real numbers, a buffer of length `n` is a vector of Euclidean space
(`Buffer.ofVector`), and the kernels are the operations on vectors.
-/

namespace MatrixFree

open scoped RealInnerProductSpace

noncomputable instance : ExactScalar ℝ := .ofCommRing ℝ

noncomputable instance : SolverScalar ℝ where
  sqrt := Real.sqrt
  le x y := decide (x ≤ y)
  lt x y := decide (x < y)
  isNaN _ := false

section

variable {a b : ℝ}

theorem SolverScalar.le_iff : SolverScalar.le a b = true ↔ a ≤ b := decide_eq_true_iff

theorem SolverScalar.lt_iff : SolverScalar.lt a b = true ↔ a < b := decide_eq_true_iff

/-- The solver refuses the tolerances below zero. -/
theorem SolverScalar.isNaN_or_lt_iff :
    (SolverScalar.isNaN a || SolverScalar.lt a 0) = true ↔ a < 0 := by
  rw [Bool.or_eq_true, SolverScalar.lt_iff]
  exact or_iff_right Bool.false_ne_true

end

namespace Buffer

variable {n : ℕ} {x y : EuclideanSpace ℝ (Fin n)}

/-- The buffer that holds the coordinates of a vector. -/
def ofVector (x : EuclideanSpace ℝ (Fin n)) : Array ℝ := Array.ofFn x.ofLp

@[simp] theorem size_ofVector (x : EuclideanSpace ℝ (Fin n)) : (ofVector x).size = n :=
  Array.size_ofFn

theorem exists_ofVector {a : Array ℝ} (ha : a.size = n) :
    ∃ x : EuclideanSpace ℝ (Fin n), ofVector x = a := by
  subst ha
  refine ⟨WithLp.toLp 2 fun i => a[i], ?_⟩
  exact Array.ofFn_getElem

theorem zipWith_ofVector (f : ℝ → ℝ → ℝ) (x y : EuclideanSpace ℝ (Fin n)) :
    Array.zipWith f (ofVector x) (ofVector y)
      = ofVector (WithLp.toLp 2 fun i => f (x i) (y i)) := by
  refine Array.ext (by simp) fun i hi _ => ?_
  simp [ofVector]

theorem replicate_zero (n : ℕ) :
    Array.replicate n (0 : ℝ) = ofVector (0 : EuclideanSpace ℝ (Fin n)) := by
  refine Array.ext (by simp) fun i hi _ => ?_
  simp [ofVector]

theorem inner_ofVector (x y : EuclideanSpace ℝ (Fin n)) :
    inner (ofVector x) (ofVector y) = ⟪x, y⟫ := by
  rw [inner_eq_sum (size_ofVector x) (size_ofVector y), PiLp.inner_apply, Finset.sum_range]
  refine Finset.sum_congr rfl fun i _ => ?_
  simp [ofVector, mul_comm]

end Buffer

namespace Kernel

open Buffer

variable {n : ℕ} (x y : EuclideanSpace ℝ (Fin n))

theorem dot_ofVector : dot (ofVector x) (ofVector y) = ⟪x, y⟫ := by
  rw [dot_eq_inner (by simp), inner_ofVector]

theorem axpy_ofVector (c : ℝ) : axpy c (ofVector x) (ofVector y) = ofVector (y + c • x) := by
  rw [axpy_eq (by simp), zipWith_ofVector]
  rfl

theorem norm2_ofVector : norm2 (ofVector x) = ‖x‖ := by
  rw [norm2, dot_ofVector, real_inner_self_eq_norm_sq]
  exact Real.sqrt_sq (norm_nonneg x)

end Kernel

end MatrixFree
