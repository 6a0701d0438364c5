import Mathlib.Algebra.BigOperators.Group.Finset.Basic
import Mathlib.Algebra.BigOperators.Ring.Finset
import Mathlib.Algebra.Field.Rat
import Mathlib.Tactic.Ring
import MatrixFree.Proofs.Buffers
import MatrixFree.Scalar

/-!
# Exact scalars and the inner product

Read over a commutative ring, the operations of buffers obey its laws: a sum starts from zero and
only zero is skipped. The inner product of two buffers of one length is a sum over their places
(`Buffer.inner_eq_sum`), and buffers that are cut in the same way are multiplied piece by piece
(`Buffer.inner_cuts`, `Buffer.inner_chunks`).
-/

namespace MatrixFree

/-- Scalars that are computed with exactly: the elements of a commutative ring. -/
class ExactScalar (R : Type) extends CommRing R, Scalar R where
  sumStart_eq : sumStart = (0 : R)
  negOne_eq : negOne = (-1 : R)
  isZero_iff : ∀ a : R, isZero a = true ↔ a = 0

section

variable {R : Type} [ExactScalar R]

@[simp] theorem Scalar.sumStart_eq_zero : (Scalar.sumStart : R) = 0 := ExactScalar.sumStart_eq

theorem Scalar.eq_zero_of_isZero {a : R} (h : Scalar.isZero a = true) : a = 0 :=
  (ExactScalar.isZero_iff a).1 h

end

/-- Every commutative ring in which zero can be told is one of exact scalars. -/
@[reducible] def ExactScalar.ofCommRing (R : Type) [CommRing R] [DecidableEq R] : ExactScalar R where
  sumStart := 0
  negOne := -1
  isZero a := a = 0
  sumStart_eq := rfl
  negOne_eq := rfl
  isZero_iff a := by simp

instance : ExactScalar ℚ := .ofCommRing ℚ

namespace Buffer

variable {R : Type} [CommRing R]

/-- The sum of the products of the elements at one place. -/
def inner (x y : Array R) : R := (List.zipWith (· * ·) x.toList y.toList).sum

theorem inner_comm (x y : Array R) : inner x y = inner y x := by
  rw [inner, List.zipWith_comm_of_comm fun a b => mul_comm a b]
  rfl

theorem inner_append {x y x' y' : Array R} (h : x.size = x'.size) :
    inner (x ++ y) (x' ++ y') = inner x x' + inner y y' := by
  simp only [inner, Array.toList_append]
  rw [List.zipWith_append (by simpa using h), List.sum_append]

@[simp] theorem inner_empty (y : Array R) : inner #[] y = 0 := by simp [inner]

@[simp] theorem inner_empty_right (x : Array R) : inner x #[] = 0 := by simp [inner]

theorem inner_eq_sum {n : ℕ} {x y : Array R} (hx : x.size = n) (hy : y.size = n) :
    inner x y = ∑ i ∈ Finset.range n, x.getD i 0 * y.getD i 0 := by
  have key : ∀ (n : ℕ) (l m : List R), l.length = n → m.length = n →
      (List.zipWith (· * ·) l m).sum = ∑ i ∈ Finset.range n, l.getD i 0 * m.getD i 0 := by
    intro n
    induction n with
    | zero =>
      intro l m hl hm
      rw [List.length_eq_zero_iff.1 hl]
      simp
    | succ n ih =>
      intro l m hl hm
      obtain ⟨a, l, rfl⟩ := List.exists_cons_of_length_eq_add_one hl
      obtain ⟨b, m, rfl⟩ := List.exists_cons_of_length_eq_add_one hm
      rw [List.zipWith_cons_cons, List.sum_cons, Finset.sum_range_succ',
        ih l m (by simpa using hl) (by simpa using hm)]
      simp only [List.getD_cons_succ, List.getD_cons_zero]
      rw [add_comm]
  rw [inner, key n x.toList y.toList (by simpa using hx) (by simpa using hy)]
  simp [Array.getD_eq_getD_getElem?, List.getD_eq_getElem?_getD]

/-- The inner product after one element is replaced. -/
theorem inner_set {d z : Array R} {i : ℕ} {a : R} (hz : z.size = d.size) (hi : i < d.size) :
    inner (d.setIfInBounds i a) z = inner d z + (a - d.getD i 0) * z.getD i 0 := by
  rw [inner_eq_sum Array.size_setIfInBounds hz, inner_eq_sum rfl hz]
  have hset : ∀ j ∈ Finset.range d.size, (d.setIfInBounds i a).getD j 0 * z.getD j 0
      = d.getD j 0 * z.getD j 0 + if i = j then (a - d.getD i 0) * z.getD i 0 else 0 := by
    intro j _
    by_cases h : i = j
    · subst h
      have hg : (d.setIfInBounds i a).getD i 0 = a := by
        rw [Array.getD_eq_getD_getElem?, Array.getElem?_setIfInBounds, if_pos rfl, if_pos hi,
          Option.getD_some]
      rw [if_pos rfl, hg]
      ring
    · rw [if_neg h, Array.getD_eq_getD_getElem?, Array.getElem?_setIfInBounds_ne h,
        ← Array.getD_eq_getD_getElem?, add_zero]
  rw [Finset.sum_congr rfl hset, Finset.sum_add_distrib, Finset.sum_ite_eq,
    if_pos (Finset.mem_range.2 hi)]

theorem getD_replicate_zero {α : Type} [Zero α] (n i : ℕ) :
    (Array.replicate n (0 : α)).getD i 0 = 0 := by
  rw [Array.getD_eq_getD_getElem?, Array.getElem?_replicate]
  split <;> rfl

theorem inner_replicate_zero (n : ℕ) (y : Array R) : inner (Array.replicate n 0) y = 0 := by
  rw [inner, Array.toList_replicate]
  induction n generalizing y with
  | zero => simp
  | succ n ih =>
    rcases y with ⟨_ | ⟨b, l⟩⟩
    · simp
    · have := ih l.toArray
      simp only [List.replicate_succ, List.zipWith_cons_cons, List.sum_cons, zero_mul, zero_add]
      exact this

/-- The inner product of two windows that are cut in the same way. -/
theorem inner_cuts {x y : Array R} : ∀ (start : ℕ) (ns : List ℕ), start + ns.sum ≤ x.size →
    start + ns.sum ≤ y.size →
    (List.zipWith inner (cuts x start ns) (cuts y start ns)).sum
      = inner (x.extract start (start + ns.sum)) (y.extract start (start + ns.sum))
  | start, [], _, _ => by
    rw [List.sum_nil, Nat.add_zero, Array.extract_eq_empty_of_le (Nat.min_le_left _ _), inner_empty]
    rfl
  | start, n :: ns, hx, hy => by
    rw [List.sum_cons] at hx hy ⊢
    have split : ∀ z : Array R, start + (n + ns.sum) ≤ z.size →
        z.extract start (start + (n + ns.sum))
          = z.extract start (start + n) ++ z.extract (start + n) (start + n + ns.sum) := by
      intro z hz
      rw [Array.extract_append_extract, Nat.min_eq_left (by omega), Nat.max_eq_right (by omega),
        Nat.add_assoc]
    rw [cuts, cuts, List.zipWith_cons_cons, List.sum_cons,
      inner_cuts (start + n) ns (by omega) (by omega), split x hx, split y hy, inner_append]
    simp only [Array.size_extract]
    omega

/-- The inner product of two buffers, chunk by chunk. -/
theorem inner_chunks {m : ℕ} : ∀ {k : ℕ} {x y : Array R}, x.size = k * m → y.size = k * m →
    inner x y = ∑ i ∈ Finset.range k, inner (Table.chunk x m i) (Table.chunk y m i)
  | 0, x, y, hx, hy => by
    rw [Nat.zero_mul] at hx
    rw [Array.size_eq_zero_iff.1 hx, inner_empty, Finset.sum_range_zero]
  | k + 1, x, y, hx, hy => by
    have cut : ∀ z : Array R, z.size = (k + 1) * m →
        z = z.extract 0 (k * m) ++ Table.chunk z m k := by
      intro z hz
      rw [Table.chunk, Array.extract_append_extract, Nat.zero_min, ← Nat.add_one_mul, ← hz,
        Nat.max_eq_right (by rw [hz, Nat.add_one_mul]; omega), Array.extract_size]
    have size : ∀ z : Array R, z.size = (k + 1) * m → (z.extract 0 (k * m)).size = k * m := by
      intro z hz
      rw [Array.size_extract, hz, Nat.add_one_mul]
      omega
    have chunk : ∀ z : Array R, ∀ i < k, Table.chunk (z.extract 0 (k * m)) m i
        = Table.chunk z m i := by
      intro z i hi
      have := Nat.mul_le_mul_right m (show i + 1 ≤ k by omega)
      rw [Nat.add_one_mul] at this
      rw [Table.chunk, Array.extract_extract, Table.chunk, Nat.zero_add, Nat.zero_add,
        Nat.min_eq_left this]
    rw [Finset.sum_range_succ]
    conv_lhs => rw [cut x hx, cut y hy]
    rw [inner_append (by rw [size x hx, size y hy]), inner_chunks (size x hx) (size y hy)]
    congr 1
    refine Finset.sum_congr rfl fun i hi => ?_
    rw [chunk x i (Finset.mem_range.1 hi), chunk y i (Finset.mem_range.1 hi)]

end Buffer

end MatrixFree
