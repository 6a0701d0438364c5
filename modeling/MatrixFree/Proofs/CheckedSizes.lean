import Mathlib.Algebra.Order.BigOperators.GroupWithZero.List
import Mathlib.Data.List.TakeWhile
import MatrixFree.Proofs.Guards

/-!
# What the checked size leaves unchecked

The checked size multiplies the number of rows by the checked number of columns, while the unchecked
size multiplies all dimensions from left to right. A product from left to right traps exactly if the
dimensions before the first zero have too large a product (`Size.strictProduct_eq`). A zero in front
is met at once, and a zero further on makes the number of columns zero, whatever it may be that the
rows and the columns before it multiply up to (`Shape.size_overflows`). All other shapes have their
checked size computed without a trap (`Shape.checkedSize_exact`).
-/

namespace MatrixFree

namespace Size

theorem prod_takeWhile_pos (ns : List ℕ) : 0 < (ns.takeWhile (· ≠ 0)).prod :=
  List.prod_pos fun n hn => Nat.pos_of_ne_zero (by simpa using List.mem_takeWhile_imp hn)

/-- A product from left to right traps exactly if it is too large before the first zero. -/
theorem foldlM_position_mul_eq : ∀ (ns : List ℕ) {a : ℕ}, a < UInt64.size →
    ns.foldlM (fun n m => Table.position (n * m)) a
      = if a * (ns.takeWhile (· ≠ 0)).prod < UInt64.size then .ok (a * ns.prod)
        else .error .sizeOverflow
  | [], a, ha => by
    rw [if_pos (by simpa using ha)]
    simp [pure, Except.pure]
  | n :: ns, a, ha => by
    have hpos := prod_takeWhile_pos ns
    rw [List.foldlM_cons, List.prod_cons, ← Nat.mul_assoc]
    by_cases hn : n = 0
    · subst hn
      rw [Nat.mul_zero, Nat.zero_mul, Table.position_eq_ok_iff.2 ⟨by decide, rfl⟩, ok_bind,
        foldlM_position_mul_eq ns (by decide), Nat.zero_mul, Nat.zero_mul, if_pos (by decide),
        if_pos (by simpa using ha)]
    · rw [List.takeWhile_cons_of_pos (by simpa using hn), List.prod_cons, ← Nat.mul_assoc]
      by_cases hlt : a * n < UInt64.size
      · rw [Table.position_eq_ok_iff.2 ⟨hlt, rfl⟩, ok_bind, foldlM_position_mul_eq ns hlt]
      · have hle := Nat.le_mul_of_pos_right (a * n) hpos
        rw [if_neg (by omega), Table.position, if_neg hlt]
        rfl

theorem strictProduct_eq (ns : List ℕ) : strictProduct ns
    = if (ns.takeWhile (· ≠ 0)).prod < UInt64.size then .ok ns.prod else .error .sizeOverflow := by
  have h := foldlM_position_mul_eq ns (a := 1) (by decide)
  rwa [Nat.one_mul, Nat.one_mul] at h

end Size

namespace Shape

variable {s : Shape} {n : ℕ}

/-- Without a zero, or with one in front, the dimensions before the first zero have a product that
fits. -/
theorem prod_takeWhile_lt (h : s.checkedSize = some n) (hn : n ≠ 0 ∨ s.rows = 0) :
    ((s.dims.map UInt64.toNat).takeWhile (· ≠ 0)).prod < UInt64.size := by
  rcases hn with hn | hr
  · have hprod := prod_of_checkedSize h
    have hne : ∀ m ∈ s.dims.map UInt64.toNat, m ≠ 0 := fun m hm hzero =>
      hn (hprod ▸ List.prod_eq_zero (hzero ▸ hm))
    rw [List.takeWhile_eq_self_iff.2 fun m hm => decide_eq_true (hne m hm), hprod]
    exact (size_of_checkedSize h).2.2
  · unfold rows at hr
    split at hr
    · simp at hr
    next d dims hd => simp [hd, hr]

/-- A checked size is that of the unchecked accessors. The number of columns is computed without a
trap, and so is the size itself unless the dimensions before the first zero have too large a
product; this can only be with a zero among the dimensions after the first. -/
theorem checkedSize_exact (h : s.checkedSize = some n) :
    s.size = n ∧ n = s.rows * s.cols ∧ n < UInt64.size
      ∧ Size.strictProduct ((s.dims.drop 1).map UInt64.toNat) = .ok s.cols
      ∧ Size.strictProduct (s.dims.map UInt64.toNat)
        = (if ((s.dims.map UInt64.toNat).takeWhile (· ≠ 0)).prod < UInt64.size then .ok n
          else .error .sizeOverflow)
      ∧ (n ≠ 0 ∨ s.rows = 0 → Size.strictProduct (s.dims.map UInt64.toNat) = .ok n) := by
  have hstrict := Size.strictProduct_eq (s.dims.map UInt64.toNat)
  rw [prod_of_checkedSize h] at hstrict
  obtain ⟨hsize, hmul, hlt⟩ := size_of_checkedSize h
  exact ⟨hsize, hmul, hlt, strictProduct_cols h, hstrict,
    fun hn => by rw [hstrict, if_pos (prod_takeWhile_lt h hn)]⟩

theorem checkedSize_exact_block :
    (⟨[2, 3, 4]⟩ : Shape).checkedSize = some 24
      ∧ Size.strictProduct ([2, 3, 4].map UInt64.toNat) = .ok 24 := by
  have h : (⟨[2, 3, 4]⟩ : Shape).checkedSize = some 24 := rfl
  obtain ⟨-, -, -, -, -, hstrict⟩ := checkedSize_exact h
  exact ⟨h, hstrict (.inl (by decide))⟩

/-- A size of zero hides that the dimensions before it overflow, also from the check of buffers. -/
theorem size_overflows :
    (⟨[2, 18446744073709551615, 0]⟩ : Shape).checkedSize = some 0
      ∧ Fits [⟨[2, 18446744073709551615, 0]⟩]
      ∧ Size.strictProduct ([2, 18446744073709551615, 0].map UInt64.toNat)
        = .error .sizeOverflow :=
  ⟨rfl, ⟨by decide, by decide⟩, rfl⟩

end Shape

end MatrixFree
