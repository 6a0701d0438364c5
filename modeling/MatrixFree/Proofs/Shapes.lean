import Mathlib.Algebra.BigOperators.Group.List.Basic
import Mathlib.Algebra.BigOperators.Ring.Finset
import Mathlib.Algebra.Field.Rat
import Mathlib.Algebra.Order.Ring.Nat
import Mathlib.Data.Nat.ModEq
import MatrixFree.Shape

/-!
# Sizes that fit

A list of shapes fits if the checked size of each one exists and their sum is a machine word
(`Shape.Fits`). Then the unchecked sizes are the exact ones: a size is the product of rows and
columns (`Shape.Fits.size_eq_mul`), and the length of a buffer is the sum of the sizes on its ports
(`Shape.Fits.total_eq_sum`).
-/

namespace MatrixFree

namespace Size

theorem add?_eq_some_iff {a b c : ℕ} : add? a b = some c ↔ a + b < UInt64.size ∧ a + b = c :=
  fit_eq_some_iff

theorem mul?_eq_some_iff {a b c : ℕ} : mul? a b = some c ↔ a * b < UInt64.size ∧ a * b = c :=
  fit_eq_some_iff

end Size

namespace Shape

theorem toNat_foldl_mul : ∀ (dims : List UInt64) (a : UInt64), (dims.foldl (· * ·) a).toNat =
    a.toNat * (dims.map UInt64.toNat).prod % UInt64.size
  | [], a => by
    rw [List.foldl_nil, List.map_nil, List.prod_nil, mul_one, Nat.mod_eq_of_lt a.toNat_lt]
  | d :: dims, a => by
    rw [List.foldl_cons, toNat_foldl_mul dims (a * d), List.map_cons, List.prod_cons,
      UInt64.toNat_mul, ← mul_assoc]
    exact (Nat.mod_modEq (a.toNat * d.toNat) (2 ^ 64)).mul_right _

theorem foldlM_mul {dims : List UInt64} : ∀ {a c : ℕ}, a < UInt64.size →
    dims.foldlM (fun n d => Size.mul? n d.toNat) a = some c →
      c = a * (dims.map UInt64.toNat).prod ∧ c < UInt64.size := by
  induction dims with
  | nil =>
    intro a c ha h
    simp only [List.foldlM_nil, pure, Option.some.injEq] at h
    subst h
    exact ⟨by simp, ha⟩
  | cons d dims ih =>
    intro a c _ h
    rw [List.foldlM_cons] at h
    obtain ⟨b, hb, h⟩ := Option.bind_eq_some_iff.1 h
    obtain ⟨hlt, rfl⟩ := Size.mul?_eq_some_iff.1 hb
    obtain ⟨hc, hclt⟩ := ih hlt h
    exact ⟨by rw [hc, List.map_cons, List.prod_cons, mul_assoc], hclt⟩

/-- A product from left to right is refused exactly if it is too large on the way. -/
theorem foldlM_mul_eq_none_iff : ∀ {dims : List UInt64} {a : ℕ}, a < UInt64.size →
    (dims.foldlM (fun n d => Size.mul? n d.toNat) a = none
      ↔ ∃ part, part <+: dims ∧ UInt64.size ≤ a * (part.map UInt64.toNat).prod)
  | [], a, ha => by
    refine iff_of_false nofun ?_
    rintro ⟨part, hpart, hle⟩
    rw [List.prefix_nil.1 hpart, List.map_nil, List.prod_nil, mul_one] at hle
    omega
  | d :: dims, a, ha => by
    rw [List.foldlM_cons]
    by_cases hlt : a * d.toNat < UInt64.size
    · rw [Size.mul?_eq_some_iff.2 ⟨hlt, rfl⟩, Option.bind_eq_bind, Option.bind_some,
        foldlM_mul_eq_none_iff hlt]
      constructor
      · rintro ⟨part, hpart, hle⟩
        refine ⟨d :: part, List.cons_prefix_cons.2 ⟨rfl, hpart⟩, ?_⟩
        rwa [List.map_cons, List.prod_cons, ← mul_assoc]
      · rintro ⟨part, hpart, hle⟩
        rcases part with _ | ⟨d', part⟩
        · rw [List.map_nil, List.prod_nil, mul_one] at hle
          omega
        · obtain ⟨rfl, htail⟩ := List.cons_prefix_cons.1 hpart
          rw [List.map_cons, List.prod_cons, ← mul_assoc] at hle
          exact ⟨part, htail, hle⟩
    · have hnone : Size.mul? a d.toNat = none := if_neg hlt
      rw [hnone]
      refine iff_of_true rfl ⟨[d], List.prefix_append [d] dims, ?_⟩
      simpa using Nat.not_lt.1 hlt

theorem prod_dims (s : Shape) :
    (s.dims.map UInt64.toNat).prod = s.rows * ((s.dims.drop 1).map UInt64.toNat).prod := by
  unfold rows
  cases s.dims <;> simp

/-- A size that passes the check is the exact product of the dimensions. -/
theorem prod_of_checkedSize {s : Shape} {n : ℕ} (h : s.checkedSize = some n) :
    (s.dims.map UInt64.toNat).prod = n := by
  obtain ⟨c, hc, h⟩ := Option.bind_eq_some_iff.1 h
  obtain ⟨-, rfl⟩ := Size.mul?_eq_some_iff.1 h
  rw [prod_dims, (foldlM_mul (by decide) hc).1, one_mul]

/-- A size that passes the check is the unchecked one, and so is its number of columns. -/
theorem size_of_checkedSize {s : Shape} {n : ℕ} (h : s.checkedSize = some n) :
    s.size = n ∧ n = s.rows * s.cols ∧ n < UInt64.size := by
  have hprod := prod_of_checkedSize h
  obtain ⟨c, hc, h⟩ := Option.bind_eq_some_iff.1 h
  obtain ⟨hlt, rfl⟩ := Size.mul?_eq_some_iff.1 h
  obtain ⟨hc, hclt⟩ := foldlM_mul (by decide) hc
  rw [one_mul] at hc
  have hcols : s.cols = c := by
    rw [cols, toNat_foldl_mul, UInt64.toNat_one, one_mul, ← hc, Nat.mod_eq_of_lt hclt]
  refine ⟨?_, by rw [hcols], hlt⟩
  rw [size, toNat_foldl_mul, UInt64.toNat_one, one_mul, hprod, Nat.mod_eq_of_lt hlt]

/-- The number of elements, or a product on the way to the number of columns, is no machine word. -/
def Overflows (s : Shape) : Prop :=
  (∃ part, part <+: s.dims.drop 1 ∧ UInt64.size ≤ (part.map UInt64.toNat).prod)
    ∨ UInt64.size ≤ (s.dims.map UInt64.toNat).prod

theorem checkedSize_eq_none_iff {s : Shape} : s.checkedSize = none ↔ s.Overflows := by
  have hcols := @foldlM_mul_eq_none_iff (s.dims.drop 1) 1 (by decide)
  simp only [one_mul] at hcols
  rw [Overflows, ← hcols, prod_dims]
  refine Option.bind_eq_none_iff.trans ⟨fun h => ?_, ?_⟩
  · refine Classical.or_iff_not_imp_left.2 fun hne => ?_
    obtain ⟨c, hc⟩ := Option.ne_none_iff_exists'.1 hne
    obtain ⟨hprod, -⟩ := foldlM_mul (by decide) hc
    rw [← one_mul (List.prod _), ← hprod]
    by_contra hlt
    cases (Size.mul?_eq_some_iff.2 ⟨Nat.not_le.1 hlt, rfl⟩).symm.trans (h c hc)
  · rintro (hnone | hle) c hc
    · cases hnone.symm.trans hc
    · obtain ⟨hprod, -⟩ := foldlM_mul (by decide) hc
      rw [one_mul] at hprod
      exact if_neg (Nat.not_lt.2 (hprod ▸ hle))

/-- The size of every shape, and the sum of the sizes, are machine words. -/
structure Fits (shapes : List Shape) : Prop where
  checked : ∀ s ∈ shapes, s.checkedSize = some s.size
  sum_lt : (shapes.map size).sum < UInt64.size

namespace Fits

variable {shapes : List Shape} {s : Shape}

theorem total_eq_sum (h : Fits shapes) : total shapes = (shapes.map size).sum :=
  Nat.mod_eq_of_lt h.sum_lt

theorem total_lt (h : Fits shapes) : total shapes < UInt64.size := h.total_eq_sum ▸ h.sum_lt

theorem size_eq_mul (h : Fits shapes) (hs : s ∈ shapes) : s.size = s.rows * s.cols :=
  (size_of_checkedSize (h.checked s hs)).2.1

end Fits

/-- The checked sum of checked sizes exists for shapes that fit, and only for them. -/
theorem foldlM_checkedSize_iff {shapes : List Shape} {t : ℕ} :
    shapes.foldlM (fun total s => s.checkedSize.bind (Size.add? total)) 0 = some t ↔
      Fits shapes ∧ t = (shapes.map size).sum := by
  have key : ∀ (shapes : List Shape) (a t : ℕ), a < UInt64.size →
      (shapes.foldlM (fun total s => s.checkedSize.bind (Size.add? total)) a = some t ↔
        ((∀ s ∈ shapes, s.checkedSize = some s.size) ∧ a + (shapes.map size).sum < UInt64.size)
          ∧ t = a + (shapes.map size).sum) := by
    intro shapes
    induction shapes with
    | nil =>
      intro a t ha
      simp [ha, eq_comm]
    | cons s shapes ih =>
      intro a t _
      rw [List.foldlM_cons, List.forall_mem_cons, List.map_cons, List.sum_cons, ← add_assoc]
      constructor
      · intro h
        obtain ⟨b, hb, h⟩ := Option.bind_eq_some_iff.1 h
        obtain ⟨n, hn, hb⟩ := Option.bind_eq_some_iff.1 hb
        obtain ⟨hlt, rfl⟩ := Size.add?_eq_some_iff.1 hb
        obtain rfl := (size_of_checkedSize hn).1
        obtain ⟨⟨h1, h2⟩, h3⟩ := (ih _ t hlt).1 h
        exact ⟨⟨⟨hn, h1⟩, h2⟩, h3⟩
      · rintro ⟨⟨⟨hn, h1⟩, h2⟩, h3⟩
        have hlt : a + s.size < UInt64.size := by omega
        have hb : s.checkedSize.bind (Size.add? a) = some (a + s.size) := by
          rw [hn]
          exact Size.add?_eq_some_iff.2 ⟨hlt, rfl⟩
        rw [hb]
        exact (ih _ t hlt).2 ⟨⟨h1, h2⟩, h3⟩
  rw [key shapes 0 t (by decide), zero_add]
  exact ⟨fun ⟨⟨h1, h2⟩, h3⟩ => ⟨⟨h1, h2⟩, h3⟩, fun ⟨⟨h1, h2⟩, h3⟩ => ⟨⟨h1, h2⟩, h3⟩⟩

/-- Shapes that do not fit have one that overflows, or sizes that add up to too much. -/
theorem overflows_of_not_fits {shapes : List Shape} (h : ¬ Fits shapes) :
    (∃ s ∈ shapes, s.Overflows) ∨ UInt64.size ≤ (shapes.map size).sum := by
  by_cases hall : ∀ s ∈ shapes, s.checkedSize = some s.size
  · exact .inr (Nat.not_lt.1 fun hlt => h ⟨hall, hlt⟩)
  · push Not at hall
    obtain ⟨s, hs, hne⟩ := hall
    refine .inl ⟨s, hs, checkedSize_eq_none_iff.1 ?_⟩
    rcases hc : s.checkedSize with _ | n
    · rfl
    · exact absurd (by rw [hc, (size_of_checkedSize hc).1]) hne

end Shape

end MatrixFree
