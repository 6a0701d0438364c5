import Mathlib.Algebra.Field.Rat
import Mathlib.Algebra.Order.Ring.Nat
import MatrixFree.Proofs.LinearMaps
import MatrixFree.Proofs.MachineNumbers

/-!
# Kernels element by element

A kernel combines each element of a full block with the one in its place, and the elements of the
remainders from their starts on (`Kernel.getElem?_blockwise`). On vectors of one length this is the
plain loop (`Kernel.kernels_plain`). On vectors of two lengths it is the plain loop over the shorter
one exactly if both have the same number of full blocks, or the shorter one has no remainder
(`Kernel.on_prefixes_iff_aligned`).
-/

namespace MatrixFree

namespace Rounding

open Float.Model (Format UnpackedFloat)

theorem unpacked_mul_comm (u w : UnpackedFloat) :
    UnpackedFloat.mul Format.binary64 u w = UnpackedFloat.mul Format.binary64 w u := by
  have hsign : ∀ s t : UnpackedFloat.Sign, s * t = t * s := by
    intro s t
    cases s <;> cases t <;> rfl
  cases u with
  | notANumber => cases w <;> rfl
  | infinity s =>
    cases w with
    | infinity t => exact congrArg UnpackedFloat.infinity (hsign s t)
    | finite t => exact congrArg UnpackedFloat.infinity (hsign s t)
    | _ => rfl
  | zero s =>
    cases w with
    | zero t => exact congrArg UnpackedFloat.zero (hsign s t)
    | finite t => exact congrArg UnpackedFloat.zero (hsign s t)
    | _ => rfl
  | finite s m e =>
    cases w with
    | infinity t => exact congrArg UnpackedFloat.infinity (hsign s t)
    | zero t => exact congrArg UnpackedFloat.zero (hsign s t)
    | notANumber => rfl
    | finite t k f =>
      have hround : UnpackedFloat.roundWithAccuracy Format.binary64 (s * t) (m * k) (e + f) .exact
          = UnpackedFloat.roundWithAccuracy Format.binary64 (t * s) (k * m) (f + e) .exact := by
        rw [hsign s t, Nat.mul_comm m k, Int.add_comm e f]
      exact hround

/-- Products of machine numbers do not depend on the order of the factors. -/
theorem float_mul_comm (x y : Float) : x * y = y * x :=
  congrArg (fun u => Float.ofModel (.pack u))
    (unpacked_mul_comm x.toModel.unpack y.toModel.unpack)

end Rounding

namespace Kernel

variable {α : Type}

/-! ### Which elements are combined -/

theorem getElem?_zipOnto (f : α → α → α) (dest src : Array α) (i : ℕ) :
    (zipOnto f dest src)[i]? = dest[i]?.map fun d => (src[i]?).elim d (f d) := by
  rw [zipOnto, Array.getElem?_append, Array.size_zipWith, Array.getElem?_zipWith,
    Array.drop_eq_extract, Array.getElem?_extract]
  by_cases hd : i < dest.size
  · by_cases hs : i < src.size
    · simp [hd, hs]
    · have hi : src.size + (i - min dest.size src.size) = i := by omega
      rw [if_neg (by omega), if_pos (by omega), Array.getElem?_eq_none (Nat.not_lt.1 hs), hi]
      simp
  · rw [if_neg (by omega), if_neg (by omega), Array.getElem?_eq_none (Nat.not_lt.1 hd)]
    rfl

theorem getElem?_remainder (v : Array α) (i : ℕ) :
    (remainder v)[i]? = v[4 * (v.size / 4) + i]? := by
  rw [remainder, Array.drop_eq_extract, Array.getElem?_extract, blockCount]
  by_cases h : 4 * (v.size / 4) + i < v.size
  · rw [if_pos (by omega)]
  · rw [if_neg (by omega), Array.getElem?_eq_none (Nat.not_lt.1 h)]

/-- Where in a vector of `b` elements the one lies that is combined with the one in place `i` of a
vector of `a` elements. -/
def partner? (a b i : ℕ) : Option ℕ :=
  if i < 4 * (a / 4) then if i < 4 * (b / 4) then some i else none
  else some (4 * (b / 4) + (i - 4 * (a / 4)))

section

variable (block tail : α → α → α) (dest src : Array α)

theorem getElem?_blockwise (i : ℕ) : (blockwise block tail dest src)[i]? = dest[i]?.map fun d =>
    ((partner? dest.size src.size i).bind (src[·]?)).elim d
      ((if i < 4 * (dest.size / 4) then block else tail) d) := by
  rw [blockwise, Array.getElem?_append, size_zipOnto, size_blocks, getElem?_zipOnto,
    getElem?_zipOnto, getElem?_blocks, getElem?_blocks, getElem?_remainder, getElem?_remainder,
    partner?, blockCount, blockCount]
  by_cases hi : i < 4 * (dest.size / 4)
  · rw [if_pos hi, if_pos hi, if_pos hi, if_pos hi]
    by_cases hs : i < 4 * (src.size / 4)
    · rw [if_pos hs, if_pos hs, Option.bind_some]
    · rw [if_neg hs, if_neg hs, Option.bind_none]
  · rw [if_neg hi, if_neg hi, if_neg hi, Nat.add_sub_cancel' (Nat.not_lt.1 hi), Option.bind_some]

end

/-- Vectors of these lengths have the same number of full blocks, or the shorter one has no
remainder. -/
def Aligned (a b : ℕ) : Prop := a / 4 = b / 4 ∨ min a b % 4 = 0

theorem aligned_self (n : ℕ) : Aligned n n := .inl rfl

theorem Aligned.symm {a b : ℕ} (h : Aligned a b) : Aligned b a := by
  unfold Aligned at h ⊢
  omega

section Aligned

variable {dest src : Array α} (h : Aligned dest.size src.size)
include h

/-- The elements that are combined are those in one place. -/
theorem getElem?_blockwise_of_aligned (block tail : α → α → α) (i : ℕ) :
    (blockwise block tail dest src)[i]? = dest[i]?.map fun d =>
      (src[i]?).elim d ((if i < 4 * (dest.size / 4) then block else tail) d) := by
  rw [getElem?_blockwise]
  by_cases hi : i < dest.size
  · have hpartner : (partner? dest.size src.size i).bind (src[·]?) = src[i]? := by
      unfold partner?
      unfold Aligned at h
      by_cases hd : i < 4 * (dest.size / 4)
      · rw [if_pos hd]
        by_cases hs : i < 4 * (src.size / 4)
        · rw [if_pos hs, Option.bind_some]
        · -- `src` is the shorter one and ends with its full blocks.
          rw [if_neg hs, Option.bind_none, Array.getElem?_eq_none (by omega)]
      · rw [if_neg hd, Option.bind_some]
        -- Within `src` the remainders start in one place; beyond it both sides are `none`.
        rcases Nat.lt_or_ge i src.size with hs | hs
        · exact congrArg (src[·]?) (by omega)
        · rw [Array.getElem?_eq_none (by omega), Array.getElem?_eq_none hs]
    rw [hpartner]
  · rw [Array.getElem?_eq_none (Nat.not_lt.1 hi)]
    rfl

end Aligned

/-! ### Vectors of one length -/

/-- The elements of `out` are what `f` gives for the elements of `dest` and `src` in their places. -/
structure Elementwise (f : α → α → α) (dest src out : Array α) : Prop where
  size_eq : out.size = dest.size
  getElem?_eq : ∀ (i : ℕ) (hd : i < dest.size) (hs : i < src.size),
    out[i]? = some (f dest[i] src[i])

theorem elementwise_blockwise {f block tail : α → α → α} {dest src : Array α}
    (h : dest.size = src.size) (hblock : block = f) (htail : tail = f) :
    Elementwise f dest src (blockwise block tail dest src) := by
  subst hblock htail
  refine ⟨size_blockwise _ _ dest src, fun i hd hs => ?_⟩
  rw [getElem?_blockwise_of_aligned (h ▸ aligned_self _), ite_self,
    Array.getElem?_eq_getElem hd, Array.getElem?_eq_getElem hs]
  rfl

/-- On vectors of one length the kernels are the plain loops: each element is combined with the one
in its place, for scaling if products commute, as those of machine numbers do. Computed with
exactly, the inner product is the sum of the products in each place. -/
theorem kernels_plain :
    (∀ {α : Type} [Scalar α] {x y : Array α}, x.size = y.size →
      (∀ alpha, Elementwise (fun b a => b + alpha * a) y x (axpy alpha x y))
        ∧ Elementwise (fun b a => b + a) y x (addAssign y x)
        ∧ ((∀ a b : α, a * b = b * a) →
          ∀ alpha, Elementwise (fun _ a => alpha * a) y x (scaleInto alpha y x)))
      ∧ (∀ {x y : Array Float}, x.size = y.size →
        ∀ alpha, Elementwise (fun _ a => alpha * a) y x (scaleInto alpha y x))
      ∧ ∀ {R : Type} [ExactScalar R] {x y : Array R} {n : ℕ}, x.size = n → y.size = n →
        dot x y = ∑ i ∈ Finset.range n, x.getD i 0 * y.getD i 0 := by
  have hscale : ∀ {α : Type} [Scalar α] {x y : Array α}, x.size = y.size →
      (∀ a b : α, a * b = b * a) →
        ∀ alpha, Elementwise (fun _ a => alpha * a) y x (scaleInto alpha y x) := by
    intro α _ x y h hcomm alpha
    exact elementwise_blockwise h.symm (funext₂ fun _ a => hcomm a alpha) rfl
  refine ⟨fun {α} _ {x y} h => ⟨fun alpha => ?_, ?_, hscale h⟩,
    fun {x y} h => hscale h Rounding.float_mul_comm, fun {R} _ {x y n} hx hy => ?_⟩
  · exact elementwise_blockwise h.symm rfl rfl
  · exact elementwise_blockwise h.symm rfl rfl
  · rw [dot_eq_inner (hx.trans hy.symm), Buffer.inner_eq_sum hx hy]

theorem kernels_plain_five :
    Elementwise (fun b a => b + 2 * a) #[0.5, 1, 1, 1, 1] #[1, 2, 3, 4, 5]
        (axpy (2 : Float) #[1, 2, 3, 4, 5] #[0.5, 1, 1, 1, 1])
      ∧ Elementwise (fun _ a => 2 * a) #[0, 0, 0, 0, 0] #[1, 2, 3, 4, 5]
        (scaleInto (2 : ℚ) #[0, 0, 0, 0, 0] #[1, 2, 3, 4, 5])
      ∧ dot (#[1, 2, 3, 4, 5] : Array ℚ) #[1, 0, -1, 1 / 2, 2] = ∑ i ∈ Finset.range 5,
        (#[1, 2, 3, 4, 5] : Array ℚ).getD i 0 * (#[1, 0, -1, 1 / 2, 2] : Array ℚ).getD i 0 := by
  obtain ⟨hall, -, hdot⟩ := kernels_plain
  obtain ⟨haxpy, -⟩ := hall (x := (#[1, 2, 3, 4, 5] : Array Float))
    (y := #[0.5, 1, 1, 1, 1]) (Eq.refl 5)
  obtain ⟨-, -, hscale⟩ := hall (x := (#[1, 2, 3, 4, 5] : Array ℚ))
    (y := #[0, 0, 0, 0, 0]) (Eq.refl 5)
  exact ⟨haxpy 2, hscale mul_comm 2, hdot rfl rfl⟩

/-! ### Vectors of two lengths -/

/-- What a kernel leaves if it is applied to the leading parts of both vectors, as far as the
shorter one reaches, and what lies after them stays. -/
def onPrefix (kernel : Array α → Array α → Array α) (dest src : Array α) : Array α :=
  kernel (dest.take (min dest.size src.size)) (src.take (min dest.size src.size))
    ++ dest.drop (min dest.size src.size)

theorem getElem?_onPrefix (block tail : α → α → α) (dest src : Array α) (i : ℕ) :
    (onPrefix (blockwise block tail) dest src)[i]? = dest[i]?.map fun d =>
      (src[i]?).elim d
        ((if i < 4 * (min dest.size src.size / 4) then block else tail) d) := by
  have hd := size_take dest (Nat.min_le_left dest.size src.size)
  have hs := size_take src (Nat.min_le_right dest.size src.size)
  rw [onPrefix, Array.getElem?_append, size_blockwise, hd]
  by_cases hi : i < min dest.size src.size
  · rw [if_pos hi, getElem?_blockwise_of_aligned (hd.trans hs.symm ▸ aligned_self _), hd,
      getElem?_take, getElem?_take, if_pos hi, if_pos hi]
  · rw [if_neg hi, Array.drop_eq_extract, Array.getElem?_extract]
    by_cases hdest : i < dest.size
    · have hi' : min dest.size src.size + (i - min dest.size src.size) = i := by omega
      have hsrc : src[i]? = none := Array.getElem?_eq_none (by omega)
      rw [if_pos (by omega), hi', hsrc]
      simp
    · rw [if_neg (by omega), Array.getElem?_eq_none (Nat.not_lt.1 hdest)]
      rfl

theorem blockwise_eq_onPrefix (block tail : α → α → α) {dest src : Array α}
    (h : Aligned dest.size src.size) :
    blockwise block tail dest src = onPrefix (blockwise block tail) dest src := by
  refine Array.ext_getElem? fun i => ?_
  rw [getElem?_blockwise_of_aligned h, getElem?_onPrefix]
  by_cases hi : i < min dest.size src.size
  · have hblock : i < 4 * (dest.size / 4) ↔ i < 4 * (min dest.size src.size / 4) := by
      unfold Aligned at h
      omega
    simp only [hblock]
  · rcases Nat.lt_or_ge i dest.size with hd | hd
    · have hsrc : src[i]? = none := Array.getElem?_eq_none (by omega)
      rw [hsrc]
      rfl
    · rw [Array.getElem?_eq_none hd]
      rfl

section

variable [Scalar α]

theorem laneSum_take {x y : Array α} {m j : ℕ} (hj : j < 4) : ∀ {n : ℕ}, 4 * n ≤ m →
    laneSum (x.take m) (y.take m) n j = laneSum x y n j
  | 0, _ => rfl
  | n + 1, h => by
    have ih := laneSum_take (x := x) (y := y) (m := m) hj (n := n) (by omega)
    have hget : ∀ v : Array α, (v.take m).getD (4 * n + j) 0 = v.getD (4 * n + j) 0 := by
      intro v
      rw [Array.getD_eq_getD_getElem?, getElem?_take, if_pos (by omega),
        ← Array.getD_eq_getD_getElem?]
    unfold laneSum at ih ⊢
    rw [Nat.fold_succ, Nat.fold_succ, ih, hget, hget]

omit [Scalar α] in
theorem zipWith_remainder_take (f : α → α → α) {x y : Array α} (h : Aligned x.size y.size) :
    Array.zipWith f (remainder (x.take (min x.size y.size)))
      (remainder (y.take (min x.size y.size))) = Array.zipWith f (remainder x) (remainder y) := by
  refine Array.ext_getElem? fun k => ?_
  rw [Array.getElem?_zipWith, Array.getElem?_zipWith, getElem?_remainder, getElem?_remainder,
    getElem?_remainder, getElem?_remainder, size_take x (Nat.min_le_left _ _),
    size_take y (Nat.min_le_right _ _), getElem?_take, getElem?_take]
  unfold Aligned at h
  by_cases hk : 4 * (min x.size y.size / 4) + k < min x.size y.size
  · have hx : 4 * (min x.size y.size / 4) + k = 4 * (x.size / 4) + k := by omega
    have hy : 4 * (min x.size y.size / 4) + k = 4 * (y.size / 4) + k := by omega
    rw [if_pos hk, if_pos hk, ← hx, ← hy]
  · rw [if_neg hk, if_neg hk]
    by_cases hx : 4 * (x.size / 4) + k < x.size
    · have hy : y[4 * (y.size / 4) + k]? = none := Array.getElem?_eq_none (by omega)
      rw [hy]
      rcases x[4 * (x.size / 4) + k]? with _ | a <;> rfl
    · rw [Array.getElem?_eq_none (Nat.not_lt.1 hx)]

theorem dot_eq_dot_take {x y : Array α} (h : Aligned x.size y.size) :
    dot x y = dot (x.take (min x.size y.size)) (y.take (min x.size y.size)) := by
  have hcount : min (blockCount x) (blockCount y)
      = min (blockCount (x.take (min x.size y.size)))
        (blockCount (y.take (min x.size y.size))) := by
    unfold blockCount
    rw [size_take x (Nat.min_le_left _ _), size_take y (Nat.min_le_right _ _)]
    omega
  have hle : 4 * min (blockCount x) (blockCount y) ≤ min x.size y.size := by
    unfold blockCount
    omega
  have hlane : ∀ j < 4, _ := fun j hj => laneSum_take (x := x) (y := y) hj hle
  unfold dot
  rw [← hcount]
  dsimp only
  rw [hlane 0 (by omega), hlane 1 (by omega), hlane 2 (by omega), hlane 3 (by omega),
    zipWith_remainder_take _ h]

/-- The kernels work on the leading parts of `x` and `y`, as far as the shorter one reaches. -/
structure OnPrefixes (x y : Array α) : Prop where
  dot_eq : dot x y = dot (x.take (min x.size y.size)) (y.take (min x.size y.size))
  axpy_eq : ∀ alpha, axpy alpha x y = onPrefix (fun y x => axpy alpha x y) y x
  scaleInto_eq : ∀ alpha, scaleInto alpha y x = onPrefix (scaleInto alpha) y x
  addAssign_eq : addAssign y x = onPrefix addAssign y x

theorem onPrefixes_of_aligned {x y : Array α} (h : Aligned x.size y.size) : OnPrefixes x y :=
  ⟨dot_eq_dot_take h, fun _ => blockwise_eq_onPrefix _ _ h.symm,
    fun _ => blockwise_eq_onPrefix _ _ h.symm, blockwise_eq_onPrefix _ _ h.symm⟩

end

section Exact

variable {R : Type} [ExactScalar R] {a b : ℕ}

theorem unit_eq_zero {n i j : ℕ} {p : R} (hi : i < n)
    (hp : (Buffer.unit n i : Array R)[j]? = some p) (hij : i ≠ j) : p = 0 := by
  have hget := Buffer.getD_unit (R := R) (j := j) hi
  rwa [Array.getD_eq_getD_getElem?, hp, Option.getD_some, if_neg hij] at hget

theorem getElem?_unit_self {n i : ℕ} (hi : i < n) :
    (Buffer.unit n i : Array R)[i]? = some 1 := by
  rw [Buffer.unit, Array.getElem?_setIfInBounds_self_of_lt (by rwa [Array.size_replicate])]

/-- The last element that both vectors have is not combined with the one in its place. -/
theorem partner?_ne (h : ¬ Aligned a b) : partner? a b (min a b - 1) ≠ some (min a b - 1) := by
  unfold Aligned at h
  unfold partner?
  by_cases ha : min a b - 1 < 4 * (a / 4)
  · rw [if_pos ha, if_neg (by omega)]
    exact Option.some_ne_none _ ∘ Eq.symm
  · rw [if_neg ha, ne_eq, Option.some.injEq]
    omega

/-- A kernel that adds to zeros a vector that is zero but for the last element that both have. -/
theorem blockwise_unit_ne [Nontrivial R] {block tail : R → R → R} (h : ¬ Aligned a b)
    (hblock : ∀ v, block 0 v = v) (htail : ∀ v, tail 0 v = v) :
    blockwise block tail (Array.replicate a 0) (Buffer.unit b (min a b - 1))
      ≠ onPrefix (blockwise block tail) (Array.replicate a 0) (Buffer.unit b (min a b - 1)) := by
  have hlt : min a b - 1 < a ∧ min a b - 1 < b := by
    unfold Aligned at h
    omega
  have hf : ∀ (c : Prop) [Decidable c] v, (if c then block else tail) 0 v = v := by
    intro c _ v
    split
    · exact hblock v
    · exact htail v
  intro heq
  have hget := congrArg (fun z => z[min a b - 1]?) heq
  rw [getElem?_blockwise, getElem?_onPrefix, Array.size_replicate, Buffer.size_unit,
    getElem?_unit_self hlt.2, Array.getElem?_replicate, if_pos hlt.1, Option.map_some,
    Option.map_some, Option.elim_some, hf, Option.some.injEq] at hget
  rcases hp : (partner? a b (min a b - 1)).bind ((Buffer.unit b (min a b - 1) : Array R)[·]?)
    with _ | v
  · rw [hp, Option.elim_none] at hget
    exact zero_ne_one hget
  · rw [hp, Option.elim_some, hf] at hget
    obtain ⟨j, hj, hv⟩ := Option.bind_eq_some_iff.1 hp
    have hne : min a b - 1 ≠ j := fun hij => partner?_ne h (hij ▸ hj)
    exact zero_ne_one ((unit_eq_zero hlt.2 hv hne).symm.trans hget)

/-- No product of two elements that are combined takes in the last element that both vectors have
twice. -/
theorem dot_unit_eq_zero (h : ¬ Aligned a b) :
    dot (Buffer.unit a (min a b - 1)) (Buffer.unit b (min a b - 1) : Array R) = 0 := by
  unfold Aligned at h
  have hlane : ∀ j < 4, laneSum (Buffer.unit a (min a b - 1))
      (Buffer.unit b (min a b - 1) : Array R) (min (a / 4) (b / 4)) j = 0 := by
    intro j hj
    rw [laneSum_eq_sum]
    refine Finset.sum_eq_zero fun i hi => ?_
    have hi := Finset.mem_range.1 hi
    rw [Buffer.getD_unit (by omega), if_neg (by omega), zero_mul]
  have htail : (Array.zipWith (· * ·) (remainder (Buffer.unit a (min a b - 1)))
      (remainder (Buffer.unit b (min a b - 1) : Array R))).toList.sum = 0 := by
    refine List.sum_eq_zero fun v hv => ?_
    obtain ⟨k, hk⟩ := List.mem_iff_getElem?.1 hv
    rw [Array.getElem?_toList, Array.getElem?_zipWith, getElem?_remainder, getElem?_remainder,
      Buffer.size_unit, Buffer.size_unit] at hk
    split at hk
    next p q hp hq =>
      obtain rfl := Option.some.inj hk
      by_cases hpk : min a b - 1 = 4 * (a / 4) + k
      · rw [unit_eq_zero (by omega) hq (by omega), mul_zero]
      · rw [unit_eq_zero (by omega) hp hpk, zero_mul]
    next => cases hk
  unfold dot
  dsimp only
  rw [blockCount, blockCount, Buffer.size_unit, Buffer.size_unit, hlane 0 (by omega),
    hlane 1 (by omega), hlane 2 (by omega), hlane 3 (by omega), sum_eq_sum, sum_eq_sum, htail]
  simp

theorem dot_take_unit {m i : ℕ} (hi : i < m) (ha : m ≤ a) (hb : m ≤ b) :
    dot ((Buffer.unit a i).take m) ((Buffer.unit b i : Array R).take m) = 1 := by
  have hget : ∀ n, m ≤ n → ∀ j < m,
      ((Buffer.unit n i : Array R).take m).getD j 0 = if i = j then 1 else 0 := by
    intro n hn j hj
    rw [Array.getD_eq_getD_getElem?, getElem?_take, if_pos hj, ← Array.getD_eq_getD_getElem?,
      Buffer.getD_unit (hi.trans_le hn)]
  have hsize : ∀ n, m ≤ n → ((Buffer.unit n i : Array R).take m).size = m := fun n hn =>
    size_take _ (hn.trans_eq (Buffer.size_unit n i).symm)
  rw [dot_eq_inner ((hsize a ha).trans (hsize b hb).symm),
    Buffer.inner_eq_sum (hsize a ha) (hsize b hb),
    Finset.sum_eq_single_of_mem i (Finset.mem_range.2 hi) fun j hj hne => by
      rw [hget a ha j (Finset.mem_range.1 hj), if_neg hne.symm, zero_mul],
    hget a ha i hi, hget b hb i hi, if_pos rfl, mul_one]

section

variable [Nontrivial R]

theorem aligned_of_dot (hall : ∀ x y : Array R, x.size = a → y.size = b →
    dot x y = dot (x.take (min a b)) (y.take (min a b))) : Aligned a b := by
  by_contra h
  have hlt : min a b - 1 < min a b := by
    unfold Aligned at h
    omega
  have heq := hall (Buffer.unit a (min a b - 1)) (Buffer.unit b (min a b - 1))
    (Buffer.size_unit a _) (Buffer.size_unit b _)
  rw [dot_unit_eq_zero h, dot_take_unit hlt (Nat.min_le_left a b) (Nat.min_le_right a b)] at heq
  exact zero_ne_one heq

theorem aligned_of_blockwise {block tail : R → R → R} (hblock : ∀ v, block 0 v = v)
    (htail : ∀ v, tail 0 v = v) (hall : ∀ x y : Array R, x.size = a → y.size = b →
      blockwise block tail y x = onPrefix (blockwise block tail) y x) : Aligned a b := by
  by_contra h
  have hswap : ¬ Aligned b a := fun hba => h hba.symm
  exact blockwise_unit_ne hswap hblock htail
    (hall _ _ (Buffer.size_unit a _) Array.size_replicate)

end

end Exact

/-- On vectors of lengths `a` and `b` the kernels work on the shorter prefix and keep the rest if
both have the same number of full blocks, or the shorter one has no remainder. For any other two
lengths each kernel does something else with some vectors, since the remainders do not start in one
place. -/
theorem on_prefixes_iff_aligned {R : Type} [ExactScalar R] [Nontrivial R] (a b : ℕ) :
    (Aligned a b → ∀ {α : Type} [Scalar α] (x y : Array α), x.size = a → y.size = b →
        OnPrefixes x y)
      ∧ ((∀ x y : Array R, x.size = a → y.size = b →
        dot x y = dot (x.take (min a b)) (y.take (min a b))) ↔ Aligned a b)
      ∧ ((∀ alpha, ∀ x y : Array R, x.size = a → y.size = b →
        axpy alpha x y = onPrefix (fun y x => axpy alpha x y) y x) ↔ Aligned a b)
      ∧ ((∀ alpha, ∀ x y : Array R, x.size = a → y.size = b →
        scaleInto alpha y x = onPrefix (scaleInto alpha) y x) ↔ Aligned a b)
      ∧ ((∀ x y : Array R, x.size = a → y.size = b →
        addAssign y x = onPrefix addAssign y x) ↔ Aligned a b) := by
  have hon : Aligned a b → ∀ {α : Type} [Scalar α] (x y : Array α), x.size = a → y.size = b →
      OnPrefixes x y := by
    rintro h α _ x y rfl rfl
    exact onPrefixes_of_aligned h
  refine ⟨hon, ⟨aligned_of_dot, fun h x y hx hy => ?_⟩,
    ⟨fun hall => ?_, fun h alpha x y hx hy => (hon h x y hx hy).axpy_eq alpha⟩,
    ⟨fun hall => ?_, fun h alpha x y hx hy => (hon h x y hx hy).scaleInto_eq alpha⟩,
    ⟨aligned_of_blockwise zero_add zero_add, fun h x y hx hy => (hon h x y hx hy).addAssign_eq⟩⟩
  · have hdot := (hon h x y hx hy).dot_eq
    rwa [hx, hy] at hdot
  · have hone : ∀ v : R, 0 + 1 * v = v := fun v => by rw [one_mul, zero_add]
    exact aligned_of_blockwise hone hone (hall 1)
  · exact aligned_of_blockwise mul_one one_mul (hall 1)

theorem on_prefixes_iff_aligned_rat :
    OnPrefixes (#[1, 2, 3, 4, 5] : Array Float) #[0.5, 1, 1, 1, 1, 1, 1]
      ∧ ¬ ∀ x y : Array ℚ, x.size = 5 → y.size = 3 → dot x y = dot (x.take 3) (y.take 3) := by
  obtain ⟨hon, -⟩ := on_prefixes_iff_aligned (R := ℚ) 5 7
  obtain ⟨-, hdot, -⟩ := on_prefixes_iff_aligned (R := ℚ) 5 3
  have h : ¬ Aligned 5 3 := by
    unfold Aligned
    omega
  exact ⟨hon (.inl rfl) _ _ (Eq.refl 5) (Eq.refl 7), fun hall => h (hdot.1 hall)⟩

/-- The fifth element of the longer vector is a remainder of its own, so it meets the first one of
the shorter vector. -/
theorem remainders_shifted :
    dot (#[1, 1, 1, 1, 2] : Array Float) #[1, 1, 1] = 2
      ∧ dot ((#[1, 1, 1, 1, 2] : Array Float).take 3) (#[1, 1, 1].take 3) = 3
      ∧ axpy (1 : Float) #[1, 1, 1, 1, 2] #[1, 1, 1] = #[3, 1, 1]
      ∧ onPrefix (fun y x => axpy (1 : Float) x y) #[1, 1, 1] #[1, 1, 1, 1, 2] = #[2, 2, 2] := by
  decide +kernel

end Kernel

end MatrixFree
