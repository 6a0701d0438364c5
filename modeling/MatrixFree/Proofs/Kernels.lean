import MatrixFree.Proofs.Exact
import MatrixFree.Kernel

/-!
# Kernels on vectors of one length

On two vectors of one length the blocks and the remainders line up, so a kernel treats the
elements place by place (`Kernel.blockwise_self`), and scaling does not look at what it replaces
(`Kernel.scaleInto_eq`). Over exact scalars the blocked inner product is the plain one
(`Kernel.dot_eq_inner`).
-/

namespace MatrixFree.Kernel

variable {α : Type}

theorem toList_zipOnto {f : α → α → α} {dest src : Array α} (h : dest.size = src.size) :
    (zipOnto f dest src).toList = List.zipWith f dest.toList src.toList := by
  have hd : dest.drop src.size = #[] := by simp [← h]
  rw [zipOnto, hd, Array.append_empty, Array.toList_zipWith]

theorem getElem?_take (v : Array α) (m i : ℕ) :
    (v.take m)[i]? = if i < m then v[i]? else none := by
  rw [Array.take_eq_extract, Array.getElem?_extract, Nat.zero_add]
  by_cases hi : i < v.size
  · exact if_congr (by omega) rfl rfl
  · rw [Array.getElem?_eq_none (Nat.not_lt.1 hi), ite_self, ite_self]

theorem size_take (v : Array α) {m : ℕ} (h : m ≤ v.size) : (v.take m).size = m := by
  rw [Array.take_eq_extract, Array.size_extract]
  omega

theorem blocks_append_remainder (v : Array α) : blocks v ++ remainder v = v := by
  rw [blocks, remainder, Array.take_eq_extract, Array.drop_eq_extract,
    Array.extract_append_extract, Nat.zero_min, Nat.max_eq_right, Array.extract_size]
  unfold blockCount
  omega

theorem size_blocks (v : Array α) : (blocks v).size = 4 * blockCount v :=
  size_take v (Nat.mul_div_le v.size 4)

theorem size_remainder (v : Array α) : (remainder v).size = v.size - 4 * blockCount v := by
  rw [remainder, Array.drop_eq_extract, Array.size_extract]
  omega

theorem getElem?_blocks (v : Array α) (i : ℕ) :
    (blocks v)[i]? = if i < 4 * blockCount v then v[i]? else none :=
  getElem?_take v _ i

theorem size_zipOnto (f : α → α → α) (dest src : Array α) :
    (zipOnto f dest src).size = dest.size := by
  rw [zipOnto, Array.size_append, Array.size_zipWith, Array.drop_eq_extract, Array.size_extract]
  omega

theorem size_blockwise (block tail : α → α → α) (dest src : Array α) :
    (blockwise block tail dest src).size = dest.size := by
  have h := congrArg Array.size (blocks_append_remainder dest)
  rw [Array.size_append] at h
  rw [blockwise, Array.size_append, size_zipOnto, size_zipOnto, h]

section OneLength

variable {dest src : Array α} (h : dest.size = src.size)
include h

theorem size_blocks_eq : (blocks dest).size = (blocks src).size := by
  rw [size_blocks, size_blocks, blockCount, blockCount, h]

theorem size_remainder_eq : (remainder dest).size = (remainder src).size := by
  rw [size_remainder, size_remainder, blockCount, blockCount, h]

theorem toList_blockwise (block tail : α → α → α) : (blockwise block tail dest src).toList =
    List.zipWith block (blocks dest).toList (blocks src).toList
      ++ List.zipWith tail (remainder dest).toList (remainder src).toList := by
  rw [blockwise, Array.toList_append, toList_zipOnto (size_blocks_eq h),
    toList_zipOnto (size_remainder_eq h)]

/-- A kernel that treats its blocks and its remainder alike goes place by place. -/
theorem blockwise_self (f : α → α → α) : blockwise f f dest src = Array.zipWith f dest src := by
  refine Array.toList_inj.1 ?_
  rw [toList_blockwise h, ← List.zipWith_append (by simpa using size_blocks_eq h),
    ← Array.toList_append, ← Array.toList_append, blocks_append_remainder,
    blocks_append_remainder, Array.toList_zipWith]

variable [Scalar α]

/-- Scaling replaces all elements, whatever they were. -/
theorem scaleInto_eq (alpha : α) : scaleInto alpha dest src =
    (blocks src).map (· * alpha) ++ (remainder src).map (alpha * ·) := by
  have key : ∀ (g : α → α) (l m : List α), l.length = m.length →
      List.zipWith (fun _ s => g s) l m = m.map g := by
    intro g l
    induction l with
    | nil => intro m hm; rw [List.length_eq_zero_iff.1 hm.symm]; rfl
    | cons a l ih =>
      intro m hm
      obtain ⟨b, m, rfl⟩ := List.exists_cons_of_length_eq_add_one hm.symm
      rw [List.zipWith_cons_cons, ih m (by simpa using hm), List.map_cons]
  refine Array.toList_inj.1 ?_
  rw [scaleInto, toList_blockwise h, key _ _ _ (by simpa using size_blocks_eq h),
    key _ _ _ (by simpa using size_remainder_eq h), Array.toList_append, Array.toList_map,
    Array.toList_map]

theorem addAssign_eq : addAssign dest src = Array.zipWith (· + ·) dest src :=
  blockwise_self h _

theorem axpy_eq (alpha : α) :
    axpy alpha src dest = Array.zipWith (fun y x => y + alpha * x) dest src :=
  blockwise_self h _

end OneLength

section

variable [Scalar α]

theorem size_scaleInto (alpha : α) (dest src : Array α) :
    (scaleInto alpha dest src).size = dest.size :=
  size_blockwise _ _ dest src

theorem size_addAssign (dest src : Array α) : (addAssign dest src).size = dest.size :=
  size_blockwise _ _ dest src

theorem size_axpy (alpha : α) (x y : Array α) : (axpy alpha x y).size = y.size :=
  size_blockwise _ _ y x

theorem size_axpyFrom (alpha : α) (x : Array α) (start : ℕ) (y : Array α) :
    (axpyFrom alpha x start y).size = y.size := by
  have key : ∀ (n : ℕ) (hn : n ≤ x.size), (n.fold (fun i _ y =>
      y.setIfInBounds (start + i) (y.getD (start + i) 0 + alpha * x[i])) y).size = y.size := by
    intro n
    induction n with
    | zero => intro _; rfl
    | succ n ih => intro hn; rw [Nat.fold_succ, Array.size_setIfInBounds]; exact ih (by omega)
  exact key x.size le_rfl

/-- Each place of the window gets its own product. -/
theorem getD_axpyFrom {alpha : α} {x y : Array α} {start : ℕ} (h : start + x.size ≤ y.size)
    (j : ℕ) : (axpyFrom alpha x start y).getD j 0 =
      if start ≤ j ∧ j < start + x.size then y.getD j 0 + alpha * x.getD (j - start) 0
      else y.getD j 0 := by
  have key : ∀ (n : ℕ) (hn : n ≤ x.size),
      (n.fold (fun i _ y =>
        y.setIfInBounds (start + i) (y.getD (start + i) 0 + alpha * x[i])) y).size = y.size
      ∧ ∀ j, (n.fold (fun i _ y =>
          y.setIfInBounds (start + i) (y.getD (start + i) 0 + alpha * x[i])) y).getD j 0 =
        if start ≤ j ∧ j < start + n then y.getD j 0 + alpha * x.getD (j - start) 0
        else y.getD j 0 := by
    intro n
    induction n with
    | zero => exact fun _ => ⟨rfl, fun j => by rw [if_neg (by omega)]; rfl⟩
    | succ n ih =>
      intro hn
      obtain ⟨hs, ih⟩ := ih (by omega)
      rw [Nat.fold_succ]
      refine ⟨by rw [Array.size_setIfInBounds, hs], fun j => ?_⟩
      rw [Array.getD_eq_getD_getElem?, Array.getElem?_setIfInBounds, hs, ih]
      by_cases hj : start + n = j
      · subst hj
        rw [if_pos rfl, if_pos (by omega), if_neg (by omega), if_pos (by omega),
          Nat.add_sub_cancel_left, Option.getD_some]
        congr 2
        exact Array.getElem_eq_getD 0
      · rw [if_neg hj, ← Array.getD_eq_getD_getElem?, ih]
        exact if_congr (by omega) rfl rfl
  exact (key x.size le_rfl).2 j

end

section Exact

variable {R : Type} [ExactScalar R]

theorem scaleInto_exact {dest src : Array R} (h : dest.size = src.size) (alpha : R) :
    scaleInto alpha dest src = src.map (alpha * ·) := by
  have hb : (fun s : R => s * alpha) = (alpha * ·) := funext fun s => mul_comm s alpha
  rw [scaleInto_eq h, hb, ← Array.map_append, blocks_append_remainder]

theorem sum_eq_sum (v : Array R) : sum v = v.toList.sum := by
  rw [sum, Scalar.sumStart_eq_zero, ← Array.foldl_toList, List.sum_eq_foldl]

theorem laneSum_eq_sum (x y : Array R) (n j : ℕ) :
    laneSum x y n j = ∑ i ∈ Finset.range n, x.getD (4 * i + j) 0 * y.getD (4 * i + j) 0 := by
  unfold laneSum
  induction n with
  | zero => rfl
  | succ n ih => rw [Nat.fold_succ, Finset.sum_range_succ, ih]

theorem sum_range_four_mul (f : ℕ → R) (n : ℕ) : ∑ i ∈ Finset.range (4 * n), f i =
    ∑ i ∈ Finset.range n, (f (4 * i + 0) + f (4 * i + 1) + f (4 * i + 2) + f (4 * i + 3)) := by
  induction n with
  | zero => rfl
  | succ n ih =>
    rw [Nat.mul_add_one, Finset.sum_range_succ, Finset.sum_range_succ, Finset.sum_range_succ,
      Finset.sum_range_succ, Finset.sum_range_succ _ n, ih]
    simp only [Nat.add_zero]
    ring

/-- The blocked inner product adds up the same products as the plain one. -/
theorem dot_eq_inner {x y : Array R} (h : x.size = y.size) : dot x y = Buffer.inner x y := by
  have hn : min (blockCount x) (blockCount y) = blockCount x := by
    rw [blockCount, blockCount, h, Nat.min_self]
  have hlane : ∀ j < 4, laneSum x y (blockCount x) j = ∑ i ∈ Finset.range (blockCount x),
      (blocks x).getD (4 * i + j) 0 * (blocks y).getD (4 * i + j) 0 := by
    intro j hj
    rw [laneSum_eq_sum]
    refine Finset.sum_congr rfl fun i hi => ?_
    have hi := Finset.mem_range.1 hi
    have get : ∀ v : Array R, blockCount v = blockCount x →
        (blocks v).getD (4 * i + j) 0 = v.getD (4 * i + j) 0 := by
      intro v hv
      rw [Array.getD_eq_getD_getElem?, getElem?_blocks, if_pos (by omega),
        ← Array.getD_eq_getD_getElem?]
    rw [get x rfl, get y (by rw [blockCount, blockCount, h])]
  have hblocks : Buffer.inner (blocks x) (blocks y) = laneSum x y (blockCount x) 0
      + laneSum x y (blockCount x) 1 + laneSum x y (blockCount x) 2
      + laneSum x y (blockCount x) 3 := by
    rw [Buffer.inner_eq_sum (size_blocks x) ((size_blocks_eq h).symm.trans (size_blocks x)),
      sum_range_four_mul, hlane 0 (by omega), hlane 1 (by omega), hlane 2 (by omega),
      hlane 3 (by omega)]
    simp only [Finset.sum_add_distrib]
  have hinner : Buffer.inner x y = Buffer.inner (blocks x) (blocks y)
      + Buffer.inner (remainder x) (remainder y) := by
    rw [← Buffer.inner_append (size_blocks_eq h), blocks_append_remainder,
      blocks_append_remainder]
  rw [hinner, hblocks, dot, hn, sum_eq_sum, sum_eq_sum, Array.toList_zipWith]
  simp only [List.sum_cons, List.sum_nil, add_zero, Buffer.inner]
  ring

theorem inner_axpy {x y z : Array R} {alpha : R} (hx : y.size = x.size) (hz : z.size = y.size) :
    Buffer.inner (axpy alpha x y) z = Buffer.inner y z + alpha * Buffer.inner x z := by
  rw [Buffer.inner_eq_sum (size_axpy alpha x y) hz, Buffer.inner_eq_sum rfl hz,
    Buffer.inner_eq_sum hx.symm hz, Finset.mul_sum, ← Finset.sum_add_distrib]
  refine Finset.sum_congr rfl fun i hi => ?_
  have hi := Finset.mem_range.1 hi
  rw [axpy_eq hx]
  simp only [Array.getD_eq_getD_getElem?, Array.getElem?_zipWith]
  have hix : i < x.size := by omega
  rw [Array.getElem?_eq_getElem hi, Array.getElem?_eq_getElem hix]
  simp only [Option.getD_some]
  ring

theorem inner_axpyFrom {x y z : Array R} {alpha : R} {start : ℕ} (h : start + x.size ≤ y.size)
    (hz : z.size = y.size) : Buffer.inner (axpyFrom alpha x start y) z =
      Buffer.inner y z + alpha * Buffer.inner x (z.extract start (start + x.size)) := by
  have hw : ∀ i < x.size, (z.extract start (start + x.size)).getD i 0 = z.getD (start + i) 0 := by
    intro i hi
    rw [Array.getD_eq_getD_getElem?, Array.getElem?_extract, if_pos (by omega),
      ← Array.getD_eq_getD_getElem?]
  have hsum : ∑ j ∈ Finset.range y.size, (if start ≤ j ∧ j < start + x.size
        then alpha * x.getD (j - start) 0 * z.getD j 0 else 0)
      = alpha * ∑ i ∈ Finset.range x.size,
          x.getD i 0 * (z.extract start (start + x.size)).getD i 0 := by
    obtain ⟨r, hr⟩ : ∃ r, y.size = start + x.size + r := ⟨y.size - (start + x.size), by omega⟩
    rw [hr, Finset.sum_range_add, Finset.sum_range_add, Finset.mul_sum,
      Finset.sum_eq_zero fun j hj => if_neg (by have := Finset.mem_range.1 hj; omega),
      Finset.sum_eq_zero (s := Finset.range r) fun j hj => if_neg (by omega), zero_add, add_zero]
    refine Finset.sum_congr rfl fun i hi => ?_
    have hi := Finset.mem_range.1 hi
    rw [if_pos (by omega), Nat.add_sub_cancel_left, hw i hi]
    ring
  rw [Buffer.inner_eq_sum (size_axpyFrom alpha x start y) hz, Buffer.inner_eq_sum rfl hz,
    Buffer.inner_eq_sum (n := x.size) rfl (by rw [Array.size_extract]; omega), ← hsum,
    ← Finset.sum_add_distrib]
  refine Finset.sum_congr rfl fun j _ => ?_
  rw [getD_axpyFrom h]
  split
  · ring
  · ring

end Exact

end MatrixFree.Kernel
