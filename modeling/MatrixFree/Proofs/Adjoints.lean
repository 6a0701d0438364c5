import MatrixFree.Proofs.Overwriting

/-!
# The adjoint law of every operator

Over exact scalars the adjoint direction of an operator is the transpose of its forward direction:
`Operator.inner_forward` moves an operator from one side of an inner product to the other. What
the result buffers held before does not matter (`Overwrites.eq_ok`), so each case is settled on
zeros: copies along links by one product per link, sums and convolutions slice by slice, matrix
products column by column.
-/

namespace MatrixFree

theorem Overwrites.eq_ok {α : Type} {f : Array α → Checked (Array α)} {n : ℕ} {s t r : Array α}
    (hf : Overwrites f n) (hs : s.size = n) (ht : t.size = n) (h : f s = .ok r) :
    f t = .ok r := by
  obtain ⟨out, -, hout⟩ := hf
  rw [hout t ht, ← hout s hs, h]

theorem toArray_map_range {α : Type} (f : ℕ → α) (n : ℕ) :
    ((List.range n).map f).toArray = (Array.range n).map f :=
  Array.toList_inj.1 (by simp)

variable {R : Type} [ExactScalar R]

namespace Buffer

theorem inner_map_mul (a : R) (x y : Array R) : inner (x.map (a * ·)) y = a * inner x y := by
  have h : List.zipWith (· * ·) (x.toList.map (a * ·)) y.toList
      = (List.zipWith (· * ·) x.toList y.toList).map (a * ·) := by
    rw [List.zipWith_map_left, List.map_zipWith]
    simp only [mul_assoc]
  rw [inner, inner, Array.toList_map, h, List.sum_map_mul_left, List.map_id']

/-- One buffer against a sequence of its copies: each part against it. -/
theorem inner_join_copies {y : Array R} : ∀ {parts : List (Array R)},
    (∀ p ∈ parts, p.size = y.size) →
    inner (join parts) (join (parts.map fun _ => y)) = (parts.map fun p => inner p y).sum
  | [], _ => by simp
  | p :: parts, h => by
    rw [join_cons, List.map_cons, join_cons, inner_append (h p List.mem_cons_self),
      inner_join_copies fun q hq => h q (List.mem_cons_of_mem _ hq), List.map_cons, List.sum_cons]

/-- Transposing every chunk transposes the whole. -/
theorem inner_join_range {n m k : ℕ} {x y : Array R} {g h : ℕ → Array R}
    (hx : x.size = k * n) (hy : y.size = k * m) (hg : ∀ i < k, (g i).size = m)
    (hh : ∀ i < k, (h i).size = n)
    (hgh : ∀ i < k, inner (g i) (Table.chunk y m i) = inner (Table.chunk x n i) (h i)) :
    inner (join ((List.range k).map g)) y = inner x (join ((List.range k).map h)) := by
  rw [inner_chunks (size_join_range hg) hy, inner_chunks hx (size_join_range hh)]
  refine Finset.sum_congr rfl fun i hi => ?_
  have hi := Finset.mem_range.1 hi
  rw [chunk_join_range hg hi, chunk_join_range hh hi, hgh i hi]

end Buffer

/-- Copying along pairs, and copying back along them, both into zeros. -/
theorem Table.inner_transfer_swap {pairs : List (ℕ × ℕ)} {x y r s : Array R}
    (hf : (pairs.map Prod.fst).Nodup) (hb : (pairs.map Prod.snd).Nodup)
    (hr : transfer x pairs (Array.replicate y.size 0) = .ok r)
    (hs : transfer y (pairs.map Prod.swap) (Array.replicate x.size 0) = .ok s) :
    Buffer.inner r y = Buffer.inner x s := by
  have hb : ((pairs.map Prod.swap).map Prod.fst).Nodup := by
    rw [List.map_map]
    exact hb
  rw [inner_transfer hf (fun p _ => Buffer.getD_replicate_zero _ _) Array.size_replicate.symm hr,
    Buffer.inner_comm x s,
    inner_transfer hb (fun p _ => Buffer.getD_replicate_zero _ _) Array.size_replicate.symm hs,
    Buffer.inner_replicate_zero, Buffer.inner_replicate_zero, List.map_map]
  refine congrArg (fun l => 0 + List.sum l) (List.map_congr_left fun p _ => ?_)
  exact mul_comm _ _

namespace Operator

theorem inner_rescale {a : R} {x y r s : Array R}
    (hf : rescale a (Array.replicate y.size 0) x = .ok r)
    (hb : rescale a (Array.replicate x.size 0) y = .ok s) :
    Buffer.inner r y = Buffer.inner x s := by
  obtain ⟨hx, rfl⟩ := Buffer.paired_eq_ok_iff.1 hf
  obtain ⟨hy, rfl⟩ := Buffer.paired_eq_ok_iff.1 hb
  rw [Kernel.scaleInto_exact hx, Kernel.scaleInto_exact hy, Buffer.inner_map_mul,
    Buffer.inner_comm x (y.map _), Buffer.inner_map_mul, Buffer.inner_comm x]

theorem inner_gather {links : List Link} {x y r s : Array R}
    (ho : (links.map Link.output).Nodup) (hi : (links.map Link.input).Nodup)
    (hr : gather links x (Array.replicate y.size 0) = .ok r)
    (hs : scatter links y (Array.replicate x.size 0) = .ok s) :
    Buffer.inner r y = Buffer.inner x s := by
  refine Table.inner_transfer_swap (?_ : ((links.map _).map _).Nodup) ?_ hr ?_
  · rwa [List.map_map]
  · rwa [List.map_map]
  · rw [List.map_map]
    exact hs

theorem inner_foldlM_add {n : ℕ} {y : Array R} (hy : y.size = n) :
    ∀ {parts : List (Array R)} {acc r : Array R}, (∀ p ∈ parts, p.size = n) → acc.size = n →
    parts.foldlM (fun acc part => Buffer.paired acc part (Kernel.addAssign acc part)) acc = .ok r →
    Buffer.inner r y = Buffer.inner acc y + (parts.map fun p => Buffer.inner p y).sum
  | [], acc, r, _, _, h => by
    simp only [List.foldlM_nil, pure, Except.pure, Except.ok.injEq] at h
    rw [h, List.map_nil, List.sum_nil, add_zero]
  | p :: parts, acc, r, hp, ha, h => by
    have hs : acc.size = p.size := by rw [ha, hp p List.mem_cons_self]
    have hadd : Kernel.addAssign acc p = Kernel.axpy 1 p acc := by
      rw [Kernel.addAssign_eq hs, Kernel.axpy_eq hs]
      simp only [one_mul]
    rw [List.foldlM_cons, Buffer.paired_of_eq hs, ok_bind] at h
    rw [inner_foldlM_add hy (fun q hq => hp q (List.mem_cons_of_mem _ hq))
        (by rw [Kernel.size_addAssign, ha]) h, hadd, Kernel.inner_axpy hs (by rw [hy, ha]),
      one_mul, List.map_cons, List.sum_cons, add_assoc]

theorem inner_sumOf {n : ℕ} {parts : List (Array R)} {dest y r : Array R} (hy : y.size = n)
    (hp : ∀ p ∈ parts, p.size = n) (hd : dest.size = n) (h : sumOf parts dest = .ok r) :
    Buffer.inner r y = (parts.map fun p => Buffer.inner p y).sum := by
  rcases parts with _ | ⟨p, parts⟩
  · cases h
  · rw [List.forall_mem_cons] at hp
    rw [sumOf, Buffer.copy_of_eq (by rw [hd, hp.1]), ok_bind] at h
    rw [inner_foldlM_add hy hp.2 hp.1 h, List.map_cons, List.sum_cons]

/-- Adding up slices is transposed to copying onto each of them. -/
theorem inner_sumOf_segments {shapes : List Shape} (hf : Shape.Fits shapes) {x y r s : Array R}
    (h : ∀ t ∈ shapes, t.size = y.size) (hx : x.size = Shape.total shapes)
    (hr : (Buffer.segments x 0 (shapes.map Shape.size) >>= fun parts =>
      sumOf parts (Array.replicate y.size 0)) = .ok r)
    (hs : Buffer.mapSegments (fun part => Buffer.copy part y) (shapes.map Shape.size)
      (Array.replicate x.size 0) = .ok s) : Buffer.inner r y = Buffer.inner x s := by
  have hx : x.size = (shapes.map Shape.size).sum := hx.trans hf.total_eq_sum
  have hlt : x.size < UInt64.size := hx ▸ hf.sum_lt
  have hn : ∀ n ∈ shapes.map Shape.size, n = y.size := fun n hn => by
    obtain ⟨t, ht, rfl⟩ := List.mem_map.1 hn
    exact h t ht
  have hp : ∀ p ∈ Buffer.cuts x 0 (shapes.map Shape.size), p.size = y.size := fun p hp =>
    Buffer.size_of_mem_cuts (by omega) hn hp
  rw [Buffer.segments_eq_ok hlt 0 _ (by omega), ok_bind] at hr
  rw [Buffer.mapSegments_copy_eq_ok (by rwa [Array.size_replicate])
    (by rw [Array.size_replicate, hx]) hn, Except.ok.injEq] at hs
  have hjoin : Buffer.join (Buffer.cuts x 0 (shapes.map Shape.size)) = x := by
    rw [Buffer.join_cuts x 0 _ (by omega), Nat.zero_add, ← hx, Array.extract_size]
  have hconst : (Buffer.cuts x 0 (shapes.map Shape.size)).map (fun _ => y)
      = (shapes.map Shape.size).map fun _ => y := by
    rw [List.map_const', List.map_const', Buffer.length_cuts]
  rw [inner_sumOf rfl hp Array.size_replicate hr, ← Buffer.inner_join_copies hp, hjoin, hconst, hs]

/-- Spreading taps is transposed to taking the inner product with each window. -/
theorem inner_spread {taps z : Array R} : ∀ (x : List R) {i : ℕ} {y r : Array R},
    y.size = z.size → spread taps i x y = .ok r → Buffer.inner r z = Buffer.inner y z
      + Buffer.inner x.toArray ((List.range' i x.length).map fun j =>
          Buffer.inner taps (z.extract j (j + taps.size))).toArray
  | [], i, y, r, _, h => by
    simp only [spread, Except.ok.injEq] at h
    rw [h, Buffer.inner_empty, add_zero]
  | a :: x, i, y, r, hy, h => by
    unfold spread at h
    obtain ⟨_, hrange, h⟩ := bind_eq_ok_iff.1 h
    rw [inner_spread x (by rw [Kernel.size_axpyFrom, hy]) h,
      Kernel.inner_axpyFrom (Table.range_eq_ok_iff.1 hrange).2 hy.symm, List.length_cons,
      List.range'_succ, List.map_cons, inner_cons, add_assoc]

theorem inner_dense {A : DenseMatrix R} (hA : A.Full) {k : ℕ} {x y r s : Array R}
    (hr : A.rows.toNat ≠ 0) (hc : A.cols.toNat ≠ 0) (hx : x.size = k * A.cols.toNat)
    (hy : y.size = k * A.rows.toNat) (hf : A.mul x (Array.replicate y.size 0) = .ok r)
    (hb : A.mulTranspose y (Array.replicate x.size 0) = .ok s) :
    Buffer.inner r y = Buffer.inner x s := by
  obtain ⟨g, hg, hmul⟩ := DenseMatrix.exists_mul hA hr hc hx
  rw [hmul _ (by rw [Array.size_replicate, hy]), Except.ok.injEq] at hf
  rw [DenseMatrix.mulTranspose_eq_ok hA hr hc hy (by rw [Array.size_replicate, hx]),
    Except.ok.injEq] at hb
  rw [← hf, ← hb]
  refine Buffer.inner_join_range hx hy (fun i hi => (hg i hi).1) (fun i _ => by simp) fun i hi => ?_
  have hlen : (Table.chunk x A.cols.toNat i).toList.length = A.cols.toNat := by
    rw [Array.length_toList, Table.size_chunk hx hi]
  rw [DenseMatrix.inner_combine hA (Table.size_chunk hy hi) _ (by rw [hlen, Nat.zero_add])
    Array.size_replicate (hg i hi).2, Buffer.inner_replicate_zero, zero_add, Array.toArray_toList,
    hlen, ← List.range_eq_range', toArray_map_range]

theorem inner_sparse {A : SparseMatrix R} (hA : A.WellFormed) {k : ℕ} {x y r s : Array R}
    (hr : A.rows.toNat ≠ 0) (hc : A.cols.toNat ≠ 0) (hx : x.size = k * A.cols.toNat)
    (hy : y.size = k * A.rows.toNat) (hf : A.mul x (Array.replicate y.size 0) = .ok r)
    (hb : A.mulTranspose y (Array.replicate x.size 0) = .ok s) :
    Buffer.inner r y = Buffer.inner x s := by
  obtain ⟨d, hd, hmul⟩ := SparseMatrix.exists_mul hA hr hc hx
  obtain ⟨g, hg, hmul'⟩ := SparseMatrix.exists_mulTranspose hA hr hc hy
  rw [hmul _ (by rw [Array.size_replicate, hy]), Except.ok.injEq] at hf
  rw [hmul' _ (by rw [Array.size_replicate, hx]), Except.ok.injEq] at hb
  rw [← hf, ← hb]
  refine Buffer.inner_join_range hx hy (fun i _ => by simp) (fun i hi => (hg i hi).1) fun i hi => ?_
  have hlen : (Table.chunk y A.rows.toNat i).toList.length = A.rows.toNat := by
    rw [Array.length_toList, Table.size_chunk hy hi]
  rw [Buffer.inner_comm _ (g i), SparseMatrix.inner_combine hA (Table.size_chunk hx hi) _
    (by rw [hlen, Nat.zero_add]) Array.size_replicate (hg i hi).2 fun c _ hc =>
      hd i hi c (by rwa [hlen, Nat.zero_add] at hc), Buffer.inner_replicate_zero, zero_add,
    Array.toArray_toList, hlen, ← List.range_eq_range', toArray_map_range, Buffer.inner_comm]

/-- The adjoint law: an operator moves to the other side of an inner product as its adjoint. -/
theorem inner_forward {op : Operator R} {sig : Signature} (hop : op.Accepts sig)
    (hi : Shape.Fits sig.inputs) (ho : Shape.Fits sig.outputs) {x y s t ax aty : Array R}
    (hx : x.size = sig.inputLength) (hy : y.size = sig.outputLength)
    (hs : s.size = sig.outputLength) (ht : t.size = sig.inputLength)
    (hf : op.forward sig x s = .ok ax) (hb : op.adjoint sig y t = .ok aty) :
    Buffer.inner ax y = Buffer.inner x aty := by
  replace hf := (overwrites_forward hop hi ho hx).eq_ok (t := Array.replicate y.size 0) hs
    (by rw [Array.size_replicate, hy]) hf
  replace hb := (overwrites_adjoint hop hi ho hy).eq_ok (t := Array.replicate x.size 0) ht
    (by rw [Array.size_replicate, hx]) hb
  cases op
  case identity | concat | split =>
    obtain ⟨-, rfl⟩ := Buffer.paired_eq_ok_iff.1 hf
    obtain ⟨-, rfl⟩ := Buffer.paired_eq_ok_iff.1 hb
    rfl
  case negate | scale =>
    exact inner_rescale hf hb
  case dense A =>
    obtain ⟨i, o, k, rfl, hd, hdl, hk⟩ := hop
    rw [inputLength_single, hk.input_size] at hx
    rw [outputLength_single, hk.output_size] at hy
    exact inner_dense ⟨hd, hdl⟩ hk.rows_ne hk.cols_ne hx hy hf hb
  case sparse A =>
    obtain ⟨i, o, k, rfl, hA, hk⟩ := hop
    rw [inputLength_single, hk.input_size] at hx
    rw [outputLength_single, hk.output_size] at hy
    exact inner_sparse hA hk.rows_ne hk.cols_ne hx hy hf hb
  case sum =>
    obtain ⟨is, o, -, rfl, h⟩ := hop
    rw [Signature.outputLength, Shape.total_single] at hy
    exact inner_sumOf_segments hi (fun t ht => (h t ht).trans hy.symm) hx hf hb
  case copy =>
    obtain ⟨i, os, -, rfl, h⟩ := hop
    rw [Signature.inputLength, Shape.total_single] at hx
    rw [Buffer.inner_comm, Buffer.inner_comm x]
    exact (inner_sumOf_segments ho (fun t ht => (h t ht).trans hx.symm) hy hb hf).symm
  case stack =>
    obtain ⟨is, o, -, rfl, hcols, hrows, h⟩ := hop
    have hc := complete_stack hi ho hcols hrows h
    dsimp only [forward, adjoint] at hf hb
    rw [pick_single, ok_bind] at hf hb
    exact inner_gather hc.outputs_nodup hc.inputs_nodup hf hb
  case stride start step =>
    obtain ⟨i, o, rfl, hstep, -⟩ := hop
    dsimp only [forward, adjoint] at hf hb
    rw [Array.size_replicate] at hf
    rw [Buffer.fill, Array.size_replicate] at hb
    refine inner_gather ?_ ?_ hf hb
    · rw [strideLinks, List.map_map]
      exact List.nodup_range.map fun _ _ h => h
    · rw [strideLinks, List.map_map]
      refine List.nodup_range.map fun a b h => ?_
      exact Nat.eq_of_mul_eq_mul_right (Nat.pos_of_ne_zero hstep) (Nat.add_left_cancel h)
  case transpose =>
    obtain ⟨i, o, rfl, hr, hcc⟩ := hop
    have hc := complete_transpose hi ho hr hcc
    dsimp only [forward, adjoint] at hf hb
    rw [pick_single, ok_bind] at hf hb
    exact inner_gather hc.outputs_nodup hc.inputs_nodup hf hb
  case diagonal =>
    dsimp only [forward, adjoint] at hf hb
    rw [Array.size_replicate] at hb
    rw [Buffer.fill, Array.size_replicate] at hf
    exact Table.inner_transfer_swap (nodup_diagonal _)
      (by rw [map_snd_diagonal]; exact List.nodup_range) hf hb
  case diagonalPart =>
    dsimp only [forward, adjoint] at hf hb
    rw [Array.size_replicate] at hf
    rw [Buffer.fill, Array.size_replicate] at hb
    rw [Buffer.inner_comm, Buffer.inner_comm x]
    exact (Table.inner_transfer_swap (nodup_diagonal _)
      (by rw [map_snd_diagonal]; exact List.nodup_range) hb hf).symm
  case convolve taps =>
    obtain ⟨i, o, rfl, -, h⟩ := hop
    rw [inputLength_single] at hx
    rw [outputLength_single] at hy
    have hylt : y.size < UInt64.size := hy ▸ o.size_lt
    dsimp only [forward, adjoint] at hf hb
    rw [Buffer.fill, Array.size_replicate] at hf
    rw [Array.size_replicate, Overwrites.slide_eq_ok hylt (by omega), Except.ok.injEq] at hb
    rw [inner_spread _ Array.size_replicate hf, Buffer.inner_replicate_zero, zero_add,
      Array.toArray_toList, Array.length_toList, ← List.range_eq_range', toArray_map_range, ← hb]
    congr 1
    refine Array.map_congr_left fun j hj => ?_
    have hj := Array.mem_range.1 hj
    exact (Kernel.dot_eq_inner (by rw [Array.size_extract]; omega)).symm

/-- On a signature that passes the check, with sizes that fit, both directions succeed whatever the
result buffers held, and they are transposes of each other. -/
theorem adjoint_law {op : Operator R} {sig : Signature} (hcheck : op.check sig = .ok ())
    (hi : Shape.Fits sig.inputs) (ho : Shape.Fits sig.outputs) {x y s t : Array R}
    (hx : x.size = sig.inputLength) (hy : y.size = sig.outputLength)
    (hs : s.size = sig.outputLength) (ht : t.size = sig.inputLength) : ∃ ax aty : Array R,
      op.forward sig x s = .ok ax ∧ ax.size = sig.outputLength
      ∧ op.adjoint sig y t = .ok aty ∧ aty.size = sig.inputLength
      ∧ Buffer.inner ax y = Buffer.inner x aty ∧ Kernel.dot ax y = Kernel.dot x aty := by
  have hop := accepts_of_check hcheck
  obtain ⟨ax, hax, hf⟩ := overwrites_forward hop hi ho hx
  obtain ⟨aty, haty, hb⟩ := overwrites_adjoint hop hi ho hy
  have hinner := inner_forward hop hi ho hx hy hs ht (hf s hs) (hb t ht)
  refine ⟨ax, aty, hf s hs, hax, hb t ht, haty, hinner, ?_⟩
  rw [Kernel.dot_eq_inner (by rw [hax, hy]), Kernel.dot_eq_inner (by rw [hx, haty]), hinner]

/-- A block of one row above a block of two. -/
def blocks : Signature := ⟨[.matrix 1 2, .matrix 2 2], [.matrix 3 2]⟩

theorem adjoint_law_blocks : ∃ ax aty : Array ℚ,
    stack.forward blocks #[1, 2, 3, 4, 5, 6] #[7, 7, 7, 7, 7, 7] = .ok ax
      ∧ stack.adjoint blocks #[6, 5, 4, 3, 2, 1] #[8, 8, 8, 8, 8, 8] = .ok aty
      ∧ Buffer.inner ax #[6, 5, 4, 3, 2, 1] = Buffer.inner #[1, 2, 3, 4, 5, 6] aty := by
  have hcheck : (stack : Operator ℚ).check blocks = .ok () := by decide +kernel
  obtain ⟨ax, aty, hf, -, hb, -, hinner, -⟩ := adjoint_law hcheck ⟨by decide, by decide⟩
    ⟨by decide, by decide⟩ (x := #[1, 2, 3, 4, 5, 6]) (y := #[6, 5, 4, 3, 2, 1])
    (s := #[7, 7, 7, 7, 7, 7]) (t := #[8, 8, 8, 8, 8, 8]) rfl rfl rfl rfl
  exact ⟨ax, aty, hf, hb, hinner⟩

end Operator

end MatrixFree
