import MatrixFree.Proofs.Links
import MatrixFree.Proofs.Matrices

/-!
# Operators overwrite their results

A buffer step `Overwrites` its target if it succeeds and gives the same contents whatever a target
of the right length held before. Every operator does, in both directions, on a signature that it
accepts (`Operator.overwrites_forward`, `Operator.overwrites_adjoint`), so nothing that a result
buffer held before is seen afterwards.
-/

namespace MatrixFree

variable {α : Type}

/-- The step succeeds on every target of length `n`, with one result of that length. -/
def Overwrites (f : Array α → Checked (Array α)) (n : ℕ) : Prop :=
  ∃ out : Array α, out.size = n ∧ ∀ stale : Array α, stale.size = n → f stale = .ok out

namespace Overwrites

theorem congr {f g : Array α → Checked (Array α)} {n : ℕ} (hg : Overwrites g n)
    (h : ∀ stale : Array α, stale.size = n → f stale = g stale) : Overwrites f n := by
  obtain ⟨out, hout, hs⟩ := hg
  exact ⟨out, hout, fun stale hsize => (h stale hsize).trans (hs stale hsize)⟩

theorem of_fill {f : Array α → Checked (Array α)} {n : ℕ} {a : α}
    (h : ∃ out, out.size = n ∧ f (Array.replicate n a) = .ok out) :
    Overwrites (fun stale => f (Buffer.fill stale a)) n := by
  obtain ⟨out, hout, hf⟩ := h
  refine ⟨out, hout, fun stale hsize => ?_⟩
  dsimp only [Buffer.fill]
  rw [hsize, hf]

theorem copy {x : Array α} {n : ℕ} (hx : x.size = n) :
    Overwrites (fun stale => Buffer.copy stale x) n :=
  ⟨x, hx, fun _ hsize => Buffer.copy_of_eq (by omega)⟩

theorem mapSegments_copy {x : Array α} {ns : List ℕ} (hlt : ns.sum < UInt64.size)
    (hn : ∀ n ∈ ns, n = x.size) :
    Overwrites (Buffer.mapSegments (fun part => Buffer.copy part x) ns) ns.sum := by
  refine ⟨Buffer.join (ns.map fun _ => x), ?_, fun stale hsize =>
    Buffer.mapSegments_copy_eq_ok (by omega) hsize hn⟩
  rw [Buffer.size_join, List.map_map]
  exact congrArg List.sum ((List.map_congr_left fun n h => (hn n h).symm).trans (List.map_id ns))

theorem transfer {x : Array α} {pairs : List (ℕ × ℕ)} {n : ℕ} (hn : n < UInt64.size)
    (hx : x.size < UInt64.size) (hlt : ∀ p ∈ pairs, p.1 < n ∧ p.2 < x.size)
    (hall : ∀ j < n, j ∈ pairs.map Prod.fst) : Overwrites (Table.transfer x pairs) n := by
  have total : ∀ d : Array α, d.size = n → ∃ r, Table.transfer x pairs d = .ok r :=
    fun d hd => Table.exists_transfer hx (by omega) (by simpa only [hd] using hlt)
  by_cases h0 : n = 0
  · obtain ⟨r, hr⟩ := total #[] (by simp [h0])
    refine ⟨r, by rw [Table.size_of_transfer hr, h0, Array.size_empty], fun stale hsize => ?_⟩
    rw [Array.size_eq_zero_iff.1 (hsize.trans h0), hr]
  · obtain ⟨p, hp, -⟩ := List.mem_map.1 (hall 0 (by omega))
    have hin := (hlt p hp).2
    obtain ⟨r, hr⟩ := total (Array.replicate n x[p.2]) Array.size_replicate
    have hsize := Table.size_of_transfer hr
    rw [Array.size_replicate] at hsize
    refine ⟨r, hsize, fun stale hs => ?_⟩
    obtain ⟨r', hr'⟩ := total stale hs
    rw [hr', Table.transfer_congr (by rw [hs, Array.size_replicate]) (by rwa [hs]) hr' hr]

section Links

variable {links : List Operator.Link} {m n : ℕ} (hc : Operator.Complete links m n)
include hc

theorem gather {x : Array α} (hx : x.size = n) (hm : m < UInt64.size) (hn : n < UInt64.size) :
    Overwrites (Operator.gather links x) m := by
  refine .transfer hm (by omega) (fun p hp => ?_) fun j hj => ?_
  · obtain ⟨l, hl, rfl⟩ := List.mem_map.1 hp
    exact ⟨hc.output_lt l hl, hx ▸ hc.input_lt l hl⟩
  · rw [List.map_map]
    exact hc.mem_outputs hj

theorem scatter {y : Array α} (hy : y.size = m) (hm : m < UInt64.size) (hn : n < UInt64.size) :
    Overwrites (Operator.scatter links y) n :=
  (gather hc.swap hy hn hm).congr fun _ _ => Operator.scatter_eq_gather links y _

end Links

variable [Scalar α]

theorem rescale {x : Array α} {n : ℕ} (hx : x.size = n) (a : α) :
    Overwrites (fun stale => Operator.rescale a stale x) n := by
  refine ⟨Kernel.scaleInto a x x, by rw [Kernel.size_scaleInto, hx], fun stale hs => ?_⟩
  dsimp only [Operator.rescale]
  rw [Buffer.paired_of_eq (by omega), Kernel.scaleInto_eq (by omega), Kernel.scaleInto_eq rfl]

theorem exists_foldlM_add {n : ℕ} : ∀ {parts : List (Array α)} {acc : Array α},
    (∀ p ∈ parts, p.size = n) → acc.size = n →
    ∃ r, parts.foldlM (fun acc part => Buffer.paired acc part (Kernel.addAssign acc part)) acc
      = .ok r ∧ r.size = n
  | [], acc, _, ha => ⟨acc, rfl, ha⟩
  | p :: parts, acc, hp, ha => by
    have hsize : acc.size = p.size := by rw [ha, hp p List.mem_cons_self]
    rw [List.foldlM_cons, Buffer.paired_of_eq hsize, ok_bind]
    exact exists_foldlM_add (fun q hq => hp q (List.mem_cons_of_mem _ hq))
      (by rw [Kernel.size_addAssign, ha])

theorem sumOf {parts : List (Array α)} {n : ℕ} (hne : parts ≠ [])
    (hp : ∀ p ∈ parts, p.size = n) : Overwrites (Operator.sumOf parts) n := by
  obtain ⟨first, rest, rfl⟩ := List.exists_cons_of_ne_nil hne
  rw [List.forall_mem_cons] at hp
  obtain ⟨r, hr, hsize⟩ := exists_foldlM_add hp.2 hp.1
  refine ⟨r, hsize, fun stale hs => ?_⟩
  dsimp only [Operator.sumOf]
  rw [Buffer.copy_of_eq (by omega), ok_bind, hr]

theorem exists_spread (taps : Array α) : ∀ (x : List α) {i : ℕ} {y : Array α},
    y.size < UInt64.size → (x ≠ [] → i + x.length + taps.size ≤ y.size + 1) →
    ∃ r, Operator.spread taps i x y = .ok r ∧ r.size = y.size
  | [], i, y, _, _ => ⟨y, rfl, rfl⟩
  | a :: x, i, y, hlt, h => by
    have h := h (List.cons_ne_nil a x)
    rw [List.length_cons] at h
    have hr : Table.range y i taps.size = .ok () :=
      Table.range_eq_ok_iff.2 ⟨by omega, by omega⟩
    obtain ⟨r, hr', hs⟩ := exists_spread taps x (i := i + 1)
      (y := Kernel.axpyFrom a taps i y) (by rwa [Kernel.size_axpyFrom])
      (fun _ => by rw [Kernel.size_axpyFrom]; omega)
    refine ⟨r, ?_, by rw [hs, Kernel.size_axpyFrom]⟩
    unfold Operator.spread
    rw [hr, ok_bind, hr']

theorem slide_eq_ok {taps y : Array α} {n : ℕ} (hy : y.size < UInt64.size)
    (h : y.size + 1 = n + taps.size) : Operator.slide taps y n =
      .ok ((Array.range n).map fun i => Kernel.dot taps (y.extract i (i + taps.size))) := by
  unfold Operator.slide
  refine array_mapM_eq_ok fun i hi => ?_
  have hi := Array.mem_range.1 hi
  rw [Table.slice_of_le hy (by omega)]
  rfl

end Overwrites

namespace Operator

variable {i o : Shape} {x : Array α}

theorem inputLength_single : Signature.inputLength ⟨[i], [o]⟩ = i.size := Shape.total_single i

theorem outputLength_single : Signature.outputLength ⟨[i], [o]⟩ = o.size := Shape.total_single o

theorem pick_single : Table.pick [i] 0 = .ok i := Table.pick_eq_ok_iff.2 ⟨by decide, rfl⟩

section Shapes

variable {shapes : List Shape} {n : ℕ} (hf : Shape.Fits shapes) (h : ∀ s ∈ shapes, s.size = n)
include hf h

theorem overwrites_sumOf [Scalar α] (hne : shapes ≠ []) (hx : x.size = Shape.total shapes) :
    Overwrites (fun stale => do sumOf (← Buffer.segments x 0 (shapes.map Shape.size)) stale) n := by
  have hx : x.size = (shapes.map Shape.size).sum := hx.trans hf.total_eq_sum
  have hcut : Buffer.segments x 0 (shapes.map Shape.size)
      = .ok (Buffer.cuts x 0 (shapes.map Shape.size)) :=
    Buffer.segments_eq_ok (by rw [hx]; exact hf.sum_lt) 0 _ (by omega)
  have hsum : Overwrites (sumOf (Buffer.cuts x 0 (shapes.map Shape.size))) n := by
    refine .sumOf (fun h0 => hne ?_) fun p hp => ?_
    · simpa [h0] using (Buffer.length_cuts x 0 (shapes.map Shape.size)).symm
    · refine Buffer.size_of_mem_cuts (by omega) (fun n hn => ?_) hp
      obtain ⟨s, hs, rfl⟩ := List.mem_map.1 hn
      exact h s hs
  refine hsum.congr fun stale _ => ?_
  rw [hcut, ok_bind]

theorem overwrites_onEach (hx : x.size = n) : Overwrites
    (Buffer.mapSegments (fun part => Buffer.copy part x) (shapes.map Shape.size))
    (Shape.total shapes) := by
  rw [hf.total_eq_sum]
  refine .mapSegments_copy hf.sum_lt fun n hn => ?_
  obtain ⟨s, hs, rfl⟩ := List.mem_map.1 hn
  rw [h s hs, hx]

end Shapes

theorem overwrites_diagonal {n : ℕ} (hx : x.size = n) (hn : n < UInt64.size) [Zero α]
    (hm : n * n < UInt64.size) : Overwrites (fun stale =>
      Table.transfer x (diagonalLinks x.size) (Buffer.fill stale 0)) (n * n) := by
  obtain ⟨r, hr⟩ : ∃ r, Table.transfer x (diagonalLinks x.size)
      (Array.replicate (n * n) 0) = .ok r :=
    Table.exists_transfer (by omega) (by rwa [Array.size_replicate]) fun p hp => by
      rw [Array.size_replicate, ← hx]
      exact diagonal_lt hp
  exact .of_fill ⟨r, by rw [Table.size_of_transfer hr, Array.size_replicate], hr⟩

theorem overwrites_diagonalPart {n : ℕ} (hx : x.size = n * n) (hn : n < UInt64.size)
    (hm : n * n < UInt64.size) : Overwrites (fun stale =>
      Table.transfer x ((diagonalLinks stale.size).map Prod.swap) stale) n := by
  refine .congr (g := Table.transfer x ((diagonalLinks n).map Prod.swap))
    (.transfer hn (by omega) (fun p hp => ?_) fun j hj => ?_) fun stale hs => by rw [hs]
  · obtain ⟨q, hq, rfl⟩ := List.mem_map.1 hp
    have := diagonal_lt hq
    exact ⟨this.2, hx ▸ this.1⟩
  · rw [List.map_map]
    have : Prod.fst ∘ Prod.swap = (Prod.snd : ℕ × ℕ → ℕ) := rfl
    rw [this, map_snd_diagonal]
    exact List.mem_range.2 hj

theorem overwrites_strideGather {start step n : ℕ} (h : ∀ j < n, start + j * step < x.size)
    (hx : x.size < UInt64.size) (hn : n < UInt64.size) :
    Overwrites (fun stale => gather (strideLinks start step stale.size) x stale) n := by
  refine .congr (g := gather (strideLinks start step n) x)
    (.transfer hn hx (fun p hp => ?_) fun j hj => ?_) fun stale hs => by rw [hs]
  · simp only [strideLinks, List.map_map, List.mem_map, List.mem_range] at hp
    obtain ⟨j, hj, rfl⟩ := hp
    exact ⟨hj, h j hj⟩
  · simpa [strideLinks] using hj

theorem overwrites_strideScatter [Zero α] {start step n : ℕ}
    (h : ∀ j < x.size, start + j * step < n) (hx : x.size < UInt64.size) (hn : n < UInt64.size) :
    Overwrites (fun stale =>
      scatter (strideLinks start step x.size) x (Buffer.fill stale 0)) n := by
  obtain ⟨r, hr⟩ : ∃ r, scatter (strideLinks start step x.size) x (Array.replicate n 0)
      = .ok r := by
    refine Table.exists_transfer hx (by rwa [Array.size_replicate]) fun p hp => ?_
    simp only [strideLinks, List.map_map, List.mem_map, List.mem_range] at hp
    obtain ⟨j, hj, rfl⟩ := hp
    rw [Array.size_replicate]
    exact ⟨h j hj, hj⟩
  exact .of_fill ⟨r, by rw [Table.size_of_transfer hr, Array.size_replicate], hr⟩

theorem complete_stack {is : List Shape} (hi : Shape.Fits is) (ho : Shape.Fits [o])
    (hcols : ∀ s ∈ is, s.cols = o.cols) (hrows : (is.map Shape.rows).sum = o.rows)
    (h : Shape.total is = o.size) : Complete (stackLinks o.rows 0 0 is) o.size o.size := by
  have hsize := ho.size_eq_mul (List.mem_singleton.2 rfl)
  rw [hi.total_eq_sum, hsize] at h
  rw [hsize]
  exact complete_stackLinks (fun s hs => hi.size_eq_mul hs) hcols hrows h

theorem complete_transpose (hi : Shape.Fits [i]) (ho : Shape.Fits [o]) (hr : o.rows = i.cols)
    (hc : o.cols = i.rows) : Complete (transposeLinks i.rows i.cols) o.size i.size := by
  have hsize := hi.size_eq_mul (List.mem_singleton.2 rfl)
  have ho : o.size = i.size := by
    rw [ho.size_eq_mul (List.mem_singleton.2 rfl), hr, hc, hsize, Nat.mul_comm]
  rw [ho, hsize]
  exact complete_transposeLinks i.rows i.cols

section

variable [Scalar α] {op : Operator α} {sig : Signature} (hop : op.Accepts sig)
  (hi : Shape.Fits sig.inputs) (ho : Shape.Fits sig.outputs)
include hop hi ho

theorem overwrites_forward (hx : x.size = sig.inputLength) :
    Overwrites (op.forward sig x) sig.outputLength := by
  have hin : sig.inputLength < UInt64.size := hi.total_lt
  have hout : sig.outputLength < UInt64.size := ho.total_lt
  cases op
  case identity =>
    obtain ⟨i, o, rfl, h⟩ := hop
    rw [inputLength_single] at hx
    rw [outputLength_single]
    exact .copy (hx.trans h)
  case negate | scale =>
    obtain ⟨i, o, rfl, h⟩ := hop
    rw [inputLength_single] at hx
    rw [outputLength_single]
    exact .rescale (hx.trans h) _
  case concat =>
    obtain ⟨is, o, -, rfl, h⟩ := hop
    exact .copy (hx.trans (h.trans (Shape.total_single o).symm))
  case split =>
    obtain ⟨i, os, -, rfl, h⟩ := hop
    exact .copy (hx.trans ((Shape.total_single i).trans h))
  case dense A =>
    obtain ⟨i, o, k, rfl, hd, hdl, hk⟩ := hop
    rw [inputLength_single, hk.input_size] at hx
    rw [outputLength_single, hk.output_size]
    obtain ⟨g, hg, hmul⟩ := DenseMatrix.exists_mul ⟨hd, hdl⟩ hk.rows_ne hk.cols_ne hx
    exact ⟨_, Buffer.size_join_range fun i hi => (hg i hi).1, hmul⟩
  case sparse A =>
    obtain ⟨i, o, k, rfl, hA, hk⟩ := hop
    rw [inputLength_single, hk.input_size] at hx
    rw [outputLength_single, hk.output_size]
    obtain ⟨d, -, hmul⟩ := SparseMatrix.exists_mul hA hk.rows_ne hk.cols_ne hx
    exact ⟨_, Buffer.size_join_range fun i _ => by simp, hmul⟩
  case sum =>
    obtain ⟨is, o, hne, rfl, h⟩ := hop
    rw [Signature.outputLength, Shape.total_single]
    exact overwrites_sumOf hi h hne hx
  case copy =>
    obtain ⟨i, os, -, rfl, h⟩ := hop
    exact overwrites_onEach ho h (hx.trans (Shape.total_single i))
  case stack =>
    obtain ⟨is, o, -, rfl, hcols, hrows, h⟩ := hop
    have hc := complete_stack hi ho hcols hrows h
    have hlen : Signature.outputLength ⟨is, [o]⟩ = o.size := Shape.total_single o
    rw [hlen] at hout ⊢
    refine (Overwrites.gather hc (hx.trans h) hout hout).congr fun stale _ => ?_
    dsimp only [forward]
    rw [pick_single, ok_bind]
  case stride start step =>
    obtain ⟨i, o, rfl, -, h⟩ := hop
    rw [inputLength_single] at hx hin
    rw [outputLength_single] at hout ⊢
    rw [← hx] at h hin
    exact overwrites_strideGather h hin hout
  case transpose =>
    obtain ⟨i, o, rfl, hr, hc⟩ := hop
    rw [inputLength_single] at hx hin
    rw [outputLength_single] at hout ⊢
    refine (Overwrites.gather (complete_transpose hi ho hr hc) hx hout hin).congr
      fun stale _ => ?_
    dsimp only [forward]
    rw [pick_single, ok_bind]
  case diagonal =>
    obtain ⟨i, o, rfl, h⟩ := hop
    rw [inputLength_single] at hx hin
    rw [outputLength_single, h] at hout ⊢
    exact overwrites_diagonal hx hin hout
  case diagonalPart =>
    obtain ⟨i, o, rfl, h⟩ := hop
    rw [inputLength_single, h] at hx hin
    rw [outputLength_single] at hout ⊢
    exact overwrites_diagonalPart hx hout hin
  case convolve taps =>
    obtain ⟨i, o, rfl, ht, h⟩ := hop
    rw [inputLength_single] at hx hin
    rw [outputLength_single] at hout ⊢
    obtain ⟨r, hr, hs⟩ := Overwrites.exists_spread taps x.toList (i := 0)
      (y := Array.replicate o.size 0) (by rwa [Array.size_replicate])
      fun _ => by rw [Array.length_toList, Array.size_replicate]; omega
    exact .of_fill ⟨r, by rw [hs, Array.size_replicate], hr⟩

theorem overwrites_adjoint (hx : x.size = sig.outputLength) :
    Overwrites (op.adjoint sig x) sig.inputLength := by
  have hin : sig.inputLength < UInt64.size := hi.total_lt
  have hout : sig.outputLength < UInt64.size := ho.total_lt
  cases op
  case identity =>
    obtain ⟨i, o, rfl, h⟩ := hop
    rw [outputLength_single] at hx
    rw [inputLength_single]
    exact .copy (hx.trans h.symm)
  case negate | scale =>
    obtain ⟨i, o, rfl, h⟩ := hop
    rw [outputLength_single] at hx
    rw [inputLength_single]
    exact .rescale (hx.trans h.symm) _
  case concat =>
    obtain ⟨is, o, -, rfl, h⟩ := hop
    exact .copy (hx.trans ((Shape.total_single o).trans h.symm))
  case split =>
    obtain ⟨i, os, -, rfl, h⟩ := hop
    exact .copy (hx.trans (h.symm.trans (Shape.total_single i).symm))
  case dense A =>
    obtain ⟨i, o, k, rfl, hd, hdl, hk⟩ := hop
    rw [outputLength_single, hk.output_size] at hx
    rw [inputLength_single, hk.input_size]
    exact ⟨_, Buffer.size_join_range fun i _ => by simp, fun stale hs =>
      DenseMatrix.mulTranspose_eq_ok ⟨hd, hdl⟩ hk.rows_ne hk.cols_ne hx hs⟩
  case sparse A =>
    obtain ⟨i, o, k, rfl, hA, hk⟩ := hop
    rw [outputLength_single, hk.output_size] at hx
    rw [inputLength_single, hk.input_size]
    obtain ⟨g, hg, hmul⟩ := SparseMatrix.exists_mulTranspose hA hk.rows_ne hk.cols_ne hx
    exact ⟨_, Buffer.size_join_range fun i hi => (hg i hi).1, hmul⟩
  case sum =>
    obtain ⟨is, o, -, rfl, h⟩ := hop
    exact overwrites_onEach hi h (hx.trans (Shape.total_single o))
  case copy =>
    obtain ⟨i, os, hne, rfl, h⟩ := hop
    rw [Signature.inputLength, Shape.total_single]
    exact overwrites_sumOf ho h hne hx
  case stack =>
    obtain ⟨is, o, -, rfl, hcols, hrows, h⟩ := hop
    have hc := complete_stack hi ho hcols hrows h
    have hlen : Signature.outputLength ⟨is, [o]⟩ = o.size := Shape.total_single o
    have hlen' : Signature.inputLength ⟨is, [o]⟩ = o.size := h
    rw [hlen] at hout hx
    rw [hlen']
    refine (Overwrites.scatter hc hx hout hout).congr fun stale _ => ?_
    dsimp only [adjoint]
    rw [pick_single, ok_bind]
  case stride start step =>
    obtain ⟨i, o, rfl, -, h⟩ := hop
    rw [inputLength_single] at hin ⊢
    rw [outputLength_single] at hx hout
    rw [← hx] at h hout
    exact overwrites_strideScatter h hout hin
  case transpose =>
    obtain ⟨i, o, rfl, hr, hc⟩ := hop
    rw [inputLength_single] at hin ⊢
    rw [outputLength_single] at hx hout
    refine (Overwrites.scatter (complete_transpose hi ho hr hc) hx hout hin).congr
      fun stale _ => ?_
    dsimp only [adjoint]
    rw [pick_single, ok_bind]
  case diagonal =>
    obtain ⟨i, o, rfl, h⟩ := hop
    rw [inputLength_single] at hin ⊢
    rw [outputLength_single, h] at hx hout
    exact overwrites_diagonalPart hx hin hout
  case diagonalPart =>
    obtain ⟨i, o, rfl, h⟩ := hop
    rw [inputLength_single, h] at hin ⊢
    rw [outputLength_single] at hx hout
    exact overwrites_diagonal hx hout hin
  case convolve taps =>
    obtain ⟨i, o, rfl, ht, h⟩ := hop
    rw [inputLength_single] at hin ⊢
    rw [outputLength_single] at hx hout
    refine ⟨(Array.range i.size).map fun j => Kernel.dot taps (x.extract j (j + taps.size)),
      by simp, fun stale hs => ?_⟩
    dsimp only [adjoint]
    rw [hs]
    exact Overwrites.slide_eq_ok (by omega) (by omega)

end

/-- On a signature that passes the check, with sizes that fit, both directions replace the whole of
their result buffer: two buffers hold the same afterwards, whatever each of them held before. -/
theorem results_overwritten [Scalar α] {op : Operator α} {sig : Signature}
    (hcheck : op.check sig = .ok ()) (hi : Shape.Fits sig.inputs) (ho : Shape.Fits sig.outputs) :
    (∀ x s t : Array α, x.size = sig.inputLength → s.size = sig.outputLength →
        t.size = sig.outputLength → ∃ y, y.size = sig.outputLength
          ∧ op.forward sig x s = .ok y ∧ op.forward sig x t = .ok y)
      ∧ ∀ y s t : Array α, y.size = sig.outputLength → s.size = sig.inputLength →
          t.size = sig.inputLength → ∃ x, x.size = sig.inputLength
            ∧ op.adjoint sig y s = .ok x ∧ op.adjoint sig y t = .ok x := by
  have hop := accepts_of_check hcheck
  constructor
  · intro x s t hx hs ht
    obtain ⟨y, hy, hf⟩ := overwrites_forward hop hi ho hx
    exact ⟨y, hy, hf s hs, hf t ht⟩
  · intro y s t hy hs ht
    obtain ⟨x, hx, hb⟩ := overwrites_adjoint hop hi ho hy
    exact ⟨x, hx, hb s hs, hb t ht⟩

/-- A matrix of one column, and two right-hand sides. -/
def pairPorts : Signature := ⟨[.matrix 1 2], [.matrix 2 2]⟩

theorem results_overwritten_pair :
    (∃ y : Array Float, y.size = 4
      ∧ (dense ⟨2, 1, #[0.5, -2.0]⟩).forward pairPorts #[3.0, 4.0] #[1.0, 2.0, 3.0, 4.0] = .ok y
      ∧ (dense ⟨2, 1, #[0.5, -2.0]⟩).forward pairPorts #[3.0, 4.0]
          (Array.replicate 4 (0.0 / 0.0)) = .ok y)
    ∧ ∃ x : Array Float, x.size = 2
      ∧ (dense ⟨2, 1, #[0.5, -2.0]⟩).adjoint pairPorts #[5.0, 6.0, 7.0, 8.0] #[1.0, 2.0] = .ok x
      ∧ (dense ⟨2, 1, #[0.5, -2.0]⟩).adjoint pairPorts #[5.0, 6.0, 7.0, 8.0]
          (Array.replicate 2 (0.0 / 0.0)) = .ok x := by
  have hcheck : (dense (⟨2, 1, #[0.5, -2.0]⟩ : DenseMatrix Float)).check pairPorts = .ok () := by
    decide +kernel
  obtain ⟨hf, hb⟩ := results_overwritten hcheck ⟨by decide, by decide⟩ ⟨by decide, by decide⟩
  exact ⟨hf _ _ _ rfl rfl rfl, hb _ _ _ rfl rfl rfl⟩

end Operator

end MatrixFree
