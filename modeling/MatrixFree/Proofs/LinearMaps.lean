import Mathlib.Algebra.BigOperators.Intervals
import MatrixFree.Proofs.Adjoints
import MatrixFree.Proofs.Windows

/-!
# The linear map of every operator

`Operator.Maps` says, element by element, which linear map an operator is on the matrices that lie
on its ports. On a signature that passes the check the forward direction computes this map over
exact scalars, whatever the result buffer held before (`Operator.forward_maps`), and the statement
leaves no element of the result open.
-/

namespace MatrixFree

/-- Where the element in row `i` and column `j` lies of a matrix with the given number of rows that
is stored column by column from `base` on. -/
def address (base rows i j : ℕ) : ℕ := base + (j * rows + i)

/-- Every address of a stored matrix is that of an element. -/
theorem exists_address {rows cols a : ℕ} (ha : a < cols * rows) :
    ∃ i < rows, ∃ j < cols, a = address 0 rows i j := by
  have hrows : 0 < rows := Nat.pos_of_ne_zero fun h => by simp [h] at ha
  refine ⟨a % rows, Nat.mod_lt _ hrows, a / rows, Nat.div_lt_of_lt_mul (by rwa [Nat.mul_comm]), ?_⟩
  rw [address, Nat.zero_add, Nat.mul_comm, Nat.div_add_mod]

theorem address_mod {rows i j : ℕ} (hi : i < rows) : address 0 rows i j % rows = i := by
  rw [address, Nat.zero_add, Nat.mul_add_mod_of_lt hi]

theorem address_div {rows i j : ℕ} (hi : i < rows) : address 0 rows i j / rows = j := by
  rw [address, Nat.zero_add, Nat.mul_comm, Nat.mul_add_div (by omega), Nat.div_eq_of_lt hi,
    Nat.add_zero]

namespace Shape

/-- Where the port in a place starts in the buffer of its side. -/
def start (shapes : List Shape) (p : ℕ) : ℕ := ((shapes.take p).map size).sum

/-- The number of rows on the ports before the one in a place. -/
def above (shapes : List Shape) (p : ℕ) : ℕ := ((shapes.take p).map rows).sum

theorem start_cons_succ (s : Shape) (shapes : List Shape) (p : ℕ) :
    start (s :: shapes) (p + 1) = s.size + start shapes p := by
  simp [start]

theorem above_cons_succ (s : Shape) (shapes : List Shape) (p : ℕ) :
    above (s :: shapes) (p + 1) = s.rows + above shapes p := by
  simp [above]

/-- Ports of one size. -/
theorem start_of_forall {shapes : List Shape} {n p : ℕ} (h : ∀ s ∈ shapes, s.size = n)
    (hp : p ≤ shapes.length) : start shapes p = p * n := by
  rw [start, List.map_congr_left fun s hs => h s (List.mem_of_mem_take hs)]
  simp [hp]

end Shape

theorem ext_getElem?_of_lt {α : Type} {n : ℕ} {x y : Array α} (hx : x.size = n) (hy : y.size = n)
    (h : ∀ i < n, x[i]? = y[i]?) : x = y := by
  refine Array.ext_getElem? fun i => ?_
  by_cases hi : i < n
  · exact h i hi
  · rw [Array.getElem?_eq_none (by omega), Array.getElem?_eq_none (by omega)]

theorem Table.getElem?_extract_add {α : Type} (x : Array α) (a : ℕ) {n i : ℕ} (hi : i < n) :
    (x.extract a (a + n))[i]? = x[a + i]? := by
  rw [Array.getElem?_extract]
  split
  · rfl
  · rw [Array.getElem?_eq_none (by omega)]

theorem Table.getD_extract {α : Type} [Zero α] (x : Array α) (a : ℕ) {n i : ℕ} (hi : i < n) :
    (x.extract a (a + n)).getD i 0 = x.getD (a + i) 0 := by
  rw [Array.getD_eq_getD_getElem?, getElem?_extract_add x a hi, ← Array.getD_eq_getD_getElem?]

theorem Table.getD_chunk {α : Type} [Zero α] (x : Array α) {rows i j : ℕ} (hi : i < rows) :
    (chunk x rows j).getD i 0 = x.getD (address 0 rows i j) 0 := by
  rw [chunk, getD_extract _ _ hi, address, Nat.zero_add]

theorem Buffer.getD_join_range {α : Type} [Zero α] {g : ℕ → Array α} {rows k i j : ℕ}
    (hg : ∀ j < k, (g j).size = rows) (hi : i < rows) (hj : j < k) :
    (join ((List.range k).map g)).getD (address 0 rows i j) 0 = (g j).getD i 0 := by
  rw [← Table.getD_chunk _ hi, chunk_join_range hg hj]

namespace Operator

/-- The element at each link's output is the one at its input. -/
def Follows {α : Type} (links : List Link) (x y : Array α) : Prop :=
  ∀ l ∈ links, y[l.output]? = x[l.input]?

section Moves

variable {α : Type} {links : List Link} {m n : ℕ} {x y y' stale : Array α}

theorem follows_of_gather (hn : (links.map Link.output).Nodup)
    (h : gather links x stale = .ok y) : Follows links x y := by
  refine fun l hl => Table.getElem?_transfer (p := (l.output, l.input)) ?_ h
    (List.mem_map.2 ⟨l, hl, rfl⟩)
  rw [List.map_map]
  exact hn

theorem Follows.unique (hc : Complete links m n) (hy : y.size = m) (hy' : y'.size = m)
    (h : Follows links x y) (h' : Follows links x y') : y = y' := by
  refine ext_getElem?_of_lt hy hy' fun i hi => ?_
  obtain ⟨l, hl, rfl⟩ := List.mem_map.1 (hc.mem_outputs hi)
  rw [h l hl, h' l hl]

theorem mem_transposeLinks {rows cols : ℕ} {l : Link} : l ∈ transposeLinks rows cols ↔
    ∃ r < rows, ∃ c < cols, l = ⟨address 0 cols c r, address 0 rows r c⟩ := by
  constructor
  · intro hl
    obtain ⟨⟨r, c⟩, hp, rfl⟩ := List.mem_map.1 hl
    obtain ⟨hr, hc⟩ := mem_cells.1 hp
    exact ⟨r, hr, c, hc, by simp [address, Nat.add_comm]⟩
  · rintro ⟨r, hr, c, hc, rfl⟩
    exact List.mem_map.2 ⟨(r, c), mem_cells.2 ⟨hr, hc⟩, by simp [address, Nat.add_comm]⟩

/-- The links of a stack: those of each block, below the blocks before. -/
theorem mem_stackLinks_iff {total : ℕ} {l : Link} : ∀ {is : List Shape} {above base : ℕ},
    l ∈ stackLinks total above base is ↔ ∃ p s, is[p]? = some s ∧ ∃ i < s.rows, ∃ c < s.cols,
      l = ⟨address 0 total (above + Shape.above is p + i) c,
        address (base + Shape.start is p) s.rows i c⟩
  | [], above, base => by simp [stackLinks]
  | s :: is, above, base => by
    have hfirst : l ∈ (cells s.rows s.cols).map
        (fun q => (⟨q.2 * total + above + q.1, base + q.2 * s.rows + q.1⟩ : Link)) ↔
        ∃ i < s.rows, ∃ c < s.cols, l = ⟨address 0 total (above + 0 + i) c,
          address (base + 0) s.rows i c⟩ := by
      simp only [List.mem_map, Prod.exists, mem_cells, address]
      constructor
      · rintro ⟨i, c, ⟨hi, hc⟩, rfl⟩
        exact ⟨i, hi, c, hc, by simp only [Link.mk.injEq]; omega⟩
      · rintro ⟨i, hi, c, hc, rfl⟩
        exact ⟨i, c, ⟨hi, hc⟩, by simp only [Link.mk.injEq]; omega⟩
    rw [stackLinks, List.mem_append, mem_stackLinks_iff]
    constructor
    · rintro (h | ⟨p, t, ht, h⟩)
      · exact ⟨0, s, rfl, hfirst.1 h⟩
      · refine ⟨p + 1, t, ht, ?_⟩
        rwa [Shape.above_cons_succ, Shape.start_cons_succ, ← Nat.add_assoc, ← Nat.add_assoc]
    · rintro ⟨_ | p, t, ht, h⟩
      · obtain rfl : s = t := by simpa using ht
        exact .inl (hfirst.2 h)
      · refine .inr ⟨p, t, ht, ?_⟩
        rwa [Shape.above_cons_succ, Shape.start_cons_succ, ← Nat.add_assoc, ← Nat.add_assoc] at h

theorem getElem?_onEach {shapes : List Shape} (hs : stale.size = (shapes.map Shape.size).sum)
    (hlt : stale.size < UInt64.size) (h : ∀ s ∈ shapes, s.size = x.size)
    (hf : Buffer.mapSegments (fun part => Buffer.copy part x) (shapes.map Shape.size) stale = .ok y)
    {p i : ℕ} (hp : p < shapes.length) (hi : i < x.size) :
    y[Shape.start shapes p + i]? = x[i]? := by
  have hconst : (shapes.map Shape.size).map (fun _ => x)
      = (List.range shapes.length).map fun _ => x := by
    rw [List.map_const', List.map_const', List.length_map, List.length_range]
  rw [Buffer.mapSegments_copy_eq_ok hlt hs (List.forall_mem_map.2 h), hconst,
    Except.ok.injEq] at hf
  rw [Shape.start_of_forall h hp.le, ← Table.getElem?_extract_add y _ hi, ← hf, ← Table.chunk,
    Buffer.chunk_join_range (fun _ _ => rfl) hp]

theorem getElem?_diagonalPart {n : ℕ}
    (hf : Table.transfer x ((diagonalLinks n).map Prod.swap) stale = .ok y) {i : ℕ} (hi : i < n) :
    y[i]? = x[address 0 n i i]? := by
  have hn : (((diagonalLinks n).map Prod.swap).map Prod.fst).Nodup := by
    rw [List.map_map]
    exact (map_snd_diagonal n).symm ▸ List.nodup_range
  rw [Table.getElem?_transfer (p := (i, i + i * n)) hn hf, address, Nat.zero_add, Nat.add_comm]
  exact List.mem_map.2 ⟨(i + i * n, i), List.mem_map.2 ⟨i, List.mem_range.2 hi, rfl⟩, rfl⟩

end Moves

end Operator

section Exact

variable {R : Type} [ExactScalar R]

theorem ext_getD_of_lt {n : ℕ} {x y : Array R} (hx : x.size = n) (hy : y.size = n)
    (h : ∀ i < n, x.getD i 0 = y.getD i 0) : x = y := by
  refine ext_getElem?_of_lt hx hy fun i hi => ?_
  have := h i hi
  rw [Array.getD_eq_getD_getElem?, Array.getD_eq_getD_getElem?] at this
  rw [Array.getElem?_eq_getElem (by omega), Array.getElem?_eq_getElem (by omega)] at this ⊢
  exact congrArg some this

theorem list_sum_map_range (f : ℕ → R) (n : ℕ) :
    ((List.range n).map f).sum = ∑ i ∈ Finset.range n, f i := rfl

namespace Buffer

/-- The vector that is one in a place and zero elsewhere. -/
def unit (n i : ℕ) : Array R := (Array.replicate n 0).setIfInBounds i 1

@[simp] theorem size_unit (n i : ℕ) : (unit n i : Array R).size = n := by simp [unit]

theorem getD_unit {n i j : ℕ} (hi : i < n) :
    (unit n i : Array R).getD j 0 = if i = j then 1 else 0 := by
  rw [unit, Array.getD_eq_getD_getElem?, Array.getElem?_setIfInBounds, Array.size_replicate]
  split_ifs with hij
  · rfl
  · rw [← Array.getD_eq_getD_getElem?, getD_replicate_zero]

/-- The inner product with a unit vector reads an element. -/
theorem inner_unit {n i : ℕ} {x : Array R} (hx : x.size = n) (hi : i < n) :
    inner x (unit n i) = x.getD i 0 := by
  rw [inner_eq_sum hx (size_unit n i), Finset.sum_congr rfl fun j _ => by rw [getD_unit hi]]
  simp [hi]

/-- The inner product with a table of values. -/
theorem inner_map_range {n : ℕ} {x : Array R} (hx : x.size = n) (f : ℕ → R) :
    inner x ((Array.range n).map f) = ∑ i ∈ Finset.range n, x.getD i 0 * f i := by
  rw [inner_eq_sum hx (by simp)]
  refine Finset.sum_congr rfl fun i hi => ?_
  have hi := Finset.mem_range.1 hi
  congr 1
  simp [hi]

/-- Slices of one length are chunks. -/
theorem cuts_of_forall {α : Type} {ns : List ℕ} {n : ℕ} (h : ∀ m ∈ ns, m = n) (x : Array α) :
    cuts x 0 ns = (List.range ns.length).map (Table.chunk x n) := by
  refine List.ext_getElem? fun p => ?_
  rw [getElem?_cuts, List.eq_replicate_of_mem h, List.length_replicate, List.getElem?_map,
    List.getElem?_replicate]
  split_ifs with hp
  · rw [List.getElem?_range hp, Option.map_some, Option.map_some, Table.chunk, List.take_replicate,
      Nat.min_eq_left hp.le, List.sum_replicate]
    simp
  · rw [List.getElem?_eq_none (by simpa using hp)]
    rfl

end Buffer

/-- The element of a dense matrix in row `r` and column `c`. -/
def DenseMatrix.entry (A : DenseMatrix R) (r c : ℕ) : R :=
  A.data.getD (address 0 A.rows.toNat r c) 0

/-- The element of a sparse matrix in row `r` and column `c`: what is stored for this place, added
up. -/
def SparseMatrix.entry (A : SparseMatrix R) (r c : ℕ) : R :=
  ∑ e ∈ Finset.Ico (A.rowStarts.getD r 0).toNat (A.rowStarts.getD (r + 1) 0).toNat,
    if (A.columns.getD e 0).toNat = c then A.values.getD e 0 else 0

/-- That `y` is the product of a matrix with `x`, both stored column by column. -/
def IsProduct (rows cols : ℕ) (A : ℕ → ℕ → R) (x y : Array R) : Prop :=
  ∀ r < rows, ∀ k < x.size / cols, y.getD (address 0 rows r k) 0
    = ∑ c ∈ Finset.range cols, A r c * x.getD (address 0 cols c k) 0

section Products

variable {rows cols k : ℕ} {A : ℕ → ℕ → R} {x y y' : Array R}

/-- A product that is computed column by column. -/
theorem isProduct_join {g : ℕ → Array R} (hcols : cols ≠ 0) (hx : x.size = k * cols)
    (hg : ∀ i < k, (g i).size = rows) (h : ∀ i < k, ∀ r < rows, (g i).getD r 0
      = ∑ c ∈ Finset.range cols, A r c * (Table.chunk x cols i).getD c 0) :
    IsProduct rows cols A x (Buffer.join ((List.range k).map g)) := by
  intro r hr i hi
  rw [hx, Nat.mul_div_cancel _ (Nat.pos_of_ne_zero hcols)] at hi
  rw [Buffer.getD_join_range hg hr hi, h i hi r hr]
  exact Finset.sum_congr rfl fun c hc => by rw [Table.getD_chunk _ (Finset.mem_range.1 hc)]

theorem IsProduct.unique (hcols : cols ≠ 0) (hx : x.size = k * cols) (hy : y.size = k * rows)
    (hy' : y'.size = k * rows) (h : IsProduct rows cols A x y) (h' : IsProduct rows cols A x y') :
    y = y' := by
  refine ext_getD_of_lt hy hy' fun a ha => ?_
  obtain ⟨r, hr, i, hi, rfl⟩ := exists_address ha
  rw [← Nat.mul_div_cancel k (Nat.pos_of_ne_zero hcols), ← hx] at hi
  rw [h r hr i hi, h' r hr i hi]

end Products

theorem DenseMatrix.isProduct_mul {A : DenseMatrix R} (hA : A.Full) {k : ℕ} {x y stale : Array R}
    (hr : A.rows.toNat ≠ 0) (hc : A.cols.toNat ≠ 0) (hx : x.size = k * A.cols.toNat)
    (hs : stale.size = k * A.rows.toNat) (h : A.mul x stale = .ok y) :
    IsProduct A.rows.toNat A.cols.toNat A.entry x y := by
  obtain ⟨g, hg, hmul⟩ := exists_mul hA hr hc hx
  rw [hmul _ hs, Except.ok.injEq] at h
  refine h ▸ isProduct_join hc hx (fun i hi => (hg i hi).1) fun i hi r hr => ?_
  have hchunk := Table.size_chunk hx hi
  have hlen : (Table.chunk x A.cols.toNat i).toList.length = A.cols.toNat := by
    rw [Array.length_toList, hchunk]
  -- an element of the accumulated column is its inner product with a unit vector
  rw [← Buffer.inner_unit (hg i hi).1 hr, inner_combine hA (Buffer.size_unit _ _) _
    (by rw [hlen, Nat.zero_add]) Array.size_replicate (hg i hi).2, Buffer.inner_replicate_zero,
    zero_add, Array.toArray_toList, hlen, ← List.range_eq_range', toArray_map_range,
    Buffer.inner_map_range hchunk]
  refine Finset.sum_congr rfl fun c hc => ?_
  have hc := Finset.mem_range.1 hc
  have hcol := size_columnAt hA hc
  rw [Kernel.dot_eq_inner (by rw [hcol, Buffer.size_unit]), Buffer.inner_unit hcol hr, columnAt,
    Table.getD_extract _ _ hr, entry, address, Nat.zero_add, mul_comm]

namespace SparseMatrix

variable {A : SparseMatrix R} (hA : A.WellFormed)
include hA

/-- What is stored for a row, times the elements of a vector, adds up to the row's product. -/
theorem rowDot_eq_ok {x : Array R} (hx : x.size = A.cols.toNat) {r : ℕ} (hr : r < A.rows.toNat) :
    A.rowDot x r = .ok (∑ c ∈ Finset.range A.cols.toNat, A.entry r c * x.getD c 0) := by
  obtain ⟨es, hes, -, hdot⟩ := exists_rowDot hA hx hr
  have hstart := hA.getElem?_rowStarts hr.le
  have hstop := hA.getElem?_rowStarts hr
  obtain ⟨-, hle, -⟩ := hA.row_bounds hr hstart hstop
  rw [hA.row_eq_table hr hstart hstop, Except.ok.injEq] at hes
  calc A.rowDot x r
      = .ok (∑ e ∈ Finset.Ico (A.rowStarts.getD r 0).toNat (A.rowStarts.getD (r + 1) 0).toNat,
          A.values.getD e 0 * x.getD (A.columns.getD e 0).toNat 0) := by
        rw [hdot, Kernel.sum_eq_sum, ← hes, Finset.sum_Ico_eq_sum_range, ← list_sum_map_range]
        simp [Function.comp_def]
    -- each entry is the one term of its column
    _ = .ok (∑ e ∈ Finset.Ico (A.rowStarts.getD r 0).toNat (A.rowStarts.getD (r + 1) 0).toNat,
          ∑ c ∈ Finset.range A.cols.toNat,
            (if (A.columns.getD e 0).toNat = c then A.values.getD e 0 else 0) * x.getD c 0) := by
        refine congrArg Except.ok (Finset.sum_congr rfl fun e he => ?_)
        have hc := hA.getD_columns_lt ((Finset.mem_Ico.1 he).2.trans_le hle)
        simp only [ite_mul, zero_mul, Finset.sum_ite_eq, if_pos (Finset.mem_range.2 hc)]
    _ = .ok (∑ c ∈ Finset.range A.cols.toNat, A.entry r c * x.getD c 0) := by
        rw [Finset.sum_comm]
        simp only [entry, Finset.sum_mul]

theorem isProduct_mul {k : ℕ} {x y stale : Array R} (hr : A.rows.toNat ≠ 0)
    (hc : A.cols.toNat ≠ 0) (hx : x.size = k * A.cols.toNat)
    (hs : stale.size = k * A.rows.toNat) (h : A.mul x stale = .ok y) :
    IsProduct A.rows.toNat A.cols.toNat A.entry x y := by
  obtain ⟨d, hd, hmul⟩ := exists_mul hA hr hc hx
  rw [hmul _ hs, Except.ok.injEq] at h
  refine h ▸ isProduct_join hc hx (fun i _ => by simp) fun i hi r hr => ?_
  have hdot := hd i hi r hr
  rw [rowDot_eq_ok hA (Table.size_chunk hx hi) hr, Except.ok.injEq] at hdot
  rw [hdot]
  simp [hr]

end SparseMatrix

theorem Scalar.negOne_eq : (Scalar.negOne : R) = -1 := ExactScalar.negOne_eq

namespace Operator

/-- That `y` is what the linear map of an operator makes of `x`, with a matrix on a port read column
by column. -/
def Maps (op : Operator R) (sig : Signature) (x y : Array R) : Prop :=
  match op with
  | identity | concat | split => y = x
  | negate => ∀ i < x.size, y.getD i 0 = -x.getD i 0
  | scale a => ∀ i < x.size, y.getD i 0 = a * x.getD i 0
  | dense A => IsProduct A.rows.toNat A.cols.toNat A.entry x y
  | sparse A => IsProduct A.rows.toNat A.cols.toNat A.entry x y
  | sum => ∀ i < y.size, y.getD i 0
      = ∑ p ∈ Finset.range sig.inputs.length, x.getD (Shape.start sig.inputs p + i) 0
  | copy => ∀ p < sig.outputs.length, ∀ i < x.size, y[Shape.start sig.outputs p + i]? = x[i]?
  | stack => ∀ o ∈ sig.outputs, ∀ p s, sig.inputs[p]? = some s → ∀ i < s.rows, ∀ c < s.cols,
      y[address 0 o.rows (Shape.above sig.inputs p + i) c]?
        = x[address (Shape.start sig.inputs p) s.rows i c]?
  | stride start step => ∀ i < y.size, y[i]? = x[start.toNat + i * step.toNat]?
  | transpose => ∀ s ∈ sig.inputs, ∀ o ∈ sig.outputs, ∀ r < s.rows, ∀ c < s.cols,
      y[address 0 o.rows c r]? = x[address 0 s.rows r c]?
  | diagonal => ∀ i < x.size, ∀ j < x.size,
      y.getD (address 0 x.size i j) 0 = if i = j then x.getD i 0 else 0
  | diagonalPart => ∀ i < y.size, y[i]? = x[address 0 y.size i i]?
  | convolve taps => ∀ j < x.size + taps.size - 1, y.getD j 0
      = ∑ i ∈ Finset.range x.size, ∑ t ∈ Finset.range taps.size,
        if i + t = j then x.getD i 0 * taps.getD t 0 else 0

section

variable {x y y' stale : Array R}

theorem getD_rescale {a : R} (h : rescale a stale x = .ok y) {i : ℕ} (hi : i < x.size) :
    y.getD i 0 = a * x.getD i 0 := by
  obtain ⟨hs, rfl⟩ := Buffer.paired_eq_ok_iff.1 h
  rw [Kernel.scaleInto_exact hs]
  simp [hi]

theorem getD_sumOf {shapes : List Shape} {n : ℕ} (hx : x.size = (shapes.map Shape.size).sum)
    (hlt : x.size < UInt64.size) (h : ∀ s ∈ shapes, s.size = n) (hs : stale.size = n)
    (hy : y.size = n) (hf : (Buffer.segments x 0 (shapes.map Shape.size) >>= fun parts =>
      sumOf parts stale) = .ok y) {i : ℕ} (hi : i < n) :
    y.getD i 0 = ∑ p ∈ Finset.range shapes.length, x.getD (Shape.start shapes p + i) 0 := by
  have hn : ∀ m ∈ shapes.map Shape.size, m = n := List.forall_mem_map.2 h
  have hxs : x.size = shapes.length * n := by
    rw [hx, ← Shape.start_of_forall h le_rfl, Shape.start, List.take_length]
  rw [Buffer.segments_eq_ok hlt 0 _ (by omega), ok_bind] at hf
  rw [← Buffer.inner_unit hy hi, inner_sumOf (Buffer.size_unit n i)
    (fun p hp => Buffer.size_of_mem_cuts (by omega) hn hp) hs hf, Buffer.cuts_of_forall hn,
    List.length_map, List.map_map, list_sum_map_range]
  refine Finset.sum_congr rfl fun p hp => ?_
  have hp := Finset.mem_range.1 hp
  rw [Function.comp_apply, Buffer.inner_unit (Table.size_chunk hxs hp) hi, Table.chunk,
    Table.getD_extract _ _ hi, Shape.start_of_forall h hp.le]

/-- Every product of an element and a tap lies where the two places add up to. -/
theorem getD_spread {taps : Array R} {n : ℕ} (hy : y.size = n)
    (hf : spread taps 0 x.toList (Array.replicate n 0) = .ok y) {j : ℕ} (hj : j < n)
    (hn : n + 1 = x.size + taps.size) : y.getD j 0 = ∑ i ∈ Finset.range x.size,
      ∑ t ∈ Finset.range taps.size, if i + t = j then x.getD i 0 * taps.getD t 0 else 0 := by
  rw [← Buffer.inner_unit hy hj, inner_spread _ (by simp) hf, Buffer.inner_replicate_zero, zero_add,
    Array.toArray_toList, Array.length_toList, ← List.range_eq_range', toArray_map_range,
    Buffer.inner_map_range rfl]
  refine Finset.sum_congr rfl fun i hi => ?_
  have hi := Finset.mem_range.1 hi
  rw [Buffer.inner_eq_sum rfl (by rw [Array.size_extract, Buffer.size_unit]; omega),
    Finset.mul_sum]
  refine Finset.sum_congr rfl fun t ht => ?_
  rw [Table.getD_extract _ _ (Finset.mem_range.1 ht), Buffer.getD_unit hj]
  simp only [@eq_comm _ j, mul_ite, mul_one, mul_zero]

theorem getD_diagonal {n : ℕ} (hf : Table.transfer x (diagonalLinks n)
    (Array.replicate (n * n) 0) = .ok y) {i j : ℕ} (hi : i < n) (hj : j < n) :
    y.getD (address 0 n i j) 0 = if i = j then x.getD i 0 else 0 := by
  rw [Array.getD_eq_getD_getElem?]
  split_ifs with hij
  · subst hij
    have := Table.getElem?_transfer (p := (i + i * n, i)) (nodup_diagonal n) hf
      (List.mem_map.2 ⟨i, List.mem_range.2 hi, rfl⟩)
    rw [address, Nat.zero_add, Nat.add_comm, this, ← Array.getD_eq_getD_getElem?]
  · rw [Table.getElem?_transfer_of_notMem hf, ← Array.getD_eq_getD_getElem?,
      Buffer.getD_replicate_zero]
    intro hmem
    obtain ⟨q, hq, h⟩ := List.mem_map.1 hmem
    obtain ⟨k, hk, rfl⟩ := List.mem_map.1 hq
    have h : k * n + k = j * n + i := by
      simp only [address] at h
      omega
    obtain ⟨h1, h2⟩ := address_inj (List.mem_range.1 hk) hi h
    exact hij (h2.symm.trans h1)

end

theorem maps_stack_iff {is : List Shape} {o : Shape} {x y : Array R} :
    (stack : Operator R).Maps ⟨is, [o]⟩ x y ↔ Follows (stackLinks o.rows 0 0 is) x y := by
  simp only [Maps, List.mem_singleton, forall_eq]
  constructor
  · intro h l hl
    obtain ⟨p, s, hs, i, hi, c, hc, rfl⟩ := mem_stackLinks_iff.1 hl
    simpa using h p s hs i hi c hc
  · intro h p s hs i hi c hc
    simpa using h _ (mem_stackLinks_iff.2 ⟨p, s, hs, i, hi, c, hc, rfl⟩)

theorem maps_transpose_iff {i o : Shape} (ho : o.rows = i.cols) {x y : Array R} :
    (transpose : Operator R).Maps ⟨[i], [o]⟩ x y ↔ Follows (transposeLinks i.rows i.cols) x y := by
  simp only [Maps, List.mem_singleton, forall_eq, ho]
  constructor
  · intro h l hl
    obtain ⟨r, hr, c, hc, rfl⟩ := mem_transposeLinks.1 hl
    exact h r hr c hc
  · intro h r hr c hc
    exact h _ (mem_transposeLinks.2 ⟨r, hr, c, hc, rfl⟩)

section

variable {op : Operator R} {sig : Signature} (hop : op.Accepts sig)
  (hi : Shape.Fits sig.inputs) (ho : Shape.Fits sig.outputs) {x y y' stale : Array R}
  (hx : x.size = sig.inputLength)
include hop hi ho hx

theorem maps_of_forward (hs : stale.size = sig.outputLength) (hy : y.size = sig.outputLength)
    (hf : op.forward sig x stale = .ok y) : op.Maps sig x y := by
  have hlt : stale.size < UInt64.size := hs ▸ ho.total_lt
  cases op
  case identity | concat | split =>
    exact (Buffer.paired_eq_ok_iff.1 hf).2.symm
  case negate =>
    intro i hi
    rw [getD_rescale hf hi, Scalar.negOne_eq, neg_one_mul]
  case scale a =>
    exact fun i hi => getD_rescale hf hi
  case dense A =>
    obtain ⟨i, o, k, rfl, hd, hdl, hk⟩ := hop
    rw [inputLength_single, hk.input_size] at hx
    rw [outputLength_single, hk.output_size] at hs
    exact DenseMatrix.isProduct_mul ⟨hd, hdl⟩ hk.rows_ne hk.cols_ne hx hs hf
  case sparse A =>
    obtain ⟨i, o, k, rfl, hA, hk⟩ := hop
    rw [inputLength_single, hk.input_size] at hx
    rw [outputLength_single, hk.output_size] at hs
    exact SparseMatrix.isProduct_mul hA hk.rows_ne hk.cols_ne hx hs hf
  case sum =>
    obtain ⟨is, o, -, rfl, h⟩ := hop
    have hlen : Signature.outputLength ⟨is, [o]⟩ = o.size := Shape.total_single o
    have hxlt : x.size < UInt64.size := hx ▸ hi.total_lt
    rw [hlen] at hs hy
    exact fun i hlt => getD_sumOf (hx.trans hi.total_eq_sum) hxlt h hs hy hf (by omega)
  case copy =>
    obtain ⟨i, os, -, rfl, h⟩ := hop
    rw [Signature.inputLength, Shape.total_single] at hx
    exact fun p hp i hi => getElem?_onEach (hs.trans ho.total_eq_sum) hlt
      (fun t ht => (h t ht).trans hx.symm) hf hp hi
  case stack =>
    obtain ⟨is, o, -, rfl, hcols, hrows, h⟩ := hop
    have hc := complete_stack hi ho hcols hrows h
    dsimp only [forward] at hf
    rw [pick_single, ok_bind] at hf
    exact maps_stack_iff.2 (follows_of_gather hc.outputs_nodup hf)
  case stride start step =>
    have hn : ((strideLinks start.toNat step.toNat stale.size).map Link.output).Nodup := by
      rw [strideLinks, List.map_map]
      exact List.nodup_range.map fun _ _ h => h
    intro i hi
    exact follows_of_gather hn hf ⟨i, _⟩ (List.mem_map.2 ⟨i, List.mem_range.2 (by omega), rfl⟩)
  case transpose =>
    obtain ⟨i, o, rfl, hr, hcc⟩ := hop
    have hc := complete_transpose hi ho hr hcc
    dsimp only [forward] at hf
    rw [pick_single, ok_bind] at hf
    exact (maps_transpose_iff hr).2 (follows_of_gather hc.outputs_nodup hf)
  case diagonal =>
    obtain ⟨i, o, rfl, h⟩ := hop
    rw [outputLength_single, h, ← inputLength_single, ← hx] at hs
    dsimp only [forward] at hf
    rw [Buffer.fill, hs] at hf
    exact fun i hi j hj => getD_diagonal hf hi hj
  case diagonalPart =>
    dsimp only [forward] at hf
    rw [hs, ← hy] at hf
    exact fun i hi => getElem?_diagonalPart hf hi
  case convolve taps =>
    obtain ⟨i, o, rfl, ht, h⟩ := hop
    rw [inputLength_single] at hx
    rw [outputLength_single] at hs hy
    dsimp only [forward] at hf
    rw [Buffer.fill, hs] at hf
    exact fun j hj => getD_spread hy hf (by omega) (by omega)

/-- The map of an operator leaves no element of its result open. -/
theorem Maps.unique (hy : y.size = sig.outputLength) (hy' : y'.size = sig.outputLength)
    (h : op.Maps sig x y) (h' : op.Maps sig x y') : y = y' := by
  cases op
  case identity | concat | split => exact Eq.trans h (Eq.symm h')
  case negate | scale =>
    obtain ⟨i, o, rfl, hio⟩ := hop
    rw [inputLength_single] at hx
    rw [outputLength_single] at hy hy'
    refine ext_getD_of_lt hy hy' fun j hj => ?_
    rw [h j (by omega), h' j (by omega)]
  case dense A =>
    obtain ⟨i, o, k, rfl, -, -, hk⟩ := hop
    rw [inputLength_single, hk.input_size] at hx
    rw [outputLength_single, hk.output_size] at hy hy'
    exact IsProduct.unique hk.cols_ne hx hy hy' h h'
  case sparse A =>
    obtain ⟨i, o, k, rfl, -, hk⟩ := hop
    rw [inputLength_single, hk.input_size] at hx
    rw [outputLength_single, hk.output_size] at hy hy'
    exact IsProduct.unique hk.cols_ne hx hy hy' h h'
  case sum =>
    refine ext_getD_of_lt hy hy' fun i hi => ?_
    rw [h i (by omega), h' i (by omega)]
  case copy =>
    obtain ⟨i, os, -, rfl, hos⟩ := hop
    rw [Signature.inputLength, Shape.total_single] at hx
    rw [← hx] at hos
    have hlen : Signature.outputLength ⟨[i], os⟩ = os.length * x.size := by
      rw [← Shape.start_of_forall hos le_rfl, Shape.start, List.take_length]
      exact ho.total_eq_sum
    refine ext_getElem?_of_lt (hy.trans hlen) (hy'.trans hlen) fun a ha => ?_
    obtain ⟨j, hj, p, hp, rfl⟩ := exists_address ha
    rw [address, Nat.zero_add, ← Shape.start_of_forall hos hp.le, h p hp j hj, h' p hp j hj]
  case stack =>
    obtain ⟨is, o, -, rfl, hcols, hrows, hio⟩ := hop
    have hlen : Signature.outputLength ⟨is, [o]⟩ = o.size := Shape.total_single o
    exact (maps_stack_iff.1 h).unique (complete_stack hi ho hcols hrows hio) (hy.trans hlen)
      (hy'.trans hlen) (maps_stack_iff.1 h')
  case stride start step =>
    refine ext_getElem?_of_lt hy hy' fun i hi => ?_
    rw [h i (by omega), h' i (by omega)]
  case transpose =>
    obtain ⟨i, o, rfl, hr, hcc⟩ := hop
    rw [outputLength_single] at hy hy'
    exact ((maps_transpose_iff hr).1 h).unique (complete_transpose hi ho hr hcc) hy hy'
      ((maps_transpose_iff hr).1 h')
  case diagonal =>
    obtain ⟨i, o, rfl, hio⟩ := hop
    rw [inputLength_single] at hx
    rw [outputLength_single, hio, ← hx] at hy hy'
    refine ext_getD_of_lt hy hy' fun a ha => ?_
    obtain ⟨j, hj, k, hk, rfl⟩ := exists_address ha
    rw [h j hj k hk, h' j hj k hk]
  case diagonalPart =>
    refine ext_getElem?_of_lt hy hy' fun i hi => ?_
    rw [h i (by omega), h' i (by omega), hy, hy']
  case convolve taps =>
    obtain ⟨i, o, rfl, -, hio⟩ := hop
    rw [inputLength_single] at hx
    rw [outputLength_single] at hy hy'
    refine ext_getD_of_lt hy hy' fun j hj => ?_
    rw [h j (by omega), h' j (by omega)]

end

/-- On a signature that passes the check, with sizes that fit, the forward direction computes the
map of the operator, and the result buffer holds nothing else. -/
theorem forward_maps {op : Operator R} {sig : Signature} (hcheck : op.check sig = .ok ())
    (hi : Shape.Fits sig.inputs) (ho : Shape.Fits sig.outputs) {x stale : Array R}
    (hx : x.size = sig.inputLength) (hs : stale.size = sig.outputLength) :
    ∃ y, op.forward sig x stale = .ok y ∧ y.size = sig.outputLength ∧ op.Maps sig x y
      ∧ ∀ y' : Array R, y'.size = sig.outputLength → op.Maps sig x y' → y' = y := by
  have hop := accepts_of_check hcheck
  obtain ⟨y, hy, hf⟩ := overwrites_forward hop hi ho hx
  have hmaps := maps_of_forward hop hi ho hx hs hy (hf stale hs)
  exact ⟨y, hf stale hs, hy, hmaps, fun y' hy' h => Maps.unique hop hi ho hx hy' hy h hmaps⟩

/-- Two rows of three columns; the first row holds two entries at one place. -/
def doubled : SparseMatrix ℚ := ⟨2, 3, #[0, 2, 3], #[2, 2, 0], #[1, 2, 5]⟩

/-- Two columns through `doubled`. -/
def doubledPorts : Signature := ⟨[.matrix 3 2], [.matrix 2 2]⟩

theorem forward_maps_doubled : ∃ y,
    (sparse doubled).forward doubledPorts #[1, 2, 3, 4, 5, 6] #[7, 7, 7, 7] = .ok y ∧ y.size = 4
      ∧ IsProduct 2 3 doubled.entry #[1, 2, 3, 4, 5, 6] y ∧ doubled.entry 0 2 = 3 := by
  have hcheck : (sparse doubled).check doubledPorts = .ok () := by decide +kernel
  have hs : (#[7, 7, 7, 7] : Array ℚ).size = doubledPorts.outputLength := rfl
  obtain ⟨y, hf, hy, hmaps, -⟩ := forward_maps hcheck ⟨by decide, by decide⟩
    ⟨by decide, by decide⟩ (x := #[1, 2, 3, 4, 5, 6]) rfl hs
  exact ⟨y, hf, hy, hmaps, by decide +kernel⟩

example : (sparse doubled).forward doubledPorts #[1, 2, 3, 4, 5, 6] #[7, 7, 7, 7]
    = .ok #[9, 5, 18, 20] := by
  decide +kernel

end Operator

end Exact

end MatrixFree
