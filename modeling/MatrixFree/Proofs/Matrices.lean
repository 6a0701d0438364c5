import MatrixFree.Proofs.Kernels
import MatrixFree.Proofs.OperatorChecks
import MatrixFree.Matrix.Dense
import MatrixFree.Matrix.Sparse

/-!
# Matrix products

On columns of the right lengths the products of dense and of sparse matrices, and of their
transposes, succeed whatever their target held (`DenseMatrix.exists_mul`,
`SparseMatrix.exists_mul`), and the transpose is the transpose: `DenseMatrix.inner_combine` and
`SparseMatrix.inner_combine` say for one column what the inner product of an accumulated result
with any vector is.
-/

namespace MatrixFree

theorem array_mapM_eq_ok {ε β γ : Type} {f : β → Except ε γ} {g : β → γ} {xs : Array β}
    (h : ∀ x ∈ xs, f x = .ok (g x)) : xs.mapM f = .ok (xs.map g) := by
  rw [Array.mapM_eq_mapM_toList, mapM_eq_ok fun x hx => h x (Array.mem_toList_iff.1 hx)]
  exact congrArg Except.ok (Array.toList_inj.1 (by simp))

namespace DenseMatrix

variable {α : Type}

/-- A matrix that holds all of its columns. -/
structure Full (A : DenseMatrix α) : Prop where
  size : A.data.size = A.rows.toNat * A.cols.toNat
  lt : A.data.size < UInt64.size

/-- The elements of a column. -/
def columnAt (A : DenseMatrix α) (j : ℕ) : Array α :=
  A.data.extract (j * A.rows.toNat) (j * A.rows.toNat + A.rows.toNat)

section

variable {A : DenseMatrix α} (hA : A.Full) {j : ℕ} (hj : j < A.cols.toNat)
include hA hj

theorem column_le : j * A.rows.toNat + A.rows.toNat ≤ A.data.size := by
  have := Nat.mul_le_mul_right A.rows.toNat (show j + 1 ≤ A.cols.toNat from hj)
  rw [Nat.add_one_mul] at this
  rw [hA.size, Nat.mul_comm A.rows.toNat]
  exact this

theorem column_eq_ok : A.column j = .ok (A.columnAt j) :=
  Table.slice_of_le hA.lt (column_le hA hj)

theorem size_columnAt : (A.columnAt j).size = A.rows.toNat := by
  have := column_le hA hj
  rw [columnAt, Array.size_extract]
  omega

end

variable [Scalar α]

theorem exists_combine {A : DenseMatrix α} (hA : A.Full) : ∀ (x : List α) {j : ℕ} {y : Array α},
    j + x.length ≤ A.cols.toNat → y.size = A.rows.toNat →
    ∃ r, A.combine j x y = .ok r ∧ r.size = A.rows.toNat
  | [], j, y, _, hy => ⟨y, rfl, hy⟩
  | a :: x, j, y, hj, hy => by
    rw [List.length_cons] at hj
    unfold combine
    by_cases ha : Scalar.isZero a = true
    · rw [if_pos ha]
      exact exists_combine hA x (by omega) hy
    · have hc := size_columnAt hA (j := j) (by omega)
      rw [if_neg ha, column_eq_ok hA (by omega), ok_bind,
        Buffer.paired_of_eq (by rw [hc, hy]), ok_bind]
      exact exists_combine hA x (by omega) (by rw [Kernel.size_axpy, hy])

theorem correlate_eq_ok {A : DenseMatrix α} (hA : A.Full) {y : Array α} {n : ℕ}
    (hn : n ≤ A.cols.toNat) (hy : y.size = A.rows.toNat) :
    A.correlate y n = .ok ((Array.range n).map fun j => Kernel.dot (A.columnAt j) y) := by
  unfold correlate
  refine array_mapM_eq_ok fun j hj => ?_
  have hj : j < A.cols.toNat := by
    have := Array.mem_range.1 hj
    omega
  rw [column_eq_ok hA hj, ok_bind, Buffer.paired_of_eq (by rw [size_columnAt hA hj, hy])]

section

variable {A : DenseMatrix α} (hA : A.Full) (hr : A.rows.toNat ≠ 0) (hc : A.cols.toNat ≠ 0) {k : ℕ}
  {x y stale : Array α}
include hA hr hc

theorem exists_mul (hx : x.size = k * A.cols.toNat) : ∃ g : ℕ → Array α,
    (∀ i < k, (g i).size = A.rows.toNat ∧ A.combine 0 (Table.chunk x A.cols.toNat i).toList
      (Array.replicate A.rows.toNat 0) = .ok (g i))
    ∧ ∀ stale : Array α, stale.size = k * A.rows.toNat →
      A.mul x stale = .ok (Buffer.join ((List.range k).map g)) := by
  have hcomb : ∀ i < k, ∃ g : Array α, g.size = A.rows.toNat
      ∧ A.combine 0 (Table.chunk x A.cols.toNat i).toList (Array.replicate A.rows.toNat 0)
        = .ok g := fun i hi => by
    obtain ⟨g, hg, hs⟩ := exists_combine hA (Table.chunk x A.cols.toNat i).toList
      (by rw [Array.length_toList, Table.size_chunk hx hi, Nat.zero_add]) Array.size_replicate
    exact ⟨g, hs, hg⟩
  choose! g hg using hcomb
  refine ⟨g, hg, fun stale hs => ?_⟩
  rw [mul, Buffer.fill, hs]
  refine Buffer.overChunks_eq hc hr hx Array.size_replicate fun i hi => ?_
  rw [Table.chunk_replicate hi]
  exact (hg i hi).2

theorem mulTranspose_eq_ok (hy : y.size = k * A.rows.toNat) (hs : stale.size = k * A.cols.toNat) :
    A.mulTranspose y stale = .ok (Buffer.join ((List.range k).map fun i =>
      (Array.range A.cols.toNat).map fun j =>
        Kernel.dot (A.columnAt j) (Table.chunk y A.rows.toNat i))) := by
  refine Buffer.overChunks_eq hr hc hy hs fun i hi => ?_
  rw [Table.size_chunk hs hi]
  exact correlate_eq_ok hA le_rfl (Table.size_chunk hy hi)

end

end DenseMatrix

namespace SparseMatrix

variable {α : Type} {A : SparseMatrix α}

/-- A row can be read where its bounds are in order and lie inside the stored entries. -/
theorem row_eq_ok_of_le {r : ℕ} {a b : UInt64} (ha : A.rowStarts[r]? = some a)
    (hb : A.rowStarts[r + 1]? = some b) (hr : r + 1 < UInt64.size) (hab : a.toNat ≤ b.toNat)
    (hbz : b.toNat ≤ A.columns.size) (hlt : A.columns.size < UInt64.size)
    (hv : A.values.size = A.columns.size) : A.row r =
      .ok ((A.columns.extract a.toNat b.toNat).zip (A.values.extract a.toNat b.toNat)) := by
  have hsum : a.toNat + (b.toNat - a.toNat) = b.toNat := by omega
  have hn : ¬ b < a := fun h => by
    have := UInt64.lt_iff_toNat_lt.1 h
    omega
  unfold row
  rw [Table.read_eq_ok_iff.2 ⟨by omega, ha⟩, ok_bind, Table.read_eq_ok_iff.2 ⟨hr, hb⟩,
    ok_bind, if_neg hn, Table.slice_of_le hlt (by omega), ok_bind,
    Table.slice_of_le (by rw [hv]; exact hlt) (by rw [hv]; omega), ok_bind, hsum]
  rfl

namespace WellFormed

theorem start_le (hA : A.WellFormed) {r : ℕ} {a z : UInt64} (hr : r ≤ A.rows.toNat)
    (ha : A.rowStarts[r]? = some a) (hz : A.rowStarts[A.rows.toNat]? = some z) : a ≤ z := by
  obtain ⟨k, hk⟩ : ∃ k, A.rows.toNat = r + k := ⟨A.rows.toNat - r, by omega⟩
  induction k generalizing r a with
  | zero =>
    rw [hk, Nat.add_zero, ha, Option.some.injEq] at hz
    exact hz ▸ UInt64.le_refl a
  | succ k ih =>
    have hlt : r + 1 < A.rowStarts.size := by
      rw [hA.starts]
      omega
    have hb := Array.getElem?_eq_getElem hlt
    exact UInt64.le_trans (hA.monotone ha hb) (ih (by omega) hb (by omega))

theorem exists_start (hA : A.WellFormed) {r : ℕ} (hr : r ≤ A.rows.toNat) :
    ∃ a, A.rowStarts[r]? = some a := by
  have hs := hA.starts
  exact ⟨_, Array.getElem?_eq_getElem (by omega)⟩

theorem getElem?_rowStarts (hA : A.WellFormed) {r : ℕ} (hr : r ≤ A.rows.toNat) :
    A.rowStarts[r]? = some (A.rowStarts.getD r 0) := by
  obtain ⟨a, ha⟩ := hA.exists_start hr
  rw [Array.getD_eq_getD_getElem?, ha, Option.getD_some]

theorem getD_columns_lt (hA : A.WellFormed) {e : ℕ} (he : e < A.columns.size) :
    (A.columns.getD e 0).toNat < A.cols.toNat := by
  rw [← Array.getElem_eq_getD 0 (h := he)]
  exact UInt64.lt_iff_toNat_lt.1 (hA.columns_lt _ (Array.getElem_mem he))

/-- The stored entries lie row after row. -/
theorem row_bounds (hA : A.WellFormed) {r : ℕ} (hr : r < A.rows.toNat) {a b : UInt64}
    (ha : A.rowStarts[r]? = some a) (hb : A.rowStarts[r + 1]? = some b) :
    a.toNat ≤ b.toNat ∧ b.toNat ≤ A.columns.size ∧ A.columns.size < UInt64.size := by
  obtain ⟨z, hz⟩ := hA.exists_start le_rfl
  rw [hA.columns_size hz]
  exact ⟨hA.monotone ha hb, hA.start_le (by omega) hb hz, UInt64.toNat_lt _⟩

theorem row_eq_ok (hA : A.WellFormed) {r : ℕ} (hr : r < A.rows.toNat) {a b : UInt64}
    (ha : A.rowStarts[r]? = some a) (hb : A.rowStarts[r + 1]? = some b) : A.row r =
      .ok ((A.columns.extract a.toNat b.toNat).zip (A.values.extract a.toNat b.toNat)) := by
  have hlt := hA.starts_lt
  obtain ⟨hab, hbz, hcl⟩ := hA.row_bounds hr ha hb
  exact row_eq_ok_of_le ha hb (by omega) hab hbz hcl hA.values_size

/-- The stored entries of a row as a table. -/
theorem row_eq_table [Zero α] (hA : A.WellFormed) {r : ℕ} (hr : r < A.rows.toNat) {a b : UInt64}
    (ha : A.rowStarts[r]? = some a) (hb : A.rowStarts[r + 1]? = some b) :
    A.row r = .ok ((Array.range (b.toNat - a.toNat)).map fun i =>
      (A.columns.getD (a.toNat + i) 0, A.values.getD (a.toNat + i) 0)) := by
  obtain ⟨hab, hbz, -⟩ := hA.row_bounds hr ha hb
  have hv := hA.values_size
  rw [hA.row_eq_ok hr ha hb, Except.ok.injEq]
  refine Array.ext (by simp; omega) fun i h1 h2 => ?_
  have hi : a.toNat + i < A.columns.size := by
    rw [Array.size_map, Array.size_range] at h2
    omega
  have hi' : a.toNat + i < A.values.size := by omega
  simp [hi, hi']

/-- A row has its entries, and their columns are columns of the matrix. -/
theorem exists_row (hA : A.WellFormed) {r : ℕ} (hr : r < A.rows.toNat) :
    ∃ es, A.row r = .ok es ∧ ∀ e ∈ es, e.1.toNat < A.cols.toNat := by
  obtain ⟨a, ha⟩ := hA.exists_start (r := r) (by omega)
  obtain ⟨b, hb⟩ := hA.exists_start (r := r + 1) (by omega)
  refine ⟨_, hA.row_eq_ok hr ha hb, fun e he => ?_⟩
  have hmem : e.1 ∈ A.columns.extract a.toNat b.toNat := by
    have := List.of_mem_zip (a := e.1) (b := e.2) (by simpa using Array.mem_toList_iff.2 he)
    exact Array.mem_toList_iff.1 (by simpa using this.1)
  obtain ⟨i, hi, h⟩ := Array.mem_iff_getElem.1 hmem
  rw [Array.getElem_extract] at h
  exact UInt64.lt_iff_toNat_lt.1 (hA.columns_lt _ (h ▸ Array.getElem_mem _))

end WellFormed

variable [Scalar α]

theorem exists_rowDot (hA : A.WellFormed) {x : Array α} (hx : x.size = A.cols.toNat) {r : ℕ}
    (hr : r < A.rows.toNat) : ∃ es, A.row r = .ok es ∧ (∀ e ∈ es, e.1.toNat < A.cols.toNat)
      ∧ A.rowDot x r = .ok (Kernel.sum (es.map fun e => e.2 * x.getD e.1.toNat 0)) := by
  obtain ⟨es, hes, hlt⟩ := hA.exists_row hr
  refine ⟨es, hes, hlt, ?_⟩
  unfold rowDot
  rw [hes, ok_bind, array_mapM_eq_ok (g := fun e => e.2 * x.getD e.1.toNat 0), ok_bind]
  · rfl
  · rintro ⟨c, v⟩ he
    have hi : c.toNat < x.size := hx ▸ hlt _ he
    dsimp only
    rw [Table.read_eq_ok_iff.2 ⟨c.toNat_lt, Array.getElem?_eq_getElem hi⟩, ok_bind,
      Array.getElem_eq_getD 0]
    rfl

/-- The entries of a row added to `x`, each times `a`. -/
def addEntries (a : α) (es : List (UInt64 × α)) (x : Array α) : Array α :=
  es.foldl (fun x e => x.setIfInBounds e.1.toNat (x.getD e.1.toNat 0 + e.2 * a)) x

theorem size_addEntries (a : α) (es : List (UInt64 × α)) (x : Array α) :
    (addEntries a es x).size = x.size := by
  induction es generalizing x with
  | nil => rfl
  | cons e es ih => rw [addEntries, List.foldl_cons, ← addEntries, ih, Array.size_setIfInBounds]

theorem addRow_eq_ok {a : α} {r : ℕ} {x : Array α} {es : Array (UInt64 × α)}
    (hes : A.row r = .ok es) (hlt : ∀ e ∈ es, e.1.toNat < x.size) :
    A.addRow a r x = .ok (addEntries a es.toList x) := by
  unfold addRow
  rw [hes, ok_bind, ← Array.foldlM_toList]
  have key : ∀ (l : List (UInt64 × α)) (x : Array α), (∀ e ∈ l, e.1.toNat < x.size) →
      l.foldlM (fun x (e : UInt64 × α) => do
        let old ← Table.read x e.1.toNat
        Table.write x e.1.toNat (old + e.2 * a)) x = .ok (addEntries a l x) := by
    intro l
    induction l with
    | nil => exact fun _ _ => rfl
    | cons e l ih =>
      intro x hx
      have he := hx e List.mem_cons_self
      rw [List.foldlM_cons, Table.read_eq_ok_iff.2 ⟨e.1.toNat_lt, Array.getElem?_eq_getElem he⟩,
        ok_bind, Table.write_eq_ok_iff.2 ⟨e.1.toNat_lt, he, rfl⟩, ok_bind,
        ih _ fun e' he' => by simpa using hx e' (List.mem_cons_of_mem _ he'),
        Array.getElem_eq_getD 0]
      rfl
  exact key es.toList x fun e he => hlt e (Array.mem_toList_iff.1 he)

theorem exists_combine (hA : A.WellFormed) : ∀ (y : List α) {r : ℕ} {x : Array α},
    r + y.length ≤ A.rows.toNat → x.size = A.cols.toNat →
    ∃ s, A.combine r y x = .ok s ∧ s.size = A.cols.toNat
  | [], r, x, _, hx => ⟨x, rfl, hx⟩
  | a :: y, r, x, hr, hx => by
    rw [List.length_cons] at hr
    obtain ⟨es, hes, hlt⟩ := hA.exists_row (r := r) (by omega)
    unfold combine
    rw [addRow_eq_ok hes (fun e he => hx ▸ hlt e he), ok_bind]
    exact exists_combine hA y (by omega) (by rw [size_addEntries, hx])

section

variable (hA : A.WellFormed) (hr : A.rows.toNat ≠ 0) (hc : A.cols.toNat ≠ 0) {k : ℕ}
  {x y : Array α}
include hA hr hc

theorem exists_mul (hx : x.size = k * A.cols.toNat) : ∃ d : ℕ → ℕ → α,
    (∀ i < k, ∀ r < A.rows.toNat, A.rowDot (Table.chunk x A.cols.toNat i) r = .ok (d i r))
    ∧ ∀ stale : Array α, stale.size = k * A.rows.toNat → A.mul x stale
      = .ok (Buffer.join ((List.range k).map fun i => (Array.range A.rows.toNat).map (d i))) := by
  have hdot : ∀ i < k, ∀ r < A.rows.toNat, ∃ v, A.rowDot (Table.chunk x A.cols.toNat i) r = .ok v :=
    fun i hi r hr => by
      obtain ⟨es, -, -, h⟩ := exists_rowDot hA (Table.size_chunk hx hi) hr
      exact ⟨_, h⟩
  choose! d hd using hdot
  refine ⟨d, hd, fun stale hs => Buffer.overChunks_eq hc hr hx hs fun i hi => ?_⟩
  rw [Table.size_chunk hs hi]
  exact array_mapM_eq_ok fun r hr => hd i hi r (Array.mem_range.1 hr)

theorem exists_mulTranspose (hy : y.size = k * A.rows.toNat) : ∃ g : ℕ → Array α,
    (∀ i < k, (g i).size = A.cols.toNat ∧ A.combine 0 (Table.chunk y A.rows.toNat i).toList
      (Array.replicate A.cols.toNat 0) = .ok (g i))
    ∧ ∀ stale : Array α, stale.size = k * A.cols.toNat →
      A.mulTranspose y stale = .ok (Buffer.join ((List.range k).map g)) := by
  have hcomb : ∀ i < k, ∃ g : Array α, g.size = A.cols.toNat
      ∧ A.combine 0 (Table.chunk y A.rows.toNat i).toList (Array.replicate A.cols.toNat 0)
        = .ok g := fun i hi => by
    obtain ⟨g, hg, hs⟩ := exists_combine hA (Table.chunk y A.rows.toNat i).toList
      (by rw [Array.length_toList, Table.size_chunk hy hi, Nat.zero_add]) Array.size_replicate
    exact ⟨g, hs, hg⟩
  choose! g hg using hcomb
  refine ⟨g, hg, fun stale hs => ?_⟩
  rw [mulTranspose, Buffer.fill, hs]
  refine Buffer.overChunks_eq hr hc hy Array.size_replicate fun i hi => ?_
  rw [Table.chunk_replicate hi]
  exact (hg i hi).2

end

end SparseMatrix

section Exact

variable {R : Type} [ExactScalar R]

theorem inner_cons (a b : R) (x y : List R) : Buffer.inner (a :: x).toArray (b :: y).toArray
    = a * b + Buffer.inner x.toArray y.toArray := by
  simp [Buffer.inner]

/-- Adding up multiples of columns is transposed to taking the inner product with each. -/
theorem DenseMatrix.inner_combine {A : DenseMatrix R} (hA : A.Full) {z : Array R}
    (hz : z.size = A.rows.toNat) : ∀ (x : List R) {j : ℕ} {y r : Array R},
    j + x.length ≤ A.cols.toNat → y.size = A.rows.toNat → A.combine j x y = .ok r →
    Buffer.inner r z = Buffer.inner y z
      + Buffer.inner x.toArray
          ((List.range' j x.length).map fun i => Kernel.dot (A.columnAt i) z).toArray
  | [], j, y, r, _, _, h => by
    simp only [combine, Except.ok.injEq] at h
    rw [h, Buffer.inner_empty, add_zero]
  | a :: x, j, y, r, hj, hy, h => by
    rw [List.length_cons] at hj
    have hc := size_columnAt hA (j := j) (by omega)
    rw [List.length_cons, List.range'_succ, List.map_cons, inner_cons]
    unfold combine at h
    by_cases ha : Scalar.isZero a = true
    · rw [if_pos ha] at h
      rw [inner_combine hA hz x (by omega) hy h, Scalar.eq_zero_of_isZero ha, zero_mul, zero_add]
    · rw [if_neg ha, column_eq_ok hA (by omega), ok_bind,
        Buffer.paired_of_eq (by rw [hc, hy]), ok_bind] at h
      rw [inner_combine hA hz x (by omega)
        (by rw [Kernel.size_axpy, hy]) h,
        Kernel.inner_axpy (by rw [hc, hy]) (by rw [hz, hy]),
        Kernel.dot_eq_inner (by rw [hc, hz])]
      ring

theorem SparseMatrix.inner_addEntries {a : R} {z : Array R} : ∀ (es : List (UInt64 × R))
    {x : Array R}, z.size = x.size → (∀ e ∈ es, e.1.toNat < x.size) →
    Buffer.inner (addEntries a es x) z
      = Buffer.inner x z + a * (es.map fun e => e.2 * z.getD e.1.toNat 0).sum
  | [], x, _, _ => by simp [addEntries]
  | e :: es, x, hz, hx => by
    have he := hx e List.mem_cons_self
    rw [addEntries, List.foldl_cons, ← addEntries,
      inner_addEntries es (by simpa using hz)
        fun e' he' => by simpa using hx e' (List.mem_cons_of_mem _ he'),
      Buffer.inner_set hz he, List.map_cons, List.sum_cons]
    ring

/-- Adding up multiples of rows is transposed to taking the inner product with each. -/
theorem SparseMatrix.inner_combine {A : SparseMatrix R} (hA : A.WellFormed) {z : Array R}
    (hz : z.size = A.cols.toNat) : ∀ (y : List R) {r : ℕ} {x s : Array R} {d : ℕ → R},
    r + y.length ≤ A.rows.toNat → x.size = A.cols.toNat → A.combine r y x = .ok s →
    (∀ i, r ≤ i → i < r + y.length → A.rowDot z i = .ok (d i)) →
    Buffer.inner s z = Buffer.inner x z
      + Buffer.inner y.toArray ((List.range' r y.length).map d).toArray
  | [], r, x, s, d, _, _, h, _ => by
    simp only [combine, Except.ok.injEq] at h
    rw [h, Buffer.inner_empty, add_zero]
  | a :: y, r, x, s, d, hr, hx, h, hd => by
    rw [List.length_cons] at hr hd
    obtain ⟨es, hes, hlt, hdot⟩ := exists_rowDot hA hz (r := r) (by omega)
    rw [hd r le_rfl (by omega), Except.ok.injEq, Kernel.sum_eq_sum, Array.toList_map] at hdot
    have hlt : ∀ e ∈ es, e.1.toNat < x.size := fun e he => hx ▸ hlt e he
    unfold combine at h
    rw [addRow_eq_ok hes hlt, ok_bind] at h
    rw [List.length_cons, List.range'_succ, List.map_cons, inner_cons,
      inner_combine hA hz y (by omega) (by rw [size_addEntries, hx]) h
        fun i h1 h2 => hd i (by omega) (by omega),
      inner_addEntries es.toList (by rw [hz, hx]) fun e he => hlt e (Array.mem_toList_iff.1 he),
      hdot]
    ring

end Exact

end MatrixFree
