import MatrixFree.Proofs.LinearMaps
import MatrixFree.Proofs.Triplets

/-!
# Two storages of one matrix

The same entries can be stored as a sparse matrix, which keeps every one of them, or as the dense
matrix of their sums. Both have the same elements (`SparseMatrix.Stores.entry_eq`), so they give the
same products, and since a transpose is told by its inner products with all vectors
(`Buffer.eq_of_inner`), the same products with the transposes (`Operator.storages_agree`).
-/

namespace MatrixFree

namespace Operator

/-- Input and output may be any number of columns, as long as it is the same number. -/
theorem check_sparse_iff {α : Type} {A : SparseMatrix α} (hA : A.WellFormed) {i o : Shape} :
    (sparse A).check ⟨[i], [o]⟩ = .ok ()
      ↔ ∃ k, Multiplies A.rows.toNat A.cols.toNat i o k := by
  rw [← checkProduct_eq_ok_iff]
  simp only [check, SparseMatrix.check_of_wellFormed hA, ShapeCheck.ports, ShapeCheck.portsOn,
    List.length_singleton, if_true, ok_bind]

/-- The two storages are accepted on the same ports, and refused for the same reason. -/
theorem check_sparse_eq {α : Type} {A : SparseMatrix α} {D : DenseMatrix α} (hA : A.WellFormed)
    (hD : D.Full) (hrows : D.rows = A.rows) (hcols : D.cols = A.cols) (sig : Signature) :
    (sparse A).check sig = (dense D).check sig := by
  have hsize : Size.mul? A.rows.toNat A.cols.toNat = some D.data.size := by
    rw [← hrows, ← hcols]
    exact Size.mul?_eq_some_iff.2 ⟨hD.size ▸ hD.lt, hD.size.symm⟩
  simp only [check, SparseMatrix.check_of_wellFormed hA, hrows, hcols, hsize, ShapeCheck.sized,
    ShapeCheck.agree, ok_bind, if_true]

end Operator

section Exact

variable {R : Type} [ExactScalar R]

/-- What is given for a place, added up. -/
def Triplet.sumAt (entries : List (Triplet R)) (i j : ℕ) : R :=
  ((entries.filter fun t => t.row.toNat = i ∧ t.col.toNat = j).map (·.value)).sum

/-- The dense matrix of the given entries: column by column, each element the sum of what is given
for it. -/
def DenseMatrix.ofTriplets (rows cols : UInt64) (entries : List (Triplet R)) : DenseMatrix R where
  rows := rows
  cols := cols
  data := (Array.range (rows.toNat * cols.toNat)).map fun a =>
    Triplet.sumAt entries (a % rows.toNat) (a / rows.toNat)

theorem DenseMatrix.size_ofTriplets {rows cols : UInt64} (entries : List (Triplet R)) :
    (ofTriplets rows cols entries).data.size = rows.toNat * cols.toNat := by
  simp [ofTriplets]

theorem DenseMatrix.entry_ofTriplets {rows cols : UInt64} (entries : List (Triplet R)) {i j : ℕ}
    (hi : i < rows.toNat) (hj : j < cols.toNat) :
    (ofTriplets rows cols entries).entry i j = Triplet.sumAt entries i j := by
  have hlt : address 0 rows.toNat i j < rows.toNat * cols.toNat := by
    rw [address, Nat.zero_add, Nat.mul_comm rows.toNat]
    exact address_lt hi hj
  show Array.getD ((Array.range _).map _) (address 0 rows.toNat i j) 0 = _
  simp [hlt, address_mod hi, address_div hi]

namespace SparseMatrix

variable {A : SparseMatrix R} {r c : ℕ}

/-- An element is the sum of what its row has stored for its column. -/
theorem entry_eq_sum (hA : A.WellFormed) (hr : r < A.rows.toNat) {es : Array (UInt64 × R)}
    (hes : A.row r = .ok es) :
    A.entry r c = (es.toList.map fun e => if e.1.toNat = c then e.2 else 0).sum := by
  rw [hA.row_eq_places hr, Except.ok.injEq] at hes
  rw [← hes, List.map_map]
  rfl

/-- A matrix that stores some entries has their sums as its elements. -/
theorem Stores.entry_eq {entries : List (Triplet R)} (hS : A.Stores entries) (hA : A.WellFormed)
    (hr : r < A.rows.toNat) : A.entry r c = Triplet.sumAt entries r c := by
  obtain ⟨es, hes, -, hperm, -, -⟩ := hS.exists_row r hr
  calc A.entry r c
      = ((entriesOf entries r).map fun e => if e.1.toNat = c then e.2 else 0).sum := by
        rw [entry_eq_sum hA hr hes, (hperm.map _).sum_eq]
    _ = ((entries.filter (·.row.toNat = r)).map fun t =>
          if t.col.toNat = c then t.value else 0).sum := by
        rw [entriesOf, List.map_map]
        rfl
    _ = Triplet.sumAt entries r c := by
        rw [List.sum_map_ite, List.filter_filter, Triplet.sumAt]
        simp [Bool.and_comm]

end SparseMatrix

/-- A vector is told by its inner products. -/
theorem Buffer.eq_of_inner {n : ℕ} {x y : Array R} (hx : x.size = n) (hy : y.size = n)
    (h : ∀ z : Array R, z.size = n → inner z x = inner z y) : x = y := by
  refine ext_getD_of_lt hx hy fun i hi => ?_
  have hi' := h (unit n i) (size_unit n i)
  rwa [inner_comm, inner_unit hx hi, inner_comm, inner_unit hy hi] at hi'

theorem IsProduct.congr {rows cols : ℕ} {A B : ℕ → ℕ → R} {x y : Array R}
    (h : ∀ i < rows, ∀ j < cols, A i j = B i j) (hy : IsProduct rows cols A x y) :
    IsProduct rows cols B x y := by
  intro i hi c hc
  rw [hy i hi c hc]
  exact Finset.sum_congr rfl fun j hj => by rw [h i hi j (Finset.mem_range.1 hj)]

section

variable {A : SparseMatrix R} {D : DenseMatrix R} (hA : A.WellFormed) (hD : D.Full)
  (hrows : D.rows = A.rows) (hcols : D.cols = A.cols) (hr : A.rows.toNat ≠ 0)
  (hc : A.cols.toNat ≠ 0) (hentry : ∀ i < A.rows.toNat, ∀ j < A.cols.toNat,
    A.entry i j = D.entry i j) {k : ℕ}
include hA hD hrows hcols hr hc hentry

/-- Products with the two storages are one array, whatever their targets held. -/
theorem exists_mul_of_entry_eq {x : Array R} (hx : x.size = k * A.cols.toNat) :
    ∃ y : Array R, y.size = k * A.rows.toNat ∧ ∀ stale : Array R, stale.size = k * A.rows.toNat →
      A.mul x stale = .ok y ∧ D.mul x stale = .ok y := by
  obtain ⟨_, _, data⟩ := D
  obtain rfl := hrows
  obtain rfl := hcols
  obtain ⟨d, -, hmul⟩ := SparseMatrix.exists_mul hA hr hc hx
  obtain ⟨g, hg, hmul'⟩ := DenseMatrix.exists_mul hD hr hc hx
  have hy := Buffer.size_join_range (k := k) (g := fun i => (Array.range A.rows.toNat).map (d i))
    (m := A.rows.toNat) (by simp)
  have hy' := Buffer.size_join_range (k := k) fun i hi => (hg i hi).1
  have hzero : (Array.replicate (k * A.rows.toNat) (0 : R)).size = k * A.rows.toNat :=
    Array.size_replicate
  have hprod := SparseMatrix.isProduct_mul hA hr hc hx hzero (hmul _ hzero)
  have hprod' := DenseMatrix.isProduct_mul hD hr hc hx hzero (hmul' _ hzero)
  have heq := IsProduct.unique hc hx hy hy' (hprod.congr hentry) hprod'
  exact ⟨_, hy, fun stale hs => ⟨hmul stale hs, heq ▸ hmul' stale hs⟩⟩

/-- A transpose is told by the products with the matrix, so products with the transposes are one
array too. -/
theorem exists_mulTranspose_of_entry_eq {y : Array R} (hy : y.size = k * A.rows.toNat) :
    ∃ x : Array R, x.size = k * A.cols.toNat ∧ ∀ stale : Array R, stale.size = k * A.cols.toNat →
      A.mulTranspose y stale = .ok x ∧ D.mulTranspose y stale = .ok x := by
  have hr' : D.rows.toNat ≠ 0 := by rwa [hrows]
  have hc' : D.cols.toNat ≠ 0 := by rwa [hcols]
  have hy' : y.size = k * D.rows.toNat := by rw [hy, hrows]
  obtain ⟨g, hg, hsparse⟩ := SparseMatrix.exists_mulTranspose hA hr hc hy
  have hx := Buffer.size_join_range (k := k) fun i hi => (hg i hi).1
  have hdense : ∀ stale : Array R, stale.size = k * A.cols.toNat → D.mulTranspose y stale = _ :=
    fun stale hs => DenseMatrix.mulTranspose_eq_ok hD hr' hc' hy' (by rw [hs, hcols])
  have hx' : (Buffer.join ((List.range k).map fun i => (Array.range D.cols.toNat).map fun j =>
      Kernel.dot (D.columnAt j) (Table.chunk y D.rows.toNat i))).size = k * A.cols.toNat :=
    Buffer.size_join_range (by simp [hcols])
  have heq := Buffer.eq_of_inner hx hx' fun z hz => by
    obtain ⟨v, -, hv⟩ := exists_mul_of_entry_eq hA hD hrows hcols hr hc hentry hz
    have hvy := hv (Array.replicate y.size 0) (by rw [Array.size_replicate, hy])
    have hz' : (Array.replicate z.size (0 : R)).size = k * A.cols.toNat := by
      rw [Array.size_replicate, hz]
    rw [← Operator.inner_sparse hA hr hc hz hy hvy.1 (hsparse _ hz'),
      Operator.inner_dense hD hr' hc' (by rw [hz, hcols]) hy' hvy.2 (hdense _ hz')]
  exact ⟨_, hx, fun stale hs => ⟨hsparse stale hs, heq ▸ hdense stale hs⟩⟩

end

namespace Operator

/-- A sparse matrix made of entries, with any order and any number of them at one place, and the
dense matrix of their sums are accepted on the same ports, which carry any number of columns, and
they give the same products in both directions. -/
theorem storages_agree (rows cols : UInt64) (entries : List (Triplet R)) {S : SparseMatrix R}
    {D : DenseMatrix R} (hr : 1 ≤ rows) (hc : 1 ≤ cols) (hrows : rows.toNat + 1 < UInt64.size)
    (hsize : rows.toNat * cols.toNat < UInt64.size) (hlen : entries.length < UInt64.size)
    (hin : ∀ t ∈ entries, t.row < rows ∧ t.col < cols) (hS : S = .ofTriplets rows cols entries)
    (hD : D = .ofTriplets rows cols entries) :
    (∀ i < rows.toNat, ∀ j < cols.toNat, D.entry i j = Triplet.sumAt entries i j)
      ∧ (∀ sig, (sparse S).check sig = (dense D).check sig)
      ∧ (∀ i o : Shape, (sparse S).check ⟨[i], [o]⟩ = .ok ()
        ↔ ∃ k, i.size = k * cols.toNat ∧ o.size = k * rows.toNat)
      ∧ ∀ sig, (sparse S).check sig = .ok () →
        (∀ x : Array R, x.size = sig.inputLength → ∃ y : Array R, y.size = sig.outputLength
          ∧ ∀ stale : Array R, stale.size = sig.outputLength →
            (sparse S).forward sig x stale = .ok y ∧ (dense D).forward sig x stale = .ok y)
        ∧ ∀ y : Array R, y.size = sig.outputLength → ∃ x : Array R, x.size = sig.inputLength
          ∧ ∀ stale : Array R, stale.size = sig.inputLength →
            (sparse S).adjoint sig y stale = .ok x ∧ (dense D).adjoint sig y stale = .ok x := by
  have hr : rows.toNat ≠ 0 := Nat.one_le_iff_ne_zero.1 (UInt64.le_iff_toNat_le.1 hr)
  have hc : cols.toNat ≠ 0 := Nat.one_le_iff_ne_zero.1 (UInt64.le_iff_toNat_le.1 hc)
  have hwf : (SparseMatrix.ofTriplets rows cols entries).WellFormed :=
    SparseMatrix.check_eq_ok_iff.1
      ((SparseMatrix.check_ofTriplets_iff hrows hlen).2 fun t ht _ => (hin t ht).2)
  have hfull : (DenseMatrix.ofTriplets rows cols entries).Full :=
    ⟨DenseMatrix.size_ofTriplets entries, by rwa [DenseMatrix.size_ofTriplets]⟩
  have hentry : ∀ i < rows.toNat, ∀ j < cols.toNat,
      (SparseMatrix.ofTriplets rows cols entries).entry i j
        = (DenseMatrix.ofTriplets rows cols entries).entry i j := fun i hi j hj => by
    rw [DenseMatrix.entry_ofTriplets entries hi hj,
      (SparseMatrix.stores_ofTriplets hrows hlen).entry_eq hwf hi]
  subst hS hD
  refine ⟨fun i hi j hj => DenseMatrix.entry_ofTriplets entries hi hj,
    check_sparse_eq hwf hfull rfl rfl, fun i o => (check_sparse_iff hwf).trans ?_,
    fun sig hsig => ?_⟩
  · exact exists_congr fun k => ⟨fun hk => ⟨hk.input_size, hk.output_size⟩,
      fun hk => ⟨hr, hc, hk.1, hk.2⟩⟩
  obtain ⟨i, o, k, rfl, -, hk⟩ := accepts_of_check hsig
  rw [inputLength_single, outputLength_single, hk.input_size, hk.output_size]
  exact ⟨fun x hx => exists_mul_of_entry_eq hwf hfull rfl rfl hr hc hentry hx,
    fun y hy => exists_mulTranspose_of_entry_eq hwf hfull rfl rfl hr hc hentry hy⟩

/-- Two rows of three columns, out of order and with two entries at one place. -/
def doubledEntries : List (Triplet ℚ) := [⟨1, 0, 5⟩, ⟨0, 2, 1⟩, ⟨0, 2, 2⟩]

theorem storages_agree_doubled : ∃ y x : Array ℚ,
    (sparse (.ofTriplets 2 3 doubledEntries)).forward doubledPorts #[1, 2, 3, 4, 5, 6] #[7, 7, 7, 7]
        = .ok y
      ∧ (dense (.ofTriplets 2 3 doubledEntries)).forward doubledPorts #[1, 2, 3, 4, 5, 6]
        #[7, 7, 7, 7] = .ok y
      ∧ (sparse (.ofTriplets 2 3 doubledEntries)).adjoint doubledPorts y #[7, 7, 7, 7, 7, 7] = .ok x
      ∧ (dense (.ofTriplets 2 3 doubledEntries)).adjoint doubledPorts y #[7, 7, 7, 7, 7, 7]
        = .ok x := by
  obtain ⟨-, -, hcheck, hagree⟩ := storages_agree 2 3 doubledEntries (by decide) (by decide)
    (by decide) (by decide) (by decide) (by decide) rfl rfl
  obtain ⟨hforward, hadjoint⟩ := hagree doubledPorts ((hcheck _ _).2 ⟨2, rfl, rfl⟩)
  obtain ⟨y, hsize, hy⟩ := hforward #[1, 2, 3, 4, 5, 6] rfl
  obtain ⟨x, -, hx⟩ := hadjoint y hsize
  exact ⟨y, x, (hy _ rfl).1, (hy _ rfl).2, (hx _ rfl).1, (hx _ rfl).2⟩

example : (dense (.ofTriplets 2 3 doubledEntries)).forward doubledPorts #[1, 2, 3, 4, 5, 6]
    #[7, 7, 7, 7] = .ok #[9, 5, 18, 20] := by
  decide +kernel

end Operator

end Exact

end MatrixFree
