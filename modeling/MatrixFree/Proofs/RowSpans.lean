import Mathlib.Data.List.Intervals
import MatrixFree.Proofs.LinearMaps

/-!
# Which row a stored entry belongs to

The rows of a sparse matrix that passes the check follow each other up to the last stored entry, so
they share out the entries from the start of the first row on
(`SparseMatrix.WellFormed.inRow_iff`). Entries before that belong to no row: the check does not ask
where the first row starts. A product uses each entry of a row once for each of its right-hand
sides, in both directions, and no other entry (`Operator.entries_used`).
-/

namespace MatrixFree

namespace SparseMatrix

variable {α : Type} {A : SparseMatrix α}

/-- Where the entries of a row start; those of the row before end there. -/
def startOf (A : SparseMatrix α) (r : ℕ) : ℕ := (A.rowStarts.getD r 0).toNat

/-- The entry in a place is one of a row. -/
def InRow (A : SparseMatrix α) (r e : ℕ) : Prop := A.startOf r ≤ e ∧ e < A.startOf (r + 1)

instance (A : SparseMatrix α) (r e : ℕ) : Decidable (A.InRow r e) :=
  inferInstanceAs (Decidable (_ ∧ _))

/-- The first row that the entry in a place is one of, or the number of rows if there is none. -/
def rowOf (A : SparseMatrix α) (e : ℕ) : ℕ := (List.range A.rows.toNat).findIdx (A.InRow · e)

/-- The column of the entry in a place. -/
def columnOf (A : SparseMatrix α) (e : ℕ) : ℕ := (A.columns.getD e 0).toNat

namespace WellFormed

variable (hA : A.WellFormed)
include hA

theorem startOf_mono {r r' : ℕ} (h : r ≤ r') (hr' : r' ≤ A.rows.toNat) :
    A.startOf r ≤ A.startOf r' := by
  induction r', h using Nat.le_induction with
  | base => exact le_rfl
  | succ r' _ ih =>
    exact (ih (by omega)).trans (UInt64.le_iff_toNat_le.1
      (hA.monotone (hA.getElem?_rowStarts (by omega)) (hA.getElem?_rowStarts hr')))

theorem startOf_rows : A.startOf A.rows.toNat = A.values.size := by
  rw [hA.values_size, hA.columns_size (hA.getElem?_rowStarts le_rfl)]
  rfl

theorem startOf_le {r : ℕ} (hr : r ≤ A.rows.toNat) : A.startOf r ≤ A.values.size :=
  hA.startOf_rows ▸ hA.startOf_mono hr le_rfl

theorem columnOf_lt {e : ℕ} (he : e < A.values.size) : A.columnOf e < A.cols.toNat :=
  hA.getD_columns_lt (hA.values_size ▸ he)

/-- Every entry from the start of the first row on is one of a row. -/
theorem exists_inRow {e : ℕ} (hstart : A.startOf 0 ≤ e) (he : e < A.values.size) :
    ∃ r < A.rows.toNat, A.InRow r e := by
  -- an entry before the end of the first `n` rows is in the last of them or before its start
  have key : ∀ n ≤ A.rows.toNat, e < A.startOf n → ∃ r < n, A.InRow r e := by
    intro n
    induction n with
    | zero => exact fun _ hlt => absurd hstart (by omega)
    | succ n ih =>
      intro hn hlt
      by_cases h : A.startOf n ≤ e
      · exact ⟨n, by omega, h, hlt⟩
      · obtain ⟨r, hr, h⟩ := ih (by omega) (by omega)
        exact ⟨r, by omega, h⟩
  exact key _ le_rfl (hA.startOf_rows ▸ he)

theorem start_le_of_inRow {r e : ℕ} (hr : r < A.rows.toNat) (h : A.InRow r e) : A.startOf 0 ≤ e :=
  (hA.startOf_mono (Nat.zero_le r) hr.le).trans h.1

/-- No entry is one of two rows. -/
theorem inRow_unique {r r' e : ℕ} (hr : r < A.rows.toNat) (hr' : r' < A.rows.toNat)
    (h : A.InRow r e) (h' : A.InRow r' e) : r = r' := by
  rcases Nat.lt_trichotomy r r' with hlt | heq | hlt
  · exact absurd (h.2.trans_le (hA.startOf_mono hlt hr'.le)) h'.1.not_gt
  · exact heq
  · exact absurd (h'.2.trans_le (hA.startOf_mono hlt hr.le)) h.1.not_gt

theorem rowOf_eq {r e : ℕ} (hr : r < A.rows.toNat) (h : A.InRow r e) : A.rowOf e = r := by
  rw [rowOf, List.findIdx_eq (by simpa using hr)]
  refine ⟨by simpa using h, fun r' hr' => ?_⟩
  have hne : ¬ A.InRow r' e := fun h' => hr'.ne (hA.inRow_unique (hr'.trans hr) hr h' h)
  simpa using hne

/-- The rows share out the entries from the start of the first row on. -/
theorem inRow_iff {r e : ℕ} (hr : r < A.rows.toNat) (he : e < A.values.size) :
    A.InRow r e ↔ A.startOf 0 ≤ e ∧ A.rowOf e = r := by
  constructor
  · exact fun h => ⟨hA.start_le_of_inRow hr h, hA.rowOf_eq hr h⟩
  · rintro ⟨hstart, rfl⟩
    obtain ⟨r', hr', h⟩ := hA.exists_inRow hstart he
    rwa [hA.rowOf_eq hr' h]

theorem rowOf_lt {e : ℕ} (hstart : A.startOf 0 ≤ e) (he : e < A.values.size) :
    A.rowOf e < A.rows.toNat := by
  obtain ⟨r, hr, h⟩ := hA.exists_inRow hstart he
  rwa [hA.rowOf_eq hr h]

theorem lt_of_mem_filter {p : ℕ → Bool} {e : ℕ}
    (he : e ∈ (List.Ico (A.startOf 0) A.values.size).filter p) :
    A.rowOf e < A.rows.toNat ∧ A.columnOf e < A.cols.toNat := by
  obtain ⟨hstart, he⟩ := List.Ico.mem.1 (List.mem_of_mem_filter he)
  exact ⟨hA.rowOf_lt hstart he, hA.columnOf_lt he⟩

/-- No entry is left over exactly if the first row starts at the first entry. -/
theorem forall_existsUnique_inRow_iff :
    (∀ e < A.values.size, ∃! r, r < A.rows.toNat ∧ A.InRow r e) ↔ A.startOf 0 = 0 := by
  constructor
  · intro h
    by_contra hne
    have hle := hA.startOf_le (Nat.zero_le A.rows.toNat)
    obtain ⟨r, ⟨hr, hin⟩, -⟩ := h 0 (by omega)
    exact hne (Nat.le_zero.1 (hA.start_le_of_inRow hr hin))
  · intro h e he
    obtain ⟨r, hr, hin⟩ := hA.exists_inRow (by omega) he
    exact ⟨r, ⟨hr, hin⟩, fun r' h' => hA.inRow_unique h'.1 hr h'.2 hin⟩

theorem filter_rowOf {r : ℕ} (hr : r < A.rows.toNat) :
    (List.Ico (A.startOf 0) A.values.size).filter (A.rowOf · = r)
      = List.Ico (A.startOf r) (A.startOf (r + 1)) := by
  have hbounds : (List.Ico (A.startOf 0) A.values.size).filter (A.rowOf · = r)
      = ((List.Ico (A.startOf 0) A.values.size).filter (· < A.startOf (r + 1))).filter
        (A.startOf r ≤ ·) := by
    rw [List.filter_filter]
    refine List.filter_congr fun e he => ?_
    obtain ⟨hstart, he⟩ := List.Ico.mem.1 he
    have hiff := hA.inRow_iff hr he
    simp only [hstart, true_and] at hiff
    rw [← Bool.decide_and, decide_eq_decide, ← hiff, InRow]
  rw [hbounds, List.Ico.filter_lt, List.Ico.filter_le,
    max_eq_right (hA.startOf_mono (Nat.zero_le r) hr.le),
    min_eq_right (hA.startOf_le hr)]

/-- The entries of a row lie from its start to that of the next row. -/
theorem row_eq_places [Zero α] {r : ℕ} (hr : r < A.rows.toNat) :
    A.row r = .ok ((List.Ico (A.startOf r) (A.startOf (r + 1))).map fun e =>
      (A.columns.getD e 0, A.values.getD e 0)).toArray := by
  rw [hA.row_eq_table hr (hA.getElem?_rowStarts hr.le) (hA.getElem?_rowStarts hr),
    List.Ico, List.range'_eq_map_range]
  exact congrArg Except.ok (Array.toList_inj.1 (by simp [startOf]))

end WellFormed

section Products

variable [Scalar α]

/-- The values in some places, each times its factor, added to `start` one after the other. -/
def addUp (A : SparseMatrix α) (start : α) (factor : ℕ → α) (places : List ℕ) : α :=
  places.foldl (fun sum e => sum + A.values.getD e 0 * factor e) start

theorem addUp_congr {f g : ℕ → α} {places : List ℕ} (h : ∀ e ∈ places, f e = g e) (start : α) :
    A.addUp start f places = A.addUp start g places :=
  List.foldl_ext _ _ _ fun sum e he => by rw [h e he]

theorem rowDot_eq_addUp (hA : A.WellFormed) {x : Array α} (hx : x.size = A.cols.toNat) {r : ℕ}
    (hr : r < A.rows.toNat) : A.rowDot x r
      = .ok (A.addUp Scalar.sumStart (fun e => x.getD (A.columnOf e) 0)
        ((List.Ico (A.startOf 0) A.values.size).filter (A.rowOf · = r))) := by
  obtain ⟨es, hes, -, hdot⟩ := exists_rowDot hA hx hr
  rw [hA.row_eq_places hr, Except.ok.injEq] at hes
  rw [hdot, ← hes, hA.filter_rowOf hr]
  simp [Kernel.sum, addUp, columnOf, List.foldl_map]

/-- Entries added to a vector meet one of its elements where their column is its place. -/
theorem getD_addEntries (a : α) {j : ℕ} : ∀ (es : List (UInt64 × α)) {x : Array α}, j < x.size →
    (addEntries a es x).getD j 0
      = (es.filter (·.1.toNat = j)).foldl (fun sum e => sum + e.2 * a) (x.getD j 0)
  | [], _, _ => rfl
  | e :: es, x, hj => by
    rw [addEntries, List.foldl_cons, ← addEntries, getD_addEntries a es (by simpa using hj),
      Array.getD_eq_getD_getElem?, Array.getElem?_setIfInBounds]
    by_cases he : e.1.toNat = j
    · rw [if_pos he, if_pos (he ▸ hj), List.filter_cons_of_pos (by simpa using he), he]
      rfl
    · rw [if_neg he, List.filter_cons_of_neg (by simpa using he), ← Array.getD_eq_getD_getElem?]

section

variable (hA : A.WellFormed) {y : Array α} (hy : y.size = A.rows.toNat)
include hA

/-- A row added to a vector, times the element of `y` in its place. -/
theorem exists_addRow {r : ℕ} (hr : r < A.rows.toNat) {x : Array α} (hx : x.size = A.cols.toNat) :
    ∃ s, A.addRow (y.getD r 0) r x = .ok s ∧ s.size = A.cols.toNat ∧ ∀ j < A.cols.toNat,
      s.getD j 0 = A.addUp (x.getD j 0) (fun e => y.getD (A.rowOf e) 0)
        ((List.Ico (A.startOf r) (A.startOf (r + 1))).filter (A.columnOf · = j)) := by
  obtain ⟨es, hes, hlt⟩ := hA.exists_row hr
  refine ⟨_, addRow_eq_ok hes fun e he => hx ▸ hlt e he, by rw [size_addEntries, hx],
    fun j hj => ?_⟩
  rw [hA.row_eq_places hr, Except.ok.injEq] at hes
  rw [getD_addEntries _ _ (hx ▸ hj), ← hes, List.filter_map, List.foldl_map, addUp]
  refine List.foldl_ext _ _ _ fun sum e he => ?_
  rw [hA.rowOf_eq hr (List.Ico.mem.1 (List.mem_of_mem_filter he))]

include hy

/-- The rows from `r` on added up, each times its element of `y`: an element of the result gathers
the entries of its column. -/
theorem getD_combine {j : ℕ} (hj : j < A.cols.toNat) : ∀ (z : List α) {r : ℕ} {x s : Array α},
    r ≤ A.rows.toNat → y.toList.drop r = z → x.size = A.cols.toNat → A.combine r z x = .ok s →
    s.getD j 0 = A.addUp (x.getD j 0) (fun e => y.getD (A.rowOf e) 0)
      ((List.Ico (A.startOf r) A.values.size).filter (A.columnOf · = j))
  | [], r, x, s, hr, hz, _, h => by
    have hle : A.rows.toNat ≤ r := by simpa [hy] using hz
    rw [combine, Except.ok.injEq] at h
    rw [← h, Nat.le_antisymm hr hle, hA.startOf_rows, List.Ico.self_empty]
    rfl
  | a :: z, r, x, s, hr, hz, hx, h => by
    have hlt : r < A.rows.toNat := by
      by_contra hge
      rw [List.drop_eq_nil_of_le (by simpa [hy] using hge)] at hz
      cases hz
    have hlt' : r < y.toList.length := by simpa [hy] using hlt
    rw [List.drop_eq_getElem_cons hlt', List.cons.injEq, Array.getElem_toList,
      Array.getElem_eq_getD 0] at hz
    obtain ⟨rfl, hz⟩ := hz
    obtain ⟨x', hx', hs, hget⟩ := exists_addRow hA hlt hx
    unfold combine at h
    rw [hx', ok_bind] at h
    -- the entries of this row lie before those of the rows that follow
    rw [getD_combine hj z hlt hz hs h, hget j hj, addUp, addUp, ← List.foldl_append,
      ← List.filter_append, List.Ico.append_consecutive (hA.startOf_mono (Nat.le_succ r) hlt)
        (hA.startOf_le hlt), addUp]

end

section

variable (hA : A.WellFormed) (hr : A.rows.toNat ≠ 0) (hc : A.cols.toNat ≠ 0) {k : ℕ}
  {x y s : Array α}
include hA hr hc

/-- Each element of a product gathers the entries of its row. -/
theorem exists_mul_addUp (hx : x.size = k * A.cols.toNat) (hs : s.size = k * A.rows.toNat) :
    ∃ y, A.mul x s = .ok y ∧ y.size = k * A.rows.toNat ∧ ∀ c < k, ∀ r < A.rows.toNat,
      y.getD (address 0 A.rows.toNat r c) 0 = A.addUp Scalar.sumStart
        (fun e => x.getD (address 0 A.cols.toNat (A.columnOf e) c) 0)
        ((List.Ico (A.startOf 0) A.values.size).filter (A.rowOf · = r)) := by
  obtain ⟨d, hd, hmul⟩ := exists_mul hA hr hc hx
  have hsize : ∀ c < k, ((Array.range A.rows.toNat).map (d c)).size = A.rows.toNat := by simp
  refine ⟨_, hmul s hs, Buffer.size_join_range hsize, fun c hck r hr => ?_⟩
  have hdot := hd c hck r hr
  rw [rowDot_eq_addUp hA (Table.size_chunk hx hck) hr, Except.ok.injEq] at hdot
  have hget : ((Array.range A.rows.toNat).map (d c)).getD r 0 = d c r := by simp [hr]
  rw [Buffer.getD_join_range hsize hr hck, hget, ← hdot]
  exact addUp_congr (fun e he => Table.getD_chunk x (hA.lt_of_mem_filter he).2) _

/-- Each element of a product with the transpose gathers the entries of its column. -/
theorem exists_mulTranspose_addUp (hy : y.size = k * A.rows.toNat)
    (hs : s.size = k * A.cols.toNat) :
    ∃ x, A.mulTranspose y s = .ok x ∧ x.size = k * A.cols.toNat ∧ ∀ c < k, ∀ j < A.cols.toNat,
      x.getD (address 0 A.cols.toNat j c) 0 = A.addUp 0
        (fun e => y.getD (address 0 A.rows.toNat (A.rowOf e) c) 0)
        ((List.Ico (A.startOf 0) A.values.size).filter (A.columnOf · = j)) := by
  obtain ⟨g, hg, hmul⟩ := exists_mulTranspose hA hr hc hy
  have hsize : ∀ c < k, (g c).size = A.cols.toNat := fun c hck => (hg c hck).1
  refine ⟨_, hmul s hs, Buffer.size_join_range hsize, fun c hck j hj => ?_⟩
  rw [Buffer.getD_join_range hsize hj hck, getD_combine hA (Table.size_chunk hy hck) hj _
    (Nat.zero_le _) rfl Array.size_replicate (hg c hck).2, Buffer.getD_replicate_zero]
  exact addUp_congr (fun e he => Table.getD_chunk y (hA.lt_of_mem_filter he).1) _

end

end Products

end SparseMatrix

namespace Operator

variable {α : Type} [Scalar α]

/-- Of a sparse matrix that passes the check the rows share out the stored entries from the start of
the first row on, and these are all of the entries exactly if the first row starts at the first
entry. Both directions use each entry of a row once for each right-hand side and no entry besides:
the forward direction with the element in its column for the sum of its row, the adjoint with the
element in its row for the sum of its column. -/
theorem entries_used {A : SparseMatrix α} {sig : Signature}
    (hcheck : (sparse A).check sig = .ok ()) :
    (∀ e < A.values.size, A.columnOf e < A.cols.toNat
        ∧ (A.startOf 0 ≤ e → A.rowOf e < A.rows.toNat)
        ∧ ∀ r < A.rows.toNat, A.InRow r e ↔ A.startOf 0 ≤ e ∧ A.rowOf e = r)
      ∧ ((∀ e < A.values.size, ∃! r, r < A.rows.toNat ∧ A.InRow r e) ↔ A.startOf 0 = 0)
      ∧ (∀ x s : Array α, x.size = sig.inputLength → s.size = sig.outputLength →
          ∃ y, (sparse A).forward sig x s = .ok y ∧ y.size = sig.outputLength
            ∧ ∀ c < x.size / A.cols.toNat, ∀ r < A.rows.toNat,
              y.getD (address 0 A.rows.toNat r c) 0 = A.addUp Scalar.sumStart
                (fun e => x.getD (address 0 A.cols.toNat (A.columnOf e) c) 0)
                ((List.Ico (A.startOf 0) A.values.size).filter (A.rowOf · = r)))
      ∧ ∀ y s : Array α, y.size = sig.outputLength → s.size = sig.inputLength →
          ∃ x, (sparse A).adjoint sig y s = .ok x ∧ x.size = sig.inputLength
            ∧ ∀ c < y.size / A.rows.toNat, ∀ j < A.cols.toNat,
              x.getD (address 0 A.cols.toNat j c) 0 = A.addUp 0
                (fun e => y.getD (address 0 A.rows.toNat (A.rowOf e) c) 0)
                ((List.Ico (A.startOf 0) A.values.size).filter (A.columnOf · = j)) := by
  obtain ⟨i, o, k, rfl, hA, hk⟩ := accepts_of_check hcheck
  rw [inputLength_single, outputLength_single, hk.input_size, hk.output_size]
  have hcount : ∀ {x : Array α} {n : ℕ}, n ≠ 0 → x.size = k * n → x.size / n = k :=
    fun hn hx => by rw [hx, Nat.mul_div_cancel _ (Nat.pos_of_ne_zero hn)]
  refine ⟨fun e he => ⟨hA.columnOf_lt he, fun hstart => hA.rowOf_lt hstart he,
    fun r hr => hA.inRow_iff hr he⟩, hA.forall_existsUnique_inRow_iff, fun x s hx hs => ?_,
    fun y s hy hs => ?_⟩
  · rw [hcount hk.cols_ne hx]
    exact SparseMatrix.exists_mul_addUp hA hk.rows_ne hk.cols_ne hx hs
  · rw [hcount hk.rows_ne hy]
    exact SparseMatrix.exists_mulTranspose_addUp hA hk.rows_ne hk.cols_ne hy hs

theorem entries_used_doubled :
    (∀ e < 3, ∃! r, r < 2 ∧ doubled.InRow r e)
      ∧ (∃ y, (sparse doubled).forward doubledPorts #[1, 2, 3, 4, 5, 6] #[7, 7, 7, 7] = .ok y
        ∧ y.size = 4)
      ∧ ∃ x, (sparse doubled).adjoint doubledPorts #[1, 2, 3, 4] #[7, 7, 7, 7, 7, 7] = .ok x
        ∧ ∀ c < 2, ∀ j < 3, x.getD (address 0 3 j c) 0 = doubled.addUp 0
            (fun e => #[1, 2, 3, 4].getD (address 0 2 (doubled.rowOf e) c) 0)
            ((List.Ico 0 3).filter (doubled.columnOf · = j)) := by
  have hcheck : (sparse doubled).check doubledPorts = .ok () := by decide +kernel
  obtain ⟨-, hall, hforward, hadjoint⟩ := entries_used hcheck
  obtain ⟨y, hy, hsize, -⟩ := hforward #[1, 2, 3, 4, 5, 6] #[7, 7, 7, 7] rfl rfl
  obtain ⟨x, hx, -, hget⟩ := hadjoint #[1, 2, 3, 4] #[7, 7, 7, 7, 7, 7] rfl rfl
  exact ⟨hall.2 rfl, ⟨y, hy, hsize⟩, x, hx, hget⟩

/-- A matrix of one element whose only row starts at the second of its two entries. -/
def skipping : SparseMatrix Float := ⟨1, 1, #[1, 2], #[0, 0], #[5.0, 7.0]⟩

/-- The first entry of `skipping` belongs to no row, and neither direction uses it. -/
theorem first_entry_unused :
    (sparse skipping).check ⟨[.vector 1], [.vector 1]⟩ = .ok ()
      ∧ ¬ (∀ e < skipping.values.size, ∃! r, r < skipping.rows.toNat ∧ skipping.InRow r e)
      ∧ (sparse skipping).forward ⟨[.vector 1], [.vector 1]⟩ #[1.0] #[0.0] = .ok #[7.0]
      ∧ (sparse skipping).adjoint ⟨[.vector 1], [.vector 1]⟩ #[1.0] #[0.0] = .ok #[7.0] := by
  refine ⟨by decide +kernel, fun h => ?_, by decide +kernel, by decide +kernel⟩
  obtain ⟨r, ⟨hr, hin⟩, -⟩ := h 0 (by decide)
  obtain rfl : r = 0 := Nat.lt_one_iff.1 hr
  exact absurd hin (by decide)

end Operator

end MatrixFree
