import MatrixFree.Proofs.RowSpans

/-!
# The storage of given entries

The entries of a sparse matrix are sorted once; their columns and values are taken from the sorted
list as it stands, and the starts of the rows from counting it. Both passes leave out the entries
below the last row, so what lies between two starts is a row (`SparseMatrix.row_ofTriplets`).
Sorting keeps the order of ties (`filter_mergeSort`), which makes the storage canonical
(`SparseMatrix.ofTriplets_canonical`).
-/

namespace MatrixFree

/-- Sorting does not move elements past each other that are equal for the order. -/
theorem filter_mergeSort {β : Type} {le : β → β → Bool}
    (trans : ∀ a b c, le a b → le b c → le a c) (total : ∀ a b, le a b || le b a)
    {p : β → Bool} (hp : ∀ a b, p a → p b → le a b) (l : List β) :
    (l.mergeSort le).filter p = l.filter p := by
  have hsorted : (l.filter p).Pairwise fun a b => le a b = true :=
    List.pairwise_of_forall_mem_list fun a ha b hb =>
      hp a b (List.of_mem_filter ha) (List.of_mem_filter hb)
  have hsub := (List.sublist_mergeSort trans total hsorted List.filter_sublist).filter p
  rw [List.filter_filter] at hsub
  simp only [Bool.and_self] at hsub
  exact (hsub.eq_of_length ((l.mergeSort_perm le).filter p).length_eq.symm).symm

/-- A sorted list is told by the runs of elements that are equal for the order. -/
theorem eq_of_filter_eq {β : Type} {le : β → β → Bool} (total : ∀ a b, le a b || le b a) :
    ∀ {l l' : List β}, l.Pairwise (le · ·) → l'.Pairwise (le · ·) →
      (∀ x, l.filter (fun y => le x y && le y x) = l'.filter fun y => le x y && le y x) → l = l'
  | [], [], _, _, _ => rfl
  | [], b :: l', _, _, h => by
    have := h b
    simp [show le b b = true by simpa using total b b] at this
  | a :: l, [], _, _, h => by
    have := h a
    simp [show le a a = true by simpa using total a a] at this
  | a :: l, b :: l', hl, hl', h => by
    have refl : ∀ x, le x x = true := fun x => by simpa using total x x
    have hmem : ∀ x, x ∈ a :: l ↔ x ∈ b :: l' := fun x => by
      have := congrArg (x ∈ ·) (h x)
      simpa [List.mem_filter, refl x] using this
    have hab : le a b = true := by
      rcases List.mem_cons.1 ((hmem b).2 List.mem_cons_self) with heq | hb
      · exact heq ▸ refl b
      · exact (List.pairwise_cons.1 hl).1 b hb
    have hba : le b a = true := by
      rcases List.mem_cons.1 ((hmem a).1 List.mem_cons_self) with heq | ha
      · exact heq ▸ refl a
      · exact (List.pairwise_cons.1 hl').1 a ha
    -- both heads begin the run of what is equal to `a` for the order
    have heads := h a
    rw [List.filter_cons_of_pos (by simp [refl]), List.filter_cons_of_pos (by simp [hab, hba]),
      List.cons.injEq] at heads
    obtain ⟨rfl, -⟩ := heads
    refine congrArg (a :: ·) (eq_of_filter_eq total (List.pairwise_cons.1 hl).2
      (List.pairwise_cons.1 hl').2 fun x => ?_)
    have := h x
    rw [List.filter_cons, List.filter_cons] at this
    split at this
    · exact (List.cons.inj this).2
    · exact this

/-- Sorting and leaving elements out can be done in either order. -/
theorem filter_mergeSort_comm {β : Type} {le : β → β → Bool}
    (trans : ∀ a b c, le a b → le b c → le a c) (total : ∀ a b, le a b || le b a) (p : β → Bool)
    (l : List β) : (l.mergeSort le).filter p = (l.filter p).mergeSort le := by
  have ties : ∀ x a b, (le x a && le a x) = true → (le x b && le b x) = true → le a b = true :=
    fun x a b ha hb => trans a x b (Bool.and_eq_true_iff.1 ha).2 (Bool.and_eq_true_iff.1 hb).1
  refine eq_of_filter_eq total ((List.pairwise_mergeSort trans total l).filter p)
    (List.pairwise_mergeSort trans total _) fun x => ?_
  rw [List.filter_comm, filter_mergeSort trans total (ties x),
    filter_mergeSort trans total (ties x), List.filter_comm]

theorem countP_lt_succ {β : Type} (f : β → ℕ) (r : ℕ) (l : List β) :
    l.countP (f · < r + 1) = l.countP (f · < r) + l.countP (f · = r) := by
  induction l with
  | nil => rfl
  | cons x l ih =>
    simp only [List.countP_cons, ih, decide_eq_true_eq]
    split_ifs <;> omega

theorem sum_countP {β : Type} (f : β → ℕ) (l : List β) (r : ℕ) :
    ((List.range r).map fun i => l.countP (f · = i)).sum = l.countP (f · < r) := by
  induction r with
  | zero => simp
  | succ r ih =>
    rw [List.range_succ, List.map_append, List.sum_append, ih, countP_lt_succ, List.map_singleton,
      List.sum_singleton]

/-- In a list that is sorted by a number, what lies between the counts is what has that number. -/
theorem drop_take_of_sorted {β : Type} {f : β → ℕ} {r : ℕ} : ∀ {l : List β},
    l.Pairwise (fun a b => f a ≤ f b) →
    (l.take (l.countP (f · < r + 1))).drop (l.countP (f · < r)) = l.filter (f · = r)
  | [], _ => rfl
  | x :: l, h => by
    obtain ⟨hx, hl⟩ := List.pairwise_cons.1 h
    have ih := drop_take_of_sorted (r := r) hl
    rw [List.countP_cons, List.countP_cons]
    rcases Nat.lt_trichotomy (f x) r with hlt | heq | hgt
    · rw [if_pos (decide_eq_true hlt), if_pos (decide_eq_true (by omega)),
        List.filter_cons_of_neg (by simpa using hlt.ne), List.take_succ_cons, List.drop_succ_cons,
        ih]
    · have hzero : l.countP (f · < r) = 0 :=
        List.countP_eq_zero.2 fun y hy => by simpa [heq] using hx y hy
      rw [hzero, List.drop_zero] at ih
      rw [if_neg (by simp [heq]), if_pos (decide_eq_true (by omega)), hzero,
        List.filter_cons_of_pos (by simpa using heq), List.take_succ_cons, List.drop_zero, ih]
    · have hzero : l.countP (f · < r + 1) = 0 :=
        List.countP_eq_zero.2 fun y hy => by simpa using hgt.trans_le (hx y hy)
      rw [hzero, List.take_zero, List.drop_nil] at ih
      rw [if_neg (by simpa using hgt.le), if_neg (by simpa using hgt), hzero, List.take_zero,
        List.drop_nil, List.filter_cons_of_neg (by simpa using hgt.ne'), ih]

namespace SparseMatrix

variable {α : Type}

/-- Counting adds to the length of each row the number of its entries. -/
theorem getElem?_countRows : ∀ (entries : List (Triplet α)) (lengths : Array ℕ) (r : ℕ),
    (entries.foldl (fun lengths t => lengths.modify t.row.toNat (· + 1)) lengths)[r]?
      = (lengths[r]?).map (· + entries.countP (·.row.toNat = r))
  | [], lengths, r => by simp
  | t :: entries, lengths, r => by
    rw [List.foldl_cons, getElem?_countRows entries, Array.getElem?_modify, List.countP_cons]
    by_cases h : t.row.toNat = r
    · rw [if_pos h, if_pos (by simpa using h), Option.map_map]
      congr 1
      funext n
      simp only [Function.comp_apply]
      omega
    · rw [if_neg h, if_neg (by simpa using h), Nat.add_zero]

theorem rowLengths_eq (n : ℕ) (entries : List (Triplet α)) : rowLengths n entries
    = (Array.range n).map fun r => entries.countP (·.row.toNat = r) := by
  refine Array.ext_getElem? fun r => ?_
  rw [rowLengths, getElem?_countRows, Array.getElem?_map, Array.getElem?_replicate]
  split
  next h => simp [h]
  next h => rw [Array.getElem?_eq_none (by simpa using h)]; rfl

/-- Where the rows start is what the rows before add up to. -/
theorem foldl_addStart (lengths : List ℕ) : lengths.foldl addStart (#[0], 0)
    = (((List.range (lengths.length + 1)).map fun r => UInt64.ofNat (lengths.take r).sum).toArray,
      lengths.sum) := by
  induction lengths using List.reverseRecOn with
  | nil => rfl
  | append_singleton lengths n ih =>
    have hbefore : (List.range (lengths.length + 1)).map (fun r =>
        UInt64.ofNat ((lengths ++ [n]).take r).sum)
        = (List.range (lengths.length + 1)).map fun r => UInt64.ofNat (lengths.take r).sum :=
      List.map_congr_left fun r hr => by
        rw [List.take_append_of_le_length (Nat.lt_succ_iff.1 (List.mem_range.1 hr))]
    have hlast : (lengths ++ [n]).take (lengths.length + 1) = lengths ++ [n] :=
      List.take_of_length_le (by simp)
    rw [List.length_append, List.length_singleton, List.range_succ (n := lengths.length + 1),
      List.map_append, hbefore, List.map_singleton, hlast, List.foldl_append, ih, List.sum_append,
      List.sum_singleton, ← List.push_toArray]
    rfl

/-- Those of some entries that are in a row, in their order: column and value. -/
def entriesOf (entries : List (Triplet α)) (r : ℕ) : List (UInt64 × α) :=
  (entries.filter (·.row.toNat = r)).map fun t => (t.col, t.value)

/-- The entries that are stored, in the order in which they are stored. -/
def stored (rows : UInt64) (entries : List (Triplet α)) : List (Triplet α) :=
  (entries.mergeSort rowMajor).filter (·.row < rows)

theorem rowMajor_iff {s t : Triplet α} :
    rowMajor s t = true ↔ s.row < t.row ∨ s.row = t.row ∧ s.col ≤ t.col := by
  simp [rowMajor]

theorem rowMajor_trans (s t u : Triplet α) (h : rowMajor s t = true) (h' : rowMajor t u = true) :
    rowMajor s u = true := by
  rw [rowMajor_iff] at *
  grind

theorem rowMajor_total (s t : Triplet α) : (rowMajor s t || rowMajor t s) = true := by
  rw [Bool.or_eq_true_iff, rowMajor_iff, rowMajor_iff]
  grind

theorem pairwise_stored (rows : UInt64) (entries : List (Triplet α)) :
    (stored rows entries).Pairwise (rowMajor · ·) :=
  (List.pairwise_mergeSort rowMajor_trans rowMajor_total entries).filter _

section

variable {rows cols : UInt64} {entries : List (Triplet α)} {r : ℕ}

theorem length_stored_le : (stored rows entries).length ≤ entries.length :=
  (List.length_filter_le _ _).trans (entries.mergeSort_perm rowMajor).length_eq.le

theorem countP_stored (hr : r ≤ rows.toNat) :
    (((List.range rows.toNat).map fun i =>
      (stored rows entries).countP (·.row.toNat = i)).take r).sum
      = (stored rows entries).countP (·.row.toNat < r) := by
  rw [← List.map_take, List.take_range, Nat.min_eq_left hr, sum_countP]

theorem rowStarts_ofTriplets : (ofTriplets rows cols entries).rowStarts
    = (Array.range (rows.toNat + 1)).map fun r =>
        UInt64.ofNat ((stored rows entries).countP (·.row.toNat < r)) := by
  have hlengths : (rowLengths rows.toNat (stored rows entries)).toList
      = (List.range rows.toNat).map fun r => (stored rows entries).countP (·.row.toNat = r) := by
    rw [rowLengths_eq, ← toArray_map_range]
  show ((rowLengths rows.toNat (stored rows entries)).foldl addStart (#[0], 0)).1 = _
  rw [← Array.foldl_toList, hlengths, foldl_addStart, ← toArray_map_range, List.length_map,
    List.length_range]
  refine congrArg List.toArray (List.map_congr_left fun r hr => ?_)
  rw [countP_stored (Nat.lt_succ_iff.1 (List.mem_range.1 hr))]

/-- No start is too large for the word that it is stored in. -/
theorem toNat_start (hlen : entries.length < UInt64.size) (r : ℕ) :
    (UInt64.ofNat ((stored rows entries).countP (·.row.toNat < r))).toNat
      = (stored rows entries).countP (·.row.toNat < r) :=
  UInt64.toNat_ofNat_of_lt' ((List.countP_le_length.trans length_stored_le).trans_lt hlen)

/-- The start of a row, as it is stored. -/
theorem getElem?_rowStarts_ofTriplets (hr : r ≤ rows.toNat) :
    (ofTriplets rows cols entries).rowStarts[r]?
      = some (UInt64.ofNat ((stored rows entries).countP (·.row.toNat < r))) := by
  rw [rowStarts_ofTriplets, Array.getElem?_map, Array.getElem?_range, if_pos (by omega),
    Option.map_some]

theorem startOf_ofTriplets (hlen : entries.length < UInt64.size) (hr : r ≤ rows.toNat) :
    (ofTriplets rows cols entries).startOf r
      = (stored rows entries).countP (·.row.toNat < r) := by
  rw [startOf, Array.getD_eq_getD_getElem?, getElem?_rowStarts_ofTriplets hr, Option.getD_some,
    toNat_start hlen]

theorem countP_stored_rows :
    (stored rows entries).countP (·.row.toNat < rows.toNat) = (stored rows entries).length :=
  List.countP_eq_length.2 fun t ht => by
    simpa [UInt64.lt_iff_toNat_lt] using List.of_mem_filter ht

theorem row_ofTriplets (hrows : rows.toNat + 1 < UInt64.size) (hlen : entries.length < UInt64.size)
    (hr : r < rows.toNat) :
    (ofTriplets rows cols entries).row r = .ok (entriesOf (stored rows entries) r).toArray := by
  have hsorted : (stored rows entries).Pairwise fun s t => s.row.toNat ≤ t.row.toNat :=
    (pairwise_stored rows entries).imp fun h => by
      rcases rowMajor_iff.1 h with h | ⟨h, -⟩
      · exact (UInt64.lt_iff_toNat_lt.1 h).le
      · exact h ▸ le_rfl
  have hle : (stored rows entries).countP (·.row.toNat < r)
      ≤ (stored rows entries).countP (·.row.toNat < r + 1) :=
    countP_lt_succ (·.row.toNat) r (stored rows entries) ▸ Nat.le_add_right _ _
  have hcolumns : (ofTriplets rows cols entries).columns.size = (stored rows entries).length := by
    simp [ofTriplets, stored]
  have hvalues : (ofTriplets rows cols entries).values.size = (stored rows entries).length := by
    simp [ofTriplets, stored]
  rw [row_eq_ok_of_le (getElem?_rowStarts_ofTriplets hr.le) (getElem?_rowStarts_ofTriplets hr)
    (by omega) (by rwa [toNat_start hlen, toNat_start hlen])
    (by rw [toNat_start hlen, hcolumns]; exact List.countP_le_length)
    (hcolumns ▸ length_stored_le.trans_lt hlen) (hvalues.trans hcolumns.symm), toNat_start hlen,
    toNat_start hlen, entriesOf, ← drop_take_of_sorted hsorted]
  refine congrArg Except.ok (Array.toList_inj.1 ?_)
  show ((Array.extract ((stored rows entries).map (·.col)).toArray _ _).zip
    (Array.extract ((stored rows entries).map (·.value)).toArray _ _)).toList = _
  simp only [List.extract_toArray, List.extract_eq_take_drop, ← List.map_drop, ← List.map_take,
    Array.toList_zip, List.zip_map', List.drop_take]

/-- A row below the last one of the matrix has all of its entries stored. -/
theorem filter_stored (hr : r < rows.toNat) : (stored rows entries).filter (·.row.toNat = r)
    = (entries.mergeSort rowMajor).filter (·.row.toNat = r) := by
  rw [stored, List.filter_filter]
  refine List.filter_congr fun t _ => ?_
  by_cases h : t.row.toNat = r
  · simp [h, UInt64.lt_iff_toNat_lt, hr]
  · simp [h]

/-- Entries below the last row do not matter. -/
theorem ofTriplets_filter :
    ofTriplets rows cols (entries.filter (·.row < rows)) = ofTriplets rows cols entries := by
  have hstored : ((entries.filter (·.row < rows)).mergeSort rowMajor).filter (·.row < rows)
      = (entries.mergeSort rowMajor).filter (·.row < rows) := by
    rw [← filter_mergeSort_comm rowMajor_trans rowMajor_total, List.filter_filter]
    simp only [Bool.and_self]
  simp only [ofTriplets, hstored]

end

/-- That a matrix stores a list of entries: row after row without a gap, and in each row the entries
given for it, sorted by column, those of one column in the order in which they are given. -/
structure Stores (A : SparseMatrix α) (entries : List (Triplet α)) : Prop where
  size_rowStarts : A.rowStarts.size = A.rows.toNat + 1
  startOf_zero : A.startOf 0 = 0
  startOf_le : ∀ r < A.rows.toNat, A.startOf r ≤ A.startOf (r + 1)
  startOf_rows : A.startOf A.rows.toNat = A.values.size
  size_columns : A.columns.size = A.values.size
  exists_row : ∀ r < A.rows.toNat, ∃ es, A.row r = .ok es
    ∧ es.size = A.startOf (r + 1) - A.startOf r
    ∧ es.toList.Perm (entriesOf entries r)
    ∧ es.toList.Pairwise (·.1 ≤ ·.1)
    ∧ ∀ c, es.toList.filter (·.1 = c) = (entriesOf entries r).filter (·.1 = c)

section

variable {rows cols : UInt64} {entries : List (Triplet α)} {r : ℕ}

theorem pairwise_entriesOf : (entriesOf (stored rows entries) r).Pairwise (·.1 ≤ ·.1) := by
  rw [entriesOf, List.pairwise_map]
  refine ((pairwise_stored rows entries).filter _).imp_of_mem fun {s t} hs ht h => ?_
  have hs : s.row.toNat = r := by simpa using List.of_mem_filter hs
  have ht : t.row.toNat = r := by simpa using List.of_mem_filter ht
  rcases rowMajor_iff.1 h with h | ⟨-, h⟩
  · exact absurd (UInt64.lt_iff_toNat_lt.1 h) (by omega)
  · exact h

/-- Entries of one place keep their order. -/
theorem filter_entriesOf (hr : r < rows.toNat) (c : UInt64) :
    (entriesOf (stored rows entries) r).filter (·.1 = c)
      = (entriesOf entries r).filter (·.1 = c) := by
  have ties : ∀ s t : Triplet α, (decide (s.col = c) && decide (s.row.toNat = r)) = true →
      (decide (t.col = c) && decide (t.row.toNat = r)) = true → rowMajor s t = true := by
    intro s t hs ht
    simp only [Bool.and_eq_true, decide_eq_true_eq] at hs ht
    have hcol : s.col ≤ t.col := (hs.1.trans ht.1.symm) ▸ UInt64.le_refl s.col
    exact rowMajor_iff.2 (.inr ⟨UInt64.toNat_inj.1 (hs.2.trans ht.2.symm), hcol⟩)
  rw [entriesOf, entriesOf, filter_stored hr, List.filter_map, List.filter_map,
    List.filter_filter, List.filter_filter]
  exact congrArg _ (filter_mergeSort rowMajor_trans rowMajor_total ties entries)

theorem stores_ofTriplets (hrows : rows.toNat + 1 < UInt64.size)
    (hlen : entries.length < UInt64.size) : (ofTriplets rows cols entries).Stores entries where
  size_rowStarts := by
    rw [rowStarts_ofTriplets, Array.size_map, Array.size_range]
    rfl
  startOf_zero := by
    rw [startOf_ofTriplets hlen (Nat.zero_le _)]
    simp
  startOf_le r hr := by
    have hr : r < rows.toNat := hr
    rw [startOf_ofTriplets hlen hr.le, startOf_ofTriplets hlen hr, countP_lt_succ]
    exact Nat.le_add_right _ _
  startOf_rows := by
    show (ofTriplets rows cols entries).startOf rows.toNat = _
    rw [startOf_ofTriplets hlen le_rfl, countP_stored_rows]
    simp [ofTriplets, stored]
  size_columns := by simp [ofTriplets]
  exists_row r hr := by
    have hr : r < rows.toNat := hr
    refine ⟨_, row_ofTriplets hrows hlen hr, ?_, ?_, pairwise_entriesOf, filter_entriesOf hr⟩
    · rw [startOf_ofTriplets hlen hr.le, startOf_ofTriplets hlen hr, countP_lt_succ,
        Nat.add_sub_cancel_left]
      simp [entriesOf, List.countP_eq_length_filter]
    · show (entriesOf (stored rows entries) r).Perm (entriesOf entries r)
      rw [entriesOf, filter_stored hr]
      exact ((entries.mergeSort_perm rowMajor).filter _).map _

theorem startOf_eq {A : SparseMatrix α} {a : UInt64} (h : A.rowStarts[r]? = some a) :
    A.startOf r = a.toNat := by
  rw [startOf, Array.getD_eq_getD_getElem?, h, Option.getD_some]

theorem Stores.wellFormed {A : SparseMatrix α} (hA : A.Stores entries)
    (hrows : A.rows.toNat + 1 < UInt64.size) (hcols : ∀ c ∈ A.columns, c < A.cols) :
    A.WellFormed where
  starts := hA.size_rowStarts
  starts_lt := hrows
  monotone {i a b} ha hb := by
    have hi := (Array.getElem?_eq_some_iff.1 hb).1
    have hle := hA.startOf_le i (by rw [hA.size_rowStarts] at hi; omega)
    rw [startOf_eq ha, startOf_eq hb] at hle
    exact UInt64.le_iff_toNat_le.2 hle
  columns_size ha := by rw [hA.size_columns, ← hA.startOf_rows, startOf_eq ha]
  values_size := hA.size_columns.symm
  columns_lt := hcols

/-- The check has nothing to object to but columns that the matrix does not have. -/
theorem check_ofTriplets_iff (hrows : rows.toNat + 1 < UInt64.size)
    (hlen : entries.length < UInt64.size) : (ofTriplets rows cols entries).check = .ok ()
      ↔ ∀ t ∈ entries, t.row < rows → t.col < cols := by
  have hcolumns : ∀ c, c ∈ (ofTriplets rows cols entries).columns
      ↔ ∃ t ∈ entries, t.row < rows ∧ t.col = c := fun c => by
    simp [ofTriplets, and_assoc]
  rw [check_eq_ok_iff]
  constructor
  · exact fun h t ht hlt => h.columns_lt _ ((hcolumns _).2 ⟨t, ht, hlt, rfl⟩)
  · refine fun h => (stores_ofTriplets hrows hlen).wellFormed hrows fun c hc => ?_
    obtain ⟨t, ht, hlt, rfl⟩ := (hcolumns c).1 hc
    exact h t ht hlt

/-- The matrix of any entries, no more of them than a size can count, stores the entries of its
rows; those below the last row are as if they had not been given. It passes the check exactly if the
entries that it stores lie in its columns. -/
theorem ofTriplets_canonical (rows cols : UInt64) (entries : List (Triplet α))
    (hrows : rows.toNat + 1 < UInt64.size) (hlen : entries.length < UInt64.size) :
    (ofTriplets rows cols entries).rows = rows ∧ (ofTriplets rows cols entries).cols = cols
      ∧ (ofTriplets rows cols entries).Stores entries
      ∧ ofTriplets rows cols (entries.filter (·.row < rows)) = ofTriplets rows cols entries
      ∧ ((ofTriplets rows cols entries).check = .ok ()
        ↔ ∀ t ∈ entries, t.row < rows → t.col < cols) :=
  ⟨rfl, rfl, stores_ofTriplets hrows hlen, ofTriplets_filter, check_ofTriplets_iff hrows hlen⟩

end

/-- Entries of a matrix of three rows and two columns: none in the second row, two at one place of
the last row, and one below it. -/
def scattered : List (Triplet ℕ) :=
  [⟨2, 1, 4⟩, ⟨0, 1, 2⟩, ⟨3, 9, 8⟩, ⟨2, 0, 5⟩, ⟨2, 1, 3⟩, ⟨0, 0, 1⟩]

theorem ofTriplets_canonical_scattered :
    (ofTriplets 3 2 scattered).Stores scattered ∧ (ofTriplets 3 2 scattered).check = .ok ()
      ∧ ofTriplets 3 2 scattered = ⟨3, 2, #[0, 2, 2, 5], #[0, 1, 0, 1, 1], #[1, 2, 5, 4, 3]⟩ := by
  obtain ⟨-, -, hstores, -, hcheck⟩ :=
    ofTriplets_canonical 3 2 scattered (by decide) (by decide)
  have hsort : scattered.mergeSort rowMajor
      = [⟨0, 0, 1⟩, ⟨0, 1, 2⟩, ⟨2, 0, 5⟩, ⟨2, 1, 4⟩, ⟨2, 1, 3⟩, ⟨3, 9, 8⟩] := by
    simp [scattered, List.mergeSort, List.MergeSort.Internal.splitInTwo, rowMajor]
  refine ⟨hstores, hcheck.2 (by decide), ?_⟩
  rw [ofTriplets, hsort]
  rfl

end SparseMatrix

end MatrixFree
