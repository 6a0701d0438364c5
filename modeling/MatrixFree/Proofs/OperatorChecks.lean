import MatrixFree.Proofs.Shapes
import MatrixFree.Proofs.Tables
import MatrixFree.Operator.Check

/-!
# What the port checks establish

`Operator.Accepts` says in sizes what a signature has to be for an operator to be applied on it,
and `SparseMatrix.WellFormed` what the storage of a sparse matrix has to be. An operator whose
check passes accepts its signature (`Operator.accepts_of_check`), and it then has a port on each
side (`Operator.Accepts.ports`).
-/

namespace MatrixFree

namespace ShapeCheck

variable {β : Type}

theorem refuse_ne_ok {f : ShapeFault} {b : β} : refuse f ≠ (.ok b : ShapeCheck β) := nofun

theorem guard_eq_ok_iff {γ : Type} {c : Prop} [Decidable c] {f : ShapeFault} {k : γ → ShapeCheck β}
    {x : ShapeCheck β} {b : β} : (if c then refuse f >>= k else x) = .ok b ↔ ¬ c ∧ x = .ok b :=
  MatrixFree.guard_eq_ok_iff

theorem agree_eq_ok_iff {which : Agreement} {a b : ℕ} {u : Unit} :
    agree which a b = .ok u ↔ a = b :=
  require_eq_ok_iff

theorem sized_eq_ok_iff {which : Quantity} {n : Option ℕ} {m : ℕ} :
    sized which n = .ok m ↔ n = some m := by
  cases n <;> simp [sized, refuse]

theorem port_eq_ok_iff {shapes : List Shape} {s : Shape} :
    port shapes 0 = .ok s ↔ shapes[0]? = some s := by
  have h : port shapes 0 = .ok s ↔ Table.pick shapes 0 = .ok s := by
    unfold port
    cases Table.pick shapes 0 <;> simp [Checked.lift]
  rw [h, Table.pick_eq_ok_iff]
  exact ⟨fun h => h.2, fun h => ⟨by decide, h⟩⟩

theorem divide_eq_ok_iff {n d : ℕ} {q : ℕ × ℕ} :
    divide n d = .ok q ↔ d ≠ 0 ∧ (n / d, n % d) = q := by
  unfold divide
  split <;> simp_all

theorem pred_eq_ok_iff {n m : ℕ} : pred n = .ok m ↔ n = m + 1 := by
  unfold pred
  split
  · simp_all
  · simp only [Except.ok.injEq]
    omega

theorem portsOn_eq_ok_iff {side : Side} {shapes : List Shape} {n : Option ℕ} :
    portsOn side shapes n = .ok () ↔ match n with
      | some n => shapes.length = n
      | none => shapes ≠ [] := by
  cases n with
  | none => cases shapes <;> simp [portsOn, refuse]
  | some n =>
    simp only [portsOn]
    split
    · simpa
    · simpa [refuse] using ‹_›

theorem ports_eq_ok_iff {sig : Signature} {m n : Option ℕ} : ports sig m n = .ok () ↔
    portsOn .input sig.inputs m = .ok () ∧ portsOn .output sig.outputs n = .ok () := by
  unfold ports
  rw [bind_eq_ok_iff]
  exact ⟨fun ⟨_, h⟩ => h, fun h => ⟨(), h⟩⟩

/-- One port on each side. -/
theorem single_single {sig : Signature} (h : ports sig (some 1) (some 1) = .ok ()) :
    ∃ i o, sig = ⟨[i], [o]⟩ := by
  obtain ⟨hi, ho⟩ := ports_eq_ok_iff.1 h
  obtain ⟨i, hi⟩ := List.length_eq_one_iff.1 (portsOn_eq_ok_iff.1 hi)
  obtain ⟨o, ho⟩ := List.length_eq_one_iff.1 (portsOn_eq_ok_iff.1 ho)
  exact ⟨i, o, by cases sig; simp_all⟩

/-- Any ports but none in, one port out. -/
theorem some_single {sig : Signature} (h : ports sig none (some 1) = .ok ()) :
    sig.inputs ≠ [] ∧ ∃ o, sig.outputs = [o] := by
  obtain ⟨hi, ho⟩ := ports_eq_ok_iff.1 h
  exact ⟨portsOn_eq_ok_iff.1 hi, List.length_eq_one_iff.1 (portsOn_eq_ok_iff.1 ho)⟩

/-- One port in, any ports but none out. -/
theorem single_some {sig : Signature} (h : ports sig (some 1) none = .ok ()) :
    (∃ i, sig.inputs = [i]) ∧ sig.outputs ≠ [] := by
  obtain ⟨hi, ho⟩ := ports_eq_ok_iff.1 h
  exact ⟨List.length_eq_one_iff.1 (portsOn_eq_ok_iff.1 hi), portsOn_eq_ok_iff.1 ho⟩

end ShapeCheck

theorem Shape.size_lt (s : Shape) : s.size < UInt64.size := UInt64.toNat_lt _

theorem Shape.total_single (s : Shape) : Shape.total [s] = s.size :=
  Nat.mod_eq_of_lt s.size_lt

/-- The storage of a sparse matrix: the rows follow each other up to the last stored entry, and
every column is one of the matrix. -/
structure SparseMatrix.WellFormed {α : Type} (A : SparseMatrix α) : Prop where
  starts : A.rowStarts.size = A.rows.toNat + 1
  starts_lt : A.rows.toNat + 1 < UInt64.size
  monotone : ∀ {i : ℕ} {a b : UInt64}, A.rowStarts[i]? = some a → A.rowStarts[i + 1]? = some b →
    a ≤ b
  columns_size : ∀ {a : UInt64}, A.rowStarts[A.rows.toNat]? = some a → A.columns.size = a.toNat
  values_size : A.values.size = A.columns.size
  columns_lt : ∀ c ∈ A.columns, c < A.cols

theorem SparseMatrix.wellFormed_of_check {α : Type} {A : SparseMatrix α} (h : A.check = .ok ()) :
    A.WellFormed := by
  unfold check at h
  simp only [ShapeCheck.guard_eq_ok_iff] at h
  obtain ⟨hs, hm, hc, hf⟩ := h
  obtain ⟨hlt, hs⟩ := Size.add?_eq_some_iff.1 (Decidable.not_not.1 hs).symm
  push Not at hc
  have hlast : ∀ {a : UInt64}, A.rowStarts[A.rows.toNat]? = some a →
      A.rowStarts.back?.getD 0 = a := by
    intro a ha
    rw [Array.back?, ← hs, Nat.add_sub_cancel, ha, Option.getD_some]
  refine ⟨hs.symm, hlt, fun {i a b} ha hb => ?_, fun {a} ha => by rw [hc.1, hlast ha],
    by rw [hc.1, hc.2], fun c hcm => ?_⟩
  · by_contra hab
    refine hm (Array.any_eq_true.2 ?_)
    obtain ⟨hi, ha⟩ := Array.getElem?_eq_some_iff.1 ha
    obtain ⟨hj, hb⟩ := Array.getElem?_eq_some_iff.1 hb
    refine ⟨i, by simp only [Array.size_zip, Array.drop_eq_extract, Array.size_extract]; omega, ?_⟩
    simpa [ha, hb, Nat.add_comm 1 i] using hab
  · by_contra hlt
    have hsome : (A.columns.find? (A.cols ≤ ·)).isSome := by
      rw [Array.find?_isSome]
      exact ⟨c, hcm, by simpa using hlt⟩
    obtain ⟨d, hd⟩ := Option.isSome_iff_exists.1 hsome
    simp only [hd] at hf
    exact ShapeCheck.refuse_ne_ok hf

theorem SparseMatrix.check_of_wellFormed {α : Type} {A : SparseMatrix α} (hA : A.WellFormed) :
    A.check = .ok () := by
  have hs := hA.starts
  obtain ⟨z, hz⟩ : ∃ z, A.rowStarts[A.rows.toNat]? = some z :=
    ⟨_, Array.getElem?_eq_getElem (by omega)⟩
  have hback : A.rowStarts.back?.getD 0 = z := by
    rw [Array.back?, hs, Nat.add_sub_cancel, hz, Option.getD_some]
  unfold check
  simp only [ShapeCheck.guard_eq_ok_iff]
  refine ⟨fun h => h ?_, fun h => ?_, ?_, ?_⟩
  · exact (Size.add?_eq_some_iff.2 ⟨hA.starts_lt, hs.symm⟩).symm
  · obtain ⟨i, hi, hlt⟩ := Array.any_eq_true.1 h
    simp only [Array.size_zip, Array.drop_eq_extract, Array.size_extract] at hi
    have hle := hA.monotone (i := i) (Array.getElem?_eq_getElem (by omega))
      (Array.getElem?_eq_getElem (by omega))
    exact UInt64.not_lt.2 hle (by simpa [Nat.add_comm 1 i] using hlt)
  · rw [hback, hA.values_size, hA.columns_size hz]
    simp
  · have hnone : A.columns.find? (A.cols ≤ ·) = none :=
      Array.find?_eq_none.2 fun c hc => by simpa using hA.columns_lt c hc
    rw [hnone]
    rfl

theorem SparseMatrix.check_eq_ok_iff {α : Type} {A : SparseMatrix α} :
    A.check = .ok () ↔ A.WellFormed :=
  ⟨wellFormed_of_check, check_of_wellFormed⟩

namespace Operator

variable {α : Type}

/-- The input is `k` columns, and the output as many columns of products with a matrix. -/
structure Multiplies (rows cols : ℕ) (input output : Shape) (k : ℕ) : Prop where
  rows_ne : rows ≠ 0
  cols_ne : cols ≠ 0
  input_size : input.size = k * cols
  output_size : output.size = k * rows

theorem checkProduct_eq_ok_iff {rows cols : ℕ} {i o : Shape} :
    checkProduct rows cols ⟨[i], [o]⟩ = .ok () ↔ ∃ k, Multiplies rows cols i o k := by
  unfold checkProduct
  simp only [bind_eq_ok_iff, ShapeCheck.guard_eq_ok_iff, ShapeCheck.port_eq_ok_iff,
    ShapeCheck.divide_eq_ok_iff, ShapeCheck.sized_eq_ok_iff, ShapeCheck.agree_eq_ok_iff,
    Size.mul?_eq_some_iff, List.getElem?_cons_zero, Option.some.injEq]
  constructor
  · rintro ⟨_, rfl, hr, hc, _, ⟨-, rfl⟩, hrest, _, ⟨-, rfl⟩, _, rfl, ho⟩
    refine ⟨i.size / cols, hr, hc, ?_, by rw [ho, Nat.mul_comm]⟩
    rw [Nat.div_mul_cancel (Nat.dvd_of_mod_eq_zero (Decidable.not_not.1 hrest))]
  · rintro ⟨k, hr, hc, hi, ho⟩
    have hdiv : i.size / cols = k := by rw [hi, Nat.mul_div_cancel _ (Nat.pos_of_ne_zero hc)]
    have hmod : i.size % cols = 0 := by rw [hi, Nat.mul_mod_left]
    have ho' : rows * k = o.size := by rw [ho, Nat.mul_comm]
    exact ⟨i, rfl, hr, hc, (k, 0), ⟨hc, by rw [hdiv, hmod]⟩, by simp, o.size,
      ⟨by rw [ho']; exact o.size_lt, ho'⟩, o, rfl, rfl⟩

/-- When an operator can be applied on a signature, in terms of sizes. -/
def Accepts (op : Operator α) (sig : Signature) : Prop :=
  match op with
  | identity | negate | scale _ => ∃ i o, sig = ⟨[i], [o]⟩ ∧ i.size = o.size
  | dense A => ∃ i o k, sig = ⟨[i], [o]⟩ ∧ A.data.size = A.rows.toNat * A.cols.toNat
      ∧ A.data.size < UInt64.size ∧ Multiplies A.rows.toNat A.cols.toNat i o k
  | sparse A => ∃ i o k, sig = ⟨[i], [o]⟩ ∧ A.WellFormed
      ∧ Multiplies A.rows.toNat A.cols.toNat i o k
  | sum => ∃ is o, is ≠ [] ∧ sig = ⟨is, [o]⟩ ∧ ∀ s ∈ is, s.size = o.size
  | copy => ∃ i os, os ≠ [] ∧ sig = ⟨[i], os⟩ ∧ ∀ s ∈ os, s.size = i.size
  | concat => ∃ is o, is ≠ [] ∧ sig = ⟨is, [o]⟩ ∧ Shape.total is = o.size
  | split => ∃ i os, os ≠ [] ∧ sig = ⟨[i], os⟩ ∧ i.size = Shape.total os
  | stack => ∃ is o, is ≠ [] ∧ sig = ⟨is, [o]⟩ ∧ (∀ s ∈ is, s.cols = o.cols)
      ∧ (is.map Shape.rows).sum = o.rows ∧ Shape.total is = o.size
  | stride start step => ∃ i o, sig = ⟨[i], [o]⟩ ∧ step.toNat ≠ 0
      ∧ ∀ j < o.size, start.toNat + j * step.toNat < i.size
  | transpose => ∃ i o, sig = ⟨[i], [o]⟩ ∧ o.rows = i.cols ∧ o.cols = i.rows
  | diagonal => ∃ i o, sig = ⟨[i], [o]⟩ ∧ o.size = i.size * i.size
  | diagonalPart => ∃ i o, sig = ⟨[i], [o]⟩ ∧ i.size = o.size * o.size
  | convolve taps => ∃ i o, sig = ⟨[i], [o]⟩ ∧ taps.size ≠ 0 ∧ o.size + 1 = i.size + taps.size

/-- An operator that accepts a signature has a port on each side. -/
theorem Accepts.ports {op : Operator α} {sig : Signature} (h : op.Accepts sig) :
    sig.inputs ≠ [] ∧ sig.outputs ≠ [] := by
  cases op
  case dense | sparse =>
    obtain ⟨i, o, k, rfl, -⟩ := h
    simp
  case sum | concat | stack | copy | split =>
    obtain ⟨_, _, hne, rfl, -⟩ := h
    simpa using hne
  all_goals
    obtain ⟨i, o, rfl, -⟩ := h
    simp

theorem foldlM_add_rows {is : List Shape} : ∀ {a b : ℕ},
    is.foldlM (fun n s => Size.add? n s.rows) a = some b → b = a + (is.map Shape.rows).sum := by
  induction is with
  | nil =>
    intro a b h
    simpa [eq_comm] using h
  | cons s is ih =>
    intro a b h
    rw [List.foldlM_cons] at h
    obtain ⟨c, hc, h⟩ := Option.bind_eq_some_iff.1 h
    obtain ⟨-, rfl⟩ := Size.add?_eq_some_iff.1 hc
    rw [ih h, List.map_cons, List.sum_cons, Nat.add_assoc]

theorem accepts_of_check_stride {start step : UInt64} {sig : Signature}
    (h : (stride start step : Operator α).check sig = .ok ()) :
    (stride start step : Operator α).Accepts sig := by
  simp only [check, bind_eq_ok_iff, ShapeCheck.guard_eq_ok_iff] at h
  obtain ⟨_, hp, hstep, h⟩ := h
  obtain ⟨i, o, rfl⟩ := ShapeCheck.single_single hp
  have hpos : step.toNat ≠ 0 := fun h0 => hstep (UInt64.toNat_inj.1 (by simpa using h0))
  refine ⟨i, o, rfl, hpos, fun j hj => ?_⟩
  rw [Signature.outputLength, Shape.total_single, if_neg (by omega)] at h
  simp only [bind_eq_ok_iff, ShapeCheck.pred_eq_ok_iff, ShapeCheck.sized_eq_ok_iff,
    Signature.inputLength, Shape.total_single] at h
  obtain ⟨n, hn, last, hlast, h⟩ := h
  obtain ⟨m, hm, hlast⟩ := Option.bind_eq_some_iff.1 hlast
  obtain ⟨-, rfl⟩ := Size.mul?_eq_some_iff.1 hm
  obtain ⟨-, rfl⟩ := Size.add?_eq_some_iff.1 hlast
  have hlt : ¬ i.size ≤ n * step.toNat + start.toNat := by
    intro hle
    rw [if_pos hle] at h
    exact ShapeCheck.refuse_ne_ok h
  have := Nat.mul_le_mul_right step.toNat (show j ≤ n by omega)
  omega

/-- An operator whose check passes accepts its signature. -/
theorem accepts_of_check {op : Operator α} {sig : Signature} (h : op.check sig = .ok ()) :
    op.Accepts sig := by
  cases op
  case stride start step => exact accepts_of_check_stride h
  all_goals
    simp only [check, bind_eq_ok_iff, ShapeCheck.guard_eq_ok_iff, ShapeCheck.sized_eq_ok_iff,
      ShapeCheck.port_eq_ok_iff, ShapeCheck.pred_eq_ok_iff, ShapeCheck.agree_eq_ok_iff] at h
  case identity | negate | scale =>
    obtain ⟨_, hp, h⟩ := h
    obtain ⟨i, o, rfl⟩ := ShapeCheck.single_single hp
    exact ⟨i, o, rfl, by simpa [Signature.inputLength, Signature.outputLength,
      Shape.total_single] using h⟩
  case dense A =>
    obtain ⟨_, hp, n, hn, _, hA, h⟩ := h
    obtain ⟨i, o, rfl⟩ := ShapeCheck.single_single hp
    obtain ⟨hlt, rfl⟩ := Size.mul?_eq_some_iff.1 hn
    obtain ⟨k, hk⟩ := checkProduct_eq_ok_iff.1 h
    exact ⟨i, o, k, rfl, hA, hA ▸ hlt, hk⟩
  case sparse A =>
    obtain ⟨_, hp, _, hA, h⟩ := h
    obtain ⟨i, o, rfl⟩ := ShapeCheck.single_single hp
    obtain ⟨k, hk⟩ := checkProduct_eq_ok_iff.1 h
    exact ⟨i, o, k, rfl, SparseMatrix.wellFormed_of_check hA, hk⟩
  case sum =>
    obtain ⟨_, hp, o', ho', h⟩ := h
    obtain ⟨hi, o, ho⟩ := ShapeCheck.some_single hp
    obtain rfl : o = o' := by simpa [ho] using ho'
    refine ⟨sig.inputs, o, hi, by rw [← ho], fun s hs => ?_⟩
    exact ShapeCheck.agree_eq_ok_iff.1 (forM_eq_ok_iff.1 h s hs)
  case copy =>
    obtain ⟨_, hp, i', hi', h⟩ := h
    obtain ⟨⟨i, hi⟩, ho⟩ := ShapeCheck.single_some hp
    obtain rfl : i = i' := by simpa [hi] using hi'
    refine ⟨i, sig.outputs, ho, by rw [← hi], fun s hs => ?_⟩
    exact ShapeCheck.agree_eq_ok_iff.1 (forM_eq_ok_iff.1 h s hs)
  case concat =>
    obtain ⟨_, hp, h⟩ := h
    obtain ⟨hi, o, ho⟩ := ShapeCheck.some_single hp
    refine ⟨sig.inputs, o, hi, by rw [← ho], ?_⟩
    rw [← Shape.total_single, ← ho]
    exact h
  case split =>
    obtain ⟨_, hp, h⟩ := h
    obtain ⟨⟨i, hi⟩, ho⟩ := ShapeCheck.single_some hp
    refine ⟨i, sig.outputs, ho, by rw [← hi], ?_⟩
    rw [← Shape.total_single, ← hi]
    exact h
  case stack =>
    obtain ⟨_, hp, o', ho', _, hc, n, hn, _, hr, hl⟩ := h
    obtain ⟨hi, o, ho⟩ := ShapeCheck.some_single hp
    obtain rfl : o = o' := by simpa [ho] using ho'
    refine ⟨sig.inputs, o, hi, by rw [← ho], fun s hs => ?_, ?_, hl⟩
    · exact ShapeCheck.agree_eq_ok_iff.1 (forM_eq_ok_iff.1 hc s hs)
    · rw [← hr, foldlM_add_rows hn, Nat.zero_add]
  case transpose =>
    obtain ⟨_, hp, i', hi', o', ho', _, hr, hc⟩ := h
    obtain ⟨i, o, rfl⟩ := ShapeCheck.single_single hp
    obtain rfl : i = i' := by simpa using hi'
    obtain rfl : o = o' := by simpa using ho'
    exact ⟨i, o, rfl, hr, hc⟩
  case diagonal | diagonalPart =>
    obtain ⟨_, hp, n, hn, h⟩ := h
    obtain ⟨i, o, rfl⟩ := ShapeCheck.single_single hp
    obtain ⟨-, rfl⟩ := Size.mul?_eq_some_iff.1 hn
    exact ⟨i, o, rfl, by simpa [Signature.inputLength, Signature.outputLength,
      Shape.total_single] using h⟩
  case convolve taps =>
    obtain ⟨_, hp, ht, n, hn, full, hf, h⟩ := h
    obtain ⟨i, o, rfl⟩ := ShapeCheck.single_single hp
    obtain ⟨-, rfl⟩ := Size.add?_eq_some_iff.1 hf
    rw [Signature.inputLength, Signature.outputLength, Shape.total_single, Shape.total_single] at h
    exact ⟨i, o, rfl, by omega, by omega⟩

end Operator

end MatrixFree
