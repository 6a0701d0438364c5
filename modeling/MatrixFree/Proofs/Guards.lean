import MatrixFree.Proofs.Overwriting
import MatrixFree.Proofs.Refusals

/-!
# The port check is a sufficient guard

Sizes of ports are multiplied and added up in machine words, which wrap. `Size.strictProduct` and
`Size.strictSum` trap where a result on the way is no machine word, and on shapes that fit they give
the sizes that wrap (`Shape.strictProduct_cols`, `Shape.Fits.strictSum_size`). So the check of an
operator reads exact sizes and never traps, and what it lets through is applied in both directions
without a trap (`Operator.check_guards`).
-/

namespace MatrixFree

namespace Size

/-- The product from left to right, where every product on the way has to be a machine word. -/
def strictProduct (ns : List ℕ) : Checked ℕ := ns.foldlM (fun n m => Table.position (n * m)) 1

/-- The sum from left to right, where every sum on the way has to be a machine word. -/
def strictSum (ns : List ℕ) : Checked ℕ := ns.foldlM (fun n m => Table.position (n + m)) 0

theorem foldlM_position_mul : ∀ {ns : List ℕ} {a c : ℕ}, a < UInt64.size →
    ns.foldlM (fun n m => Table.position (n * m)) a = .ok c → c = a * ns.prod ∧ c < UInt64.size
  | [], a, c, ha, h => by
    obtain rfl : a = c := by simpa [pure, Except.pure] using h
    exact ⟨by simp, ha⟩
  | n :: ns, a, c, _, h => by
    rw [List.foldlM_cons] at h
    obtain ⟨b, hb, h⟩ := bind_eq_ok_iff.1 h
    obtain ⟨hlt, rfl⟩ := Table.position_eq_ok_iff.1 hb
    obtain ⟨hc, hclt⟩ := foldlM_position_mul hlt h
    exact ⟨by rw [hc, List.prod_cons, mul_assoc], hclt⟩

theorem foldlM_position_add : ∀ {ns : List ℕ} {a : ℕ}, a + ns.sum < UInt64.size →
    ns.foldlM (fun n m => Table.position (n + m)) a = .ok (a + ns.sum)
  | [], a, _ => rfl
  | n :: ns, a, h => by
    rw [List.sum_cons, ← Nat.add_assoc] at h ⊢
    rw [List.foldlM_cons, Table.position_eq_ok_iff.2 ⟨by omega, rfl⟩, ok_bind]
    exact foldlM_position_add h

theorem strictSum_eq_ok {ns : List ℕ} (h : ns.sum < UInt64.size) : strictSum ns = .ok ns.sum := by
  have hsum := foldlM_position_add ((Nat.zero_add ns.sum).symm ▸ h)
  rwa [Nat.zero_add] at hsum

/-- A product of checked sizes traps nowhere. -/
theorem foldlM_position_of_mul? : ∀ {ds : List UInt64} {a c : ℕ},
    ds.foldlM (fun n d => mul? n d.toNat) a = some c →
      (ds.map UInt64.toNat).foldlM (fun n m => Table.position (n * m)) a = .ok c
  | [], a, c, h => by
    obtain rfl : a = c := by simpa using h
    rfl
  | d :: ds, a, c, h => by
    rw [List.foldlM_cons] at h
    obtain ⟨b, hb, h⟩ := Option.bind_eq_some_iff.1 h
    obtain ⟨hlt, rfl⟩ := mul?_eq_some_iff.1 hb
    rw [List.map_cons, List.foldlM_cons, Table.position_eq_ok_iff.2 ⟨hlt, rfl⟩, ok_bind]
    exact foldlM_position_of_mul? h

end Size

namespace Shape

variable {s : Shape} {n : ℕ}

theorem rows_lt (s : Shape) : s.rows < UInt64.size := by
  unfold rows
  split
  · decide
  · exact UInt64.toNat_lt _

theorem strictProduct_size (h : Size.strictProduct (s.dims.map UInt64.toNat) = .ok n) :
    Size.strictProduct (s.dims.map UInt64.toNat) = .ok s.size := by
  obtain ⟨hn, hlt⟩ := Size.foldlM_position_mul (by decide) h
  rw [h, size, toNat_foldl_mul, UInt64.toNat_one, ← hn, Nat.mod_eq_of_lt hlt]

theorem strictProduct_cols (h : s.checkedSize = some n) :
    Size.strictProduct ((s.dims.drop 1).map UInt64.toNat) = .ok s.cols := by
  obtain ⟨c, hc, -⟩ := Option.bind_eq_some_iff.1 h
  have hstrict := Size.foldlM_position_of_mul? hc
  obtain ⟨hprod, hlt⟩ := Size.foldlM_position_mul (by decide) hstrict
  rw [cols, toNat_foldl_mul, UInt64.toNat_one, ← hprod, Nat.mod_eq_of_lt hlt]
  exact hstrict

theorem Fits.strictSum_size {shapes : List Shape} (h : Fits shapes) :
    Size.strictSum (shapes.map size) = .ok (total shapes) := by
  rw [Size.strictSum_eq_ok h.sum_lt, h.total_eq_sum]

end Shape

namespace Operator

variable {α : Type}

theorem Accepts.sum_rows_lt {sig : Signature} (h : (stack : Operator α).Accepts sig) :
    (sig.inputs.map Shape.rows).sum < UInt64.size := by
  obtain ⟨is, o, -, rfl, -, hrows, -⟩ := h
  exact hrows ▸ o.rows_lt

/-- On shapes that fit, where no product of dimensions wraps on the way to a size, the check of an
operator does not trap, whatever its matrices, taps, start and step are, and every size that it
reads is exact, with all products and sums on the way. If it passes, then both directions come to a
result on all buffers of the right lengths: no place is outside of its buffer or wraps, no two
slices that are combined differ in length and no chunk is empty. The rows above the blocks of a
stack add up without wrapping, too. -/
theorem check_guards [Scalar α] (op : Operator α) {sig : Signature} (hi : Shape.Fits sig.inputs)
    (ho : Shape.Fits sig.outputs) (hdims : ∀ s ∈ sig.inputs ++ sig.outputs,
      ∃ n, Size.strictProduct (s.dims.map UInt64.toNat) = .ok n) :
    (∀ t, op.check sig ≠ .error (.trap t))
      ∧ (∀ s ∈ sig.inputs ++ sig.outputs,
          Size.strictProduct (s.dims.map UInt64.toNat) = .ok s.size
            ∧ Size.strictProduct ((s.dims.drop 1).map UInt64.toNat) = .ok s.cols)
      ∧ Size.strictSum (sig.inputs.map Shape.size) = .ok sig.inputLength
      ∧ Size.strictSum (sig.outputs.map Shape.size) = .ok sig.outputLength
      ∧ (op.check sig = .ok () →
          (∀ x s : Array α, x.size = sig.inputLength → s.size = sig.outputLength →
              ∃ y, op.forward sig x s = .ok y ∧ y.size = sig.outputLength)
            ∧ (∀ y s : Array α, y.size = sig.outputLength → s.size = sig.inputLength →
              ∃ x, op.adjoint sig y s = .ok x ∧ x.size = sig.inputLength)
            ∧ (op = stack → ∃ n, Size.strictSum (sig.inputs.map Shape.rows) = .ok n)) := by
  refine ⟨fun t ht => ?_, fun s hs => ?_, hi.strictSum_size, ho.strictSum_size, fun hcheck => ?_⟩
  · obtain ⟨e, he, -⟩ := op.refuses_check sig _ ht
    cases he
  · obtain ⟨n, hn⟩ := hdims s hs
    have hfits := (List.mem_append.1 hs).elim (hi.checked s) (ho.checked s)
    exact ⟨Shape.strictProduct_size hn, Shape.strictProduct_cols hfits⟩
  · have hop := accepts_of_check hcheck
    refine ⟨fun x s hx hs => ?_, fun y s hy hs => ?_, ?_⟩
    · obtain ⟨y, hy, hf⟩ := overwrites_forward hop hi ho hx
      exact ⟨y, hf s hs, hy⟩
    · obtain ⟨x, hx, hb⟩ := overwrites_adjoint hop hi ho hy
      exact ⟨x, hb s hs, hx⟩
    · rintro rfl
      exact ⟨_, Size.strictSum_eq_ok hop.sum_rows_lt⟩

/-- Three blocks, of which the one in the middle has no rows. -/
def hollow : Signature := ⟨[.matrix 2 2, .matrix 0 2, .matrix 1 2], [.matrix 3 2]⟩

theorem check_guards_hollow :
    (∃ y : Array Float, stack.forward hollow #[1.0, 2.0, 3.0, 4.0, 5.0, 6.0]
        (Array.replicate 6 (0.0 / 0.0)) = .ok y ∧ y.size = 6)
      ∧ (∃ x : Array Float, stack.adjoint hollow #[1.0, 2.0, 3.0, 4.0, 5.0, 6.0]
        (Array.replicate 6 (0.0 / 0.0)) = .ok x ∧ x.size = 6)
      ∧ ∃ n, Size.strictSum (hollow.inputs.map Shape.rows) = .ok n := by
  have hcheck : (stack : Operator Float).check hollow = .ok () := by decide +kernel
  have hi : Shape.Fits hollow.inputs := ⟨by decide, by decide⟩
  have hdims : ∀ s ∈ hollow.inputs ++ hollow.outputs,
      Size.strictProduct (s.dims.map UInt64.toNat) = .ok s.size := by decide
  obtain ⟨-, -, -, -, h⟩ := check_guards (stack : Operator Float) hi ⟨by decide, by decide⟩
    fun s hs => ⟨_, hdims s hs⟩
  obtain ⟨hf, hb, hrows⟩ := h hcheck
  exact ⟨hf _ _ rfl rfl, hb _ _ rfl rfl, hrows rfl⟩

end Operator

end MatrixFree
