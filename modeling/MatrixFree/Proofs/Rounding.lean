import Mathlib.Algebra.Field.Rat
import Mathlib.Algebra.Order.Ring.Nat
import Mathlib.Algebra.Order.Field.Power
import Mathlib.Tactic.FieldSimp
import Mathlib.Tactic.Linarith
import Mathlib.Tactic.Positivity
import Mathlib.Tactic.Ring

/-!
# Rounding

An operation gives the multiple of a step that is nearest to the exact result, of two equally near
ones the even one (`Rounding.exists_rounded`). The step is the one that belongs to the size of the
result. Products, quotients, whole numbers and powers of ten are rounded so (`Rounding.Rounds`).
-/

namespace MatrixFree.Rounding

open Float.Model (Format totalExponent UnpackedFloat)
open Float.Model.UnpackedFloat

/-! ### Nearest whole numbers -/

/-- `r` is the whole number nearest to `q`, and even if there are two. -/
structure Nearest (r : ℕ) (q : ℚ) : Prop where
  ge : (r : ℚ) - 1 / 2 ≤ q
  le : q ≤ r + 1 / 2
  even : q = r - 1 / 2 ∨ q = r + 1 / 2 → r % 2 = 0

theorem Nearest.eq {r r' : ℕ} {q : ℚ} (h : Nearest r q) (h' : Nearest r' q) : r = r' := by
  have key : ∀ {r r' : ℕ}, Nearest r q → Nearest r' q → r ≤ r' := by
    intro r r' h h'
    by_contra hlt
    have hle : ((r' + 1 : ℕ) : ℚ) ≤ r := by exact_mod_cast Nat.lt_of_not_le hlt
    push_cast at hle
    have hq : q = r - 1 / 2 := by linarith [h.ge, h'.le]
    have hq' : q = r' + 1 / 2 := by linarith [h.ge, h'.le]
    have hsucc : r = r' + 1 := by
      have : (r : ℚ) = (r' + 1 : ℕ) := by push_cast; linarith
      exact_mod_cast this
    have := h.even (.inl hq)
    have := h'.even (.inr hq')
    omega
  exact le_antisymm (key h h') (key h' h)

theorem nearest_self (r : ℕ) : Nearest r r where
  ge := by linarith
  le := by linarith
  even h := by rcases h with h | h <;> linarith

/-- A mantissa with its residual bits stands for `q`. -/
structure Marks (em : ExtendedMantissa) (q : ℚ) : Prop where
  le : (em.mantissa : ℚ) ≤ q
  lt : q < em.mantissa + 1
  round : em.roundBit = true ↔ (em.mantissa : ℚ) + 1 / 2 ≤ q
  sticky : em.stickyBit = false ↔ q = em.mantissa ∨ q = em.mantissa + 1 / 2

theorem marks_add {q : ℕ} {round sticky : Bool} {f : ℚ} (h0 : 0 ≤ f) (h1 : f < 1)
    (hround : round = true ↔ 1 / 2 ≤ f) (hsticky : sticky = false ↔ f = 0 ∨ f = 1 / 2) :
    Marks ⟨q, round, sticky⟩ (q + f) where
  le := le_add_of_nonneg_right h0
  lt := add_lt_add_right h1 _
  round := hround.trans (add_le_add_iff_left _).symm
  sticky := hsticky.trans (or_congr add_eq_left.symm (add_right_inj _).symm)

section Marks

variable {em : ExtendedMantissa} {q : ℚ}

/-- A bit that is shifted out goes into the residual bits. -/
theorem Marks.shiftRightOne (h : Marks em q) : Marks em.shiftRightOne (q / 2) := by
  obtain ⟨f, hf⟩ : ∃ f, q = em.mantissa + f := ⟨q - em.mantissa, (add_sub_cancel _ _).symm⟩
  obtain ⟨hle, hlt, hround, hsticky⟩ := h
  have hexact : (em.roundBit || em.stickyBit) = false ↔ f = 0 := by
    rw [Bool.or_eq_false_iff, hsticky, ← Bool.not_eq_true, hround, not_le]
    constructor
    · rintro ⟨hq, h | h⟩
      · linarith
      · linarith
    · intro h
      exact ⟨by linarith, .inl (by linarith)⟩
  have hmod : (em.mantissa : ℚ) = 2 * (em.mantissa / 2 : ℕ) + (em.mantissa % 2 : ℕ) := by
    exact_mod_cast (Nat.div_add_mod em.mantissa 2).symm
  have hhalf : q / 2 = (em.mantissa / 2 : ℕ) + ((em.mantissa % 2 : ℕ) + f) / 2 := by linarith
  rw [hhalf]
  unfold ExtendedMantissa.shiftRightOne
  rcases Nat.mod_two_eq_zero_or_one em.mantissa with h0 | h1
  · rw [h0, Nat.cast_zero, zero_add]
    refine marks_add (by linarith) (by linarith) ⟨fun h => absurd h (by decide), fun h => ?_⟩
      (hexact.trans ⟨fun h => .inl (by linarith), ?_⟩)
    · linarith
    · rintro (h | h) <;> linarith
  · rw [h1, Nat.cast_one]
    refine marks_add (by linarith) (by linarith) ⟨fun _ => by linarith, fun _ => by decide⟩
      (hexact.trans ⟨fun h => .inr (by linarith), ?_⟩)
    rintro (h | h) <;> linarith

theorem Marks.shiftRight (h : Marks em q) (k : ℕ) : Marks (em >>> k) (q / 2 ^ k) := by
  induction k with
  | zero =>
    rw [pow_zero, div_one]
    exact h
  | succ k ih =>
    have hsucc : q / 2 ^ (k + 1) = q / 2 ^ k / 2 := by rw [pow_succ, div_div]
    rw [hsucc]
    exact ih.shiftRightOne

theorem mantissa_shiftRight (em : ExtendedMantissa) (k : ℕ) :
    (em >>> k).mantissa = em.mantissa / 2 ^ k := by
  induction k with
  | zero => exact (Nat.div_one _).symm
  | succ k ih =>
    have hsucc : (em >>> (k + 1)).mantissa = (em >>> k).mantissa / 2 := rfl
    rw [hsucc, ih, Nat.div_div_eq_div_mul, pow_succ]

theorem Marks.nearest (h : Marks em q) : Nearest em.roundedMantissa q := by
  rcases em with ⟨m, round, sticky⟩
  obtain ⟨hle, hlt, hround, hsticky⟩ := h
  dsimp only at hle hlt hround hsticky
  rcases round with _ | _ <;> rcases sticky with _ | _
  · have hq : q = m := by
      rcases hsticky.1 rfl with h | h
      · exact h
      · exact absurd (hround.2 h.ge) Bool.false_ne_true
    rw [hq]
    exact nearest_self m
  · have hhalf : q < m + 1 / 2 := not_le.1 fun h => absurd (hround.2 h) Bool.false_ne_true
    refine ⟨?_, ?_, ?_⟩
    · dsimp only [ExtendedMantissa.roundedMantissa, ExtendedMantissa.accuracy,
        Accuracy.roundToNearestEven]
      linarith
    · exact hhalf.le
    · dsimp only [ExtendedMantissa.roundedMantissa, ExtendedMantissa.accuracy,
        Accuracy.roundToNearestEven]
      rintro (h | h) <;> linarith
  · have hhalf : q = m + 1 / 2 := by
      rcases hsticky.1 rfl with h | h
      · linarith [hround.1 rfl]
      · exact h
    have hrounded : ExtendedMantissa.roundedMantissa ⟨m, true, false⟩ = m + m % 2 := rfl
    rw [hrounded, hhalf]
    rcases Nat.mod_two_eq_zero_or_one m with h0 | h1
    · rw [h0]
      refine ⟨?_, ?_, fun _ => by omega⟩ <;> push_cast <;> linarith
    · rw [h1]
      refine ⟨?_, ?_, fun _ => by omega⟩ <;> push_cast <;> linarith
  · have hhalf : (m : ℚ) + 1 / 2 < q := by
      refine lt_of_le_of_ne (hround.1 rfl) fun h => ?_
      exact absurd (hsticky.2 (.inr h.symm)) Bool.true_eq_false.mp
    have hrounded : ExtendedMantissa.roundedMantissa ⟨m, true, true⟩ = m + 1 := rfl
    rw [hrounded]
    refine ⟨?_, ?_, ?_⟩
    · push_cast
      linarith
    · push_cast
      linarith
    · push_cast
      rintro (h | h) <;> linarith

end Marks

/-! ### Rounding to a step -/

/-- The exponent of the step for a mantissa of so many digits. -/
theorem targetExponent_eq (n : ℤ) : Format.binary64.targetExponent n = max (n - 53) (-1074) := rfl

/-- A rounded mantissa with its step; one that fills a further digit is halved. -/
def rounded (s : Sign) (r : ℕ) (t : ℤ) : UnpackedFloat :=
  if h : r = 0 then .zero s
  else if r < 2 ^ 53 then .finite s r t (Nat.pos_of_ne_zero h)
  else .finite s (2 ^ 52) (t + 1) (Nat.pow_pos two_pos)

theorem shiftToTargetExponent_of_lt {m : ℕ} {e : ℤ} (hm : m < 2 ^ 53) (he : -1074 ≤ e) :
    shiftToTargetExponent Format.binary64 m e .exact = (⟨m, false, false⟩, e) := by
  have hlog : m.log2 ≤ 52 := by
    rcases Nat.eq_zero_or_pos m with rfl | h0
    · decide
    · have := (Nat.log2_lt h0.ne').2 hm
      omega
  have hshift : (Format.binary64.targetExponent (totalExponent m e) - e).toNat = 0 := by
    rw [targetExponent_eq, totalExponent]
    omega
  unfold shiftToTargetExponent shiftToExponent
  dsimp only
  rw [hshift, Nat.cast_zero, add_zero]
  rfl

theorem shiftToTargetExponent_carry {e : ℤ} (he : -1074 ≤ e) :
    shiftToTargetExponent Format.binary64 (2 ^ 53) e .exact
      = (⟨2 ^ 52, false, false⟩, e + 1) := by
  have hshift : (Format.binary64.targetExponent (totalExponent (2 ^ 53) e) - e).toNat = 1 := by
    rw [targetExponent_eq, totalExponent, Nat.log2_two_pow]
    omega
  unfold shiftToTargetExponent shiftToExponent
  dsimp only
  rw [hshift]
  rfl

/-- The step `2 ^ t` belongs to the size of `v`. -/
structure Step (v : ℚ) (t : ℤ) : Prop where
  min : -1074 ≤ t
  lt : v < 2 ^ (t + 53)
  normal : -1074 < t → 2 ^ (t + 52) ≤ v

theorem Step.eq {v : ℚ} {t t' : ℤ} (h : Step v t) (h' : Step v t') : t = t' := by
  have key : ∀ {t t' : ℤ}, Step v t → Step v t' → t ≤ t' := by
    intro t t' h h'
    by_contra hlt
    have hnormal := h.normal (by linarith [h'.min, not_le.1 hlt])
    have hle : (2 : ℚ) ^ (t' + 53) ≤ 2 ^ (t + 52) :=
      zpow_le_zpow_right₀ one_le_two (by omega)
    linarith [h'.lt]
  exact le_antisymm (key h h') (key h' h)

/-- An exact result, given by a mantissa and what lies beyond it, is shifted to its step. -/
theorem exists_shifted {m : ℕ} {e : ℤ} {a : Accuracy} {q : ℚ}
    (hq : Marks (.ofMantissaAndAccuracy m a) q)
    (hm : (ExtendedMantissa.ofMantissaAndAccuracy m a).mantissa = m)
    (he : 52 ≤ m.log2 ∨ e ≤ -1074) :
    ∃ em t, shiftToTargetExponent Format.binary64 m e a = (em, t)
      ∧ Marks em (q * 2 ^ e / 2 ^ t) ∧ Step (q * 2 ^ e) t ∧ em.mantissa < 2 ^ 53 := by
  obtain ⟨t, ht⟩ : ∃ t, t = max ((m.log2 : ℤ) + e - 52) (-1074) := ⟨_, rfl⟩
  have htarget : Format.binary64.targetExponent (totalExponent m e) = t := by
    rw [targetExponent_eq, totalExponent, ht]
    congr 1
    omega
  obtain ⟨k, hk⟩ : ∃ k : ℕ, t - e = k := ⟨(t - e).toNat, by omega⟩
  obtain ⟨em, hem⟩ : ∃ em, em = ExtendedMantissa.ofMantissaAndAccuracy m a >>> k := ⟨_, rfl⟩
  have hshift : shiftToTargetExponent Format.binary64 m e a = (em, t) := by
    unfold shiftToTargetExponent shiftToExponent
    dsimp only
    rw [htarget, hk, Int.toNat_natCast, ← hk, add_sub_cancel, hem]
  have hscale : q * 2 ^ e = q / 2 ^ k * 2 ^ t := by
    rw [show t = e + k by omega, zpow_add₀ two_ne_zero, zpow_natCast]
    field_simp
  have hmarks : Marks em (q / 2 ^ k) := hem ▸ hq.shiftRight k
  have hmantissa : em.mantissa = m / 2 ^ k := by rw [hem, mantissa_shiftRight, hm]
  have hupper : em.mantissa < 2 ^ 53 := by
    rw [hmantissa, Nat.div_lt_iff_lt_mul (Nat.pow_pos two_pos), ← pow_add]
    exact Nat.lt_log2_self.trans_le (Nat.pow_le_pow_right two_pos (by omega))
  have hlower : -1074 < t → 2 ^ 52 ≤ em.mantissa := by
    intro hlt
    have h0 : m ≠ 0 := by
      rintro rfl
      rw [Nat.log2_zero] at he ht
      omega
    rw [hmantissa, Nat.le_div_iff_mul_le (Nat.pow_pos two_pos), ← pow_add,
      show 52 + k = m.log2 by omega]
    exact Nat.log2_self_le h0
  refine ⟨em, t, hshift, ?_, ⟨ht ▸ le_max_right _ _, ?_, fun hlt => ?_⟩, hupper⟩
  · rw [hscale, mul_div_cancel_right₀ _ (by positivity)]
    exact hmarks
  · have hle : (em.mantissa + 1 : ℚ) ≤ 2 ^ 53 := by exact_mod_cast hupper
    rw [hscale, add_comm t, zpow_add₀ two_ne_zero]
    exact mul_lt_mul_of_pos_right (hmarks.lt.trans_le hle) (by positivity)
  · have hle : (2 ^ 52 : ℚ) ≤ em.mantissa := by exact_mod_cast hlower hlt
    rw [hscale, add_comm t, zpow_add₀ two_ne_zero]
    exact mul_le_mul_of_nonneg_right (hle.trans hmarks.le) (by positivity)

/-- An exact result, given by a mantissa and what lies beyond it, is rounded to its step. -/
theorem exists_rounded {s : Sign} {m : ℕ} {e : ℤ} {a : Accuracy} {q : ℚ}
    (hq : Marks (.ofMantissaAndAccuracy m a) q)
    (hm : (ExtendedMantissa.ofMantissaAndAccuracy m a).mantissa = m)
    (he : 52 ≤ m.log2 ∨ e ≤ -1074) :
    ∃ r t, Step (q * 2 ^ e) t ∧ Nearest r (q * 2 ^ e / 2 ^ t)
      ∧ roundWithAccuracy Format.binary64 s m e a = rounded s r t := by
  obtain ⟨em, t, hshift, hmarks, hstep, hupper⟩ := exists_shifted hq hm he
  have hnearest := hmarks.nearest
  refine ⟨em.roundedMantissa, t, hstep, hnearest, ?_⟩
  have hle : em.roundedMantissa ≤ 2 ^ 53 := by
    have h : (em.roundedMantissa : ℚ) < (em.mantissa + 2 : ℕ) := by
      push_cast
      linarith [hnearest.ge, hmarks.lt]
    have := (Nat.cast_lt (α := ℚ)).1 h
    omega
  unfold roundWithAccuracy rounded
  rw [hshift]
  dsimp only
  rcases lt_or_ge em.roundedMantissa (2 ^ 53) with hlt | hcarry
  · rw [shiftToTargetExponent_of_lt hlt hstep.min]
    dsimp only
    rcases Nat.eq_zero_or_pos em.roundedMantissa with h0 | h0
    · rw [dif_pos h0, dif_pos h0]
    · rw [dif_neg h0.ne', dif_neg h0.ne', if_pos hlt]
  · have heq : em.roundedMantissa = 2 ^ 53 := by omega
    rw [heq, shiftToTargetExponent_carry hstep.min]
    rfl

/-! ### Operations -/

/-- `u` is what the exact result `v` is rounded to. -/
def Rounds (u : UnpackedFloat) (v : ℚ) : Prop :=
  ∃ r t, Step v t ∧ Nearest r (v / 2 ^ t) ∧ u = rounded .positive r t

/-- There is only one number that a result is rounded to. -/
theorem Rounds.eq {u : UnpackedFloat} {v : ℚ} {r : ℕ} {t : ℤ} (hu : Rounds u v) (hstep : Step v t)
    (hnearest : Nearest r (v / 2 ^ t)) : u = rounded .positive r t := by
  obtain ⟨r', t', hstep', hnearest', rfl⟩ := hu
  obtain rfl := hstep.eq hstep'
  rw [hnearest.eq hnearest']

theorem rounded_of_lt {s : Sign} {r : ℕ} {t : ℤ} (h0 : 0 < r) (hr : r < 2 ^ 53) :
    rounded s r t = .finite s r t h0 := by
  unfold rounded
  rw [dif_neg h0.ne', if_pos hr]

theorem rounded_carry {s : Sign} {t : ℤ} :
    rounded s (2 ^ 53) t = .finite s (2 ^ 52) (t + 1) (Nat.pow_pos two_pos) := by
  unfold rounded
  rw [dif_neg (by decide), if_neg (lt_irrefl _)]

theorem marks_exact (m : ℕ) : Marks (.ofMantissaAndAccuracy m .exact) m where
  le := le_refl _
  lt := lt_add_one _
  round := ⟨fun h => absurd h Bool.false_ne_true,
    fun h => absurd h (not_le.2 (by dsimp only [ExtendedMantissa.ofMantissaAndAccuracy]; linarith))⟩
  sticky := ⟨fun _ => .inl rfl, fun _ => rfl⟩

theorem rounds_exact {m : ℕ} {e : ℤ} (he : 52 ≤ m.log2 ∨ e ≤ -1074) :
    Rounds (roundWithAccuracy Format.binary64 .positive m e .exact) (m * 2 ^ e) := by
  exact exists_rounded (marks_exact m) rfl he

theorem rounds_mul {m₁ m₂ : ℕ} {e₁ e₂ : ℤ} (h₁ : 0 < m₁) (h₂ : 0 < m₂) (h : 2 ^ 52 ≤ m₁) :
    Rounds (mul Format.binary64 (.finite .positive m₁ e₁ h₁) (.finite .positive m₂ e₂ h₂))
      (m₁ * 2 ^ e₁ * (m₂ * 2 ^ e₂)) := by
  have hlog : 52 ≤ (m₁ * m₂).log2 :=
    (Nat.le_log2 (Nat.mul_pos h₁ h₂).ne').2 (h.trans (Nat.le_mul_of_pos_right m₁ h₂))
  have hvalue : (m₁ * 2 ^ e₁ * (m₂ * 2 ^ e₂) : ℚ) = ((m₁ * m₂ : ℕ) : ℚ) * 2 ^ (e₁ + e₂) := by
    rw [zpow_add₀ two_ne_zero]
    push_cast
    ring
  rw [hvalue]
  exact rounds_exact (.inl hlog)

theorem rounds_ofNat {n : ℕ} (hn : 0 < n) : Rounds (ofNat Format.binary64 n) n := by
  have hcompare : compare (n : ℤ) 0 = .gt := Int.compare_eq_gt.2 (by omega)
  obtain ⟨k, hk⟩ : ∃ k, k = (0 - max ((n.log2 : ℤ) + 1 + 0 - 53) (-1074)).toNat := ⟨_, rfl⟩
  have hround : ofNat Format.binary64 n
      = roundWithAccuracy Format.binary64 .positive (n <<< k) (0 - k) .exact := by
    unfold ofNat ofInt UnpackedFloat.normalize
    rw [hcompare]
    dsimp only
    unfold UnpackedFloat.round decreaseExponent
    dsimp only
    rw [Int.toNat_natCast, targetExponent_eq, totalExponent, ← hk]
  have hlog : 52 ≤ (n <<< k).log2 := by
    have hself := Nat.log2_self_le hn.ne'
    rw [Nat.shiftLeft_eq, Nat.le_log2 (Nat.mul_pos hn (Nat.pow_pos two_pos)).ne']
    calc 2 ^ 52 ≤ 2 ^ (n.log2 + k) := Nat.pow_le_pow_right two_pos (by omega)
      _ = 2 ^ n.log2 * 2 ^ k := pow_add 2 _ _
      _ ≤ n * 2 ^ k := Nat.mul_le_mul_right _ hself
  have hvalue : (n : ℚ) = ((n <<< k : ℕ) : ℚ) * 2 ^ (0 - k : ℤ) := by
    rw [Nat.shiftLeft_eq, zero_sub, zpow_neg, zpow_natCast]
    push_cast
    field_simp
  rw [hround, hvalue]
  exact rounds_exact (.inl hlog)

theorem rounds_ofScientific {e : ℕ} (he : e ≤ 2048) :
    Rounds (ofScientific Format.binary64 1 e) (10 ^ e) := by
  have hmul : ofScientific Format.binary64 1 e = mul Format.binary64
      (.finite .positive (2 ^ 53) (-53) (Nat.pow_pos two_pos))
      (.finite .positive (10 ^ e) 0 (Nat.pow_pos (by decide))) := by
    unfold ofScientific
    rw [dif_neg one_ne_zero, if_neg (show ¬ (e : ℤ) > 2 ^ 11 by omega),
      if_neg (show ¬ (e : ℤ) < -((2 ^ 11 : ℤ) + Nat.log2 1) by omega), if_pos (by omega)]
    rfl
  have hvalue : (10 ^ e : ℚ)
      = ((2 ^ 53 : ℕ) : ℚ) * 2 ^ (-53 : ℤ) * ((10 ^ e : ℕ) * 2 ^ (0 : ℤ)) := by
    push_cast
    norm_num
  rw [hmul, hvalue]
  exact rounds_mul _ _ (Nat.pow_le_pow_right two_pos (by decide))

/-- A whole quotient with what the remainder says about the exact one. -/
theorem marks_add_div (q : ℕ) {r d : ℕ} (hr : r < d) :
    Marks (.ofMantissaAndAccuracy q (accuracyOfFraction r d)) (q + r / d)
      ∧ (ExtendedMantissa.ofMantissaAndAccuracy q (accuracyOfFraction r d)).mantissa = q := by
  have hpos : (0 : ℚ) < d := by exact_mod_cast Nat.zero_lt_of_lt hr
  have hlt : (r / d : ℚ) < 1 := by
    rw [div_lt_one hpos]
    exact_mod_cast hr
  rcases Nat.eq_zero_or_pos r with rfl | h0
  · have hexact : accuracyOfFraction 0 d = .exact := if_pos rfl
    rw [hexact, Nat.cast_zero, zero_div, add_zero]
    exact ⟨marks_exact q, rfl⟩
  have hrest : (0 : ℚ) < r / d := div_pos (by exact_mod_cast h0) hpos
  have hinexact : accuracyOfFraction r d = .inexact (compare (2 * r) d) := if_neg h0.ne'
  rw [hinexact]
  rcases lt_trichotomy (2 * r) d with h | h | h
  · have hhalf : (r / d : ℚ) < 1 / 2 := by
      rw [div_lt_div_iff₀ hpos two_pos]
      exact_mod_cast (by omega : r * 2 < 1 * d)
    rw [Nat.compare_eq_lt.2 h]
    refine ⟨marks_add hrest.le hlt ⟨fun h => absurd h Bool.false_ne_true, fun h => ?_⟩
      ⟨fun h => absurd h.symm Bool.false_ne_true, ?_⟩, rfl⟩
    · exact absurd hhalf (not_lt.2 h)
    · rintro (h | h)
      · exact absurd h hrest.ne'
      · exact absurd h hhalf.ne
  · have hhalf : (r / d : ℚ) = 1 / 2 := by
      rw [div_eq_div_iff hpos.ne' two_ne_zero]
      exact_mod_cast (by omega : r * 2 = 1 * d)
    rw [Nat.compare_eq_eq.2 h]
    exact ⟨marks_add hrest.le hlt ⟨fun _ => hhalf.ge, fun _ => rfl⟩
      ⟨fun _ => .inr hhalf, fun _ => rfl⟩, rfl⟩
  · have hhalf : 1 / 2 < (r / d : ℚ) := by
      rw [div_lt_div_iff₀ two_pos hpos]
      exact_mod_cast (by omega : 1 * d < r * 2)
    rw [Nat.compare_eq_gt.2 h]
    refine ⟨marks_add hrest.le hlt ⟨fun _ => hhalf.le, fun _ => rfl⟩
      ⟨fun h => absurd h.symm Bool.false_ne_true, ?_⟩, rfl⟩
    rintro (h | h)
    · exact absurd h hrest.ne'
    · exact absurd h hhalf.ne'

theorem rounds_div {m₁ m₂ : ℕ} {e₁ e₂ : ℤ} (h₁ : 0 < m₁) (h₂ : 0 < m₂) (h : 2 ^ 52 ≤ m₁)
    (h' : m₂ < 2 ^ 53) (hlog : m₁.log2 = m₂.log2) :
    Rounds (div Format.binary64 (.finite .positive m₁ e₁ h₁) (.finite .positive m₂ e₂ h₂))
      (m₁ * 2 ^ e₁ / (m₂ * 2 ^ e₂)) := by
  obtain ⟨t, ht⟩ : ∃ t, t = min (e₁ - e₂) (max (e₁ - e₂ - 53) (-1074)) := ⟨_, rfl⟩
  obtain ⟨k, hk⟩ : ∃ k : ℕ, e₁ - e₂ - t = k := ⟨(e₁ - e₂ - t).toNat, by omega⟩
  have hcore : divCore Format.binary64 m₁ e₁ m₂ e₂
      = (m₁ <<< k / m₂, t, accuracyOfFraction (m₁ <<< k % m₂) m₂) := by
    have htotal : totalExponent m₁ e₁ - totalExponent m₂ e₂ = e₁ - e₂ := by
      unfold totalExponent
      omega
    unfold divCore
    dsimp only
    rw [htotal, targetExponent_eq, ← ht, hk, Int.toNat_natCast]
  have hlt : m₁ <<< k % m₂ < m₂ := Nat.mod_lt _ h₂
  obtain ⟨hmarks, hmantissa⟩ := marks_add_div (m₁ <<< k / m₂) hlt
  have hquotient : ((m₁ <<< k / m₂ : ℕ) + (m₁ <<< k % m₂ : ℕ) / (m₂ : ℚ)) * 2 ^ t
      = m₁ * 2 ^ e₁ / (m₂ * 2 ^ e₂) := by
    have hpos : (0 : ℚ) < m₂ := by exact_mod_cast h₂
    have hcast : (m₁ * 2 ^ k : ℚ) = m₂ * (m₁ <<< k / m₂ : ℕ) + (m₁ <<< k % m₂ : ℕ) := by
      rw [← Nat.cast_mul, ← Nat.cast_add, Nat.div_add_mod, Nat.shiftLeft_eq]
      push_cast
      rfl
    have hexp : e₁ = k + t + e₂ := by omega
    rw [hexp, zpow_add₀ two_ne_zero, zpow_add₀ two_ne_zero, zpow_natCast, ← mul_assoc, ← mul_assoc,
      hcast]
    field_simp
  have hlarge : 52 ≤ (m₁ <<< k / m₂).log2 ∨ t ≤ -1074 := by
    rcases lt_or_ge (e₁ - e₂ - 53) (-1074) with hsmall | hnormal
    · right
      omega
    · left
      have hk53 : k = 53 := by omega
      have hle : 2 ^ 52 ≤ m₁ <<< k / m₂ := by
        rw [Nat.le_div_iff_mul_le h₂, Nat.shiftLeft_eq, hk53]
        calc 2 ^ 52 * m₂ ≤ 2 ^ 52 * 2 ^ 53 := Nat.mul_le_mul_left _ h'.le
          _ ≤ m₁ * 2 ^ 53 := Nat.mul_le_mul_right _ h
      exact (Nat.le_log2 (by omega)).2 hle
  obtain ⟨r, t', hstep, hnearest, hround⟩ := exists_rounded hmarks hmantissa hlarge
  rw [hquotient] at hstep hnearest
  refine ⟨r, t', hstep, hnearest, ?_⟩
  have hdiv : div Format.binary64 (.finite .positive m₁ e₁ h₁) (.finite .positive m₂ e₂ h₂)
      = roundWithAccuracy Format.binary64 .positive (m₁ <<< k / m₂) t
        (accuracyOfFraction (m₁ <<< k % m₂) m₂) := by
    change (match divCore Format.binary64 m₁ e₁ m₂ e₂ with
      | (m, e, acc) => roundWithAccuracy Format.binary64 .positive m e acc) = _
    rw [hcore]
  exact hdiv.trans hround

end MatrixFree.Rounding
