import Mathlib.Algebra.Field.Rat
import Mathlib.Algebra.Order.Ring.Nat
import Mathlib.Algebra.Order.Field.Power
import Mathlib.Algebra.Order.Floor.Semifield
import Mathlib.Data.Rat.Floor
import Mathlib.Data.Nat.Log
import Mathlib.Tactic.FieldSimp
import Mathlib.Tactic.Linarith
import Mathlib.Tactic.Positivity
import Mathlib.Tactic.Ring
import MatrixFree.Decimal.Shortest

/-!
# Shortest decimals read back

The search for a short decimal ends at one that reads back as the number (`Decimal.holds_shortest`):
the last grid that it tries is finer than half a step between machine numbers, and a grid so fine
has a point above the number that reads back.
-/

namespace MatrixFree

/-- The number that the magnitude is. -/
def Magnitude.value (m : Magnitude) : ℚ := m.mantissa * 2 ^ m.exponent

/-- The range of a machine number. -/
structure Magnitude.Bounded (m : Magnitude) : Prop where
  mantissa_lt : m.mantissa < 2 ^ 53
  exponent_ge : -1074 ≤ m.exponent
  exponent_le : m.exponent ≤ 972

theorem Magnitude.bounded_ofFloat (x : Float) : (Magnitude.ofFloat x).Bounded := by
  have hfraction : x.toBits.toNat % Nat.pow 2 52 < Nat.pow 2 52 := Nat.mod_lt _ (by decide)
  have hexponent : x.toBits.toNat / Nat.pow 2 52 % Nat.pow 2 11 < Nat.pow 2 11 :=
    Nat.mod_lt _ (by decide)
  have hbits : Nat.pow 2 52 + Nat.pow 2 52 = 2 ^ 53 ∧ Nat.pow 2 11 = 2048 := by decide
  unfold Magnitude.ofFloat
  dsimp only
  split_ifs
  · exact ⟨by dsimp only; omega, le_refl _, by dsimp only; omega⟩
  · exact ⟨by dsimp only; omega, by dsimp only [Int.ofNat_eq_natCast]; omega,
      by dsimp only [Int.ofNat_eq_natCast]; omega⟩

/-- A power is a quotient of powers by natural numbers, of which one is one. -/
theorem pow_toNat_div (b : ℚ) (k : ℤ) : b ^ k.toNat / b ^ (-k).toNat = b ^ k := by
  rcases Int.eq_nat_or_neg k with ⟨n, rfl | rfl⟩
  · simp
  · simp

namespace Decimal

/-- The number that the decimal is. -/
def value (d : Decimal) : ℚ := d.digits * 10 ^ d.exponent

/-! ### The interval as rational numbers -/

namespace Interval

variable {i : Interval} {tie : Tie} {d : ℕ} {k : ℤ}

theorem holds_eq_true_iff (hi : 0 < i.den) : i.holds d k = true ↔
    if i.closed then i.low / i.den ≤ (d * 10 ^ k : ℚ) ∧ (d * 10 ^ k : ℚ) ≤ i.high / i.den
    else i.low / i.den < (d * 10 ^ k : ℚ) ∧ (d * 10 ^ k : ℚ) < i.high / i.den := by
  have hden : (0 : ℚ) < i.den := by exact_mod_cast hi
  have hunit : (0 : ℚ) < 10 ^ (-k).toNat := by positivity
  have hpoint : (d * 10 ^ k : ℚ)
      = ((d * 10 ^ k.toNat * i.den : ℕ) : ℚ) / ((10 ^ (-k).toNat * i.den : ℕ) : ℚ) := by
    rw [← pow_toNat_div 10 k]
    push_cast
    field_simp
  have hprod : (0 : ℚ) < ((10 ^ (-k).toNat * i.den : ℕ) : ℚ) := by positivity
  have hend : ∀ n : ℕ, (n / i.den : ℚ)
      = ((n * 10 ^ (-k).toNat : ℕ) : ℚ) / ((10 ^ (-k).toNat * i.den : ℕ) : ℚ) := by
    intro n
    push_cast
    field_simp
  unfold holds
  dsimp only
  rw [hpoint, hend, hend]
  split_ifs
  · rw [Bool.and_eq_true, decide_eq_true_eq, decide_eq_true_eq, div_le_div_iff_of_pos_right hprod,
      div_le_div_iff_of_pos_right hprod, Nat.cast_le, Nat.cast_le]
    exact Iff.rfl
  · rw [Bool.and_eq_true, decide_eq_true_eq, decide_eq_true_eq, div_lt_div_iff_of_pos_right hprod,
      div_lt_div_iff_of_pos_right hprod, Nat.cast_lt, Nat.cast_lt]
    exact Iff.rfl

/-- Whether a decimal reads back depends on its value only. -/
theorem holds_congr (hi : 0 < i.den) {d' : ℕ} {k' : ℤ} (h : (d * 10 ^ k : ℚ) = d' * 10 ^ k')
    (hd : i.holds d k = true) : i.holds d' k' = true := by
  rw [holds_eq_true_iff hi] at hd ⊢
  rwa [← h]

theorem le_of_holds (hi : 0 < i.den)
    (h : i.holds d k = true) :
    i.low / i.den ≤ (d * 10 ^ k : ℚ) ∧ (d * 10 ^ k : ℚ) ≤ i.high / i.den := by
  rw [holds_eq_true_iff hi] at h
  split_ifs at h
  · exact h
  · exact ⟨h.1.le, h.2.le⟩

/-- A grid finer than the upper part of the interval has a point there. -/
theorem exists_onGrid (hi : 0 < i.den) (hlow : i.low ≤ i.value)
    (hk : (10 : ℚ) ^ k < (i.high - i.value) / i.den) : ∃ d, i.onGrid tie k = some d := by
  have hden : (0 : ℚ) < i.den := by exact_mod_cast hi
  have hten : (0 : ℚ) < 10 ^ k := by positivity
  set q := i.value * Nat.pow 10 (-k).toNat / (i.den * Nat.pow 10 k.toNat) with hq
  have hdiv : (i.value / i.den : ℚ) / 10 ^ k = ((i.value * 10 ^ (-k).toNat : ℕ) : ℚ)
      / ((i.den * 10 ^ k.toNat : ℕ) : ℚ) := by
    rw [← pow_toNat_div 10 k]
    push_cast
    field_simp
  have hfloor : q = ⌊(i.value / i.den : ℚ) / 10 ^ k⌋₊ := by
    rw [hdiv, Nat.floor_div_eq_div]
    rfl
  have hle : (q * 10 ^ k : ℚ) ≤ i.value / i.den := by
    rw [← le_div_iff₀ hten, hfloor]
    exact Nat.floor_le (by positivity)
  have hlt : (i.value / i.den : ℚ) < (q + 1) * 10 ^ k := by
    rw [← div_lt_iff₀ hten, hfloor]
    exact Nat.lt_floor_add_one _
  have hlow' : (i.low / i.den : ℚ) ≤ i.value / i.den := by
    rw [div_le_div_iff_of_pos_right hden]
    exact_mod_cast hlow
  have hholds : i.holds (q + 1) k = true := by
    have h1 : (i.low / i.den : ℚ) < ((q + 1 : ℕ) : ℚ) * 10 ^ k := by
      push_cast
      linarith
    have h2 : ((q + 1 : ℕ) : ℚ) * 10 ^ k < i.high / i.den := by
      push_cast
      rw [sub_div] at hk
      linarith
    rw [holds_eq_true_iff hi]
    split_ifs
    · exact ⟨h1.le, h2.le⟩
    · exact ⟨h1, h2⟩
  unfold onGrid
  dsimp only
  rw [← hq, hholds]
  rcases i.holds q k with _ | _
  · exact ⟨_, rfl⟩
  · rcases tie with _ | _
    · dsimp only
      split_ifs <;> exact ⟨_, rfl⟩
    · dsimp only
      split_ifs <;> exact ⟨_, rfl⟩

theorem holds_of_onGrid (h : i.onGrid tie k = some d) : i.holds d k = true := by
  unfold onGrid at h
  dsimp only at h
  split at h
  next h₁ h₂ =>
    have hq : ∀ q, some q = some d → i.holds q k = true → i.holds d k = true := by
      rintro q hq hh
      rwa [← Option.some.inj hq]
    rcases tie with _ | _
    all_goals
      dsimp only at h
      split_ifs at h
      all_goals first | exact hq _ h h₁ | exact hq _ h h₂
  next h₁ h₂ => rwa [← Option.some.inj h]
  next h₁ h₂ => rwa [← Option.some.inj h]
  next => cases h

/-- When one of the grids that are tried has a point that reads back, the search ends at such a
point, on the first grid that has one. -/
theorem exists_search (i : Interval) (tie : Tie) : ∀ (steps : ℕ) (k j : ℤ), j ≤ k → k < j + steps →
    (∃ d, i.onGrid tie j = some d) → ∃ d e, i.search tie steps k = ⟨d, e⟩
      ∧ i.onGrid tie e = some d ∧ j ≤ e ∧ e ≤ k ∧ ∀ l, e < l → l ≤ k → i.onGrid tie l = none
  | 0, k, j, hjk, hkj, _ => by omega
  | steps + 1, k, j, hjk, hkj, hj => by
    unfold search
    rcases h : i.onGrid tie k with _ | d
    · have hne : j ≠ k := by
        rintro rfl
        rw [h] at hj
        simp at hj
      obtain ⟨d, e, hd, he, hje, hek, hfirst⟩ :=
        exists_search i tie steps (k - 1) j (by omega) (by push_cast at hkj ⊢; omega) hj
      refine ⟨d, e, hd, he, hje, by omega, fun l hel hlk => ?_⟩
      rcases eq_or_lt_of_le hlk with rfl | hlt
      · exact h
      · exact hfirst l hel (by omega)
    · exact ⟨d, k, rfl, h, hjk, le_refl k, fun l hkl hlk => by omega⟩

end Interval

/-! ### The interval of a machine number -/

section OfMagnitude

variable {m : Magnitude} {tie : Tie}

theorem den_ofMagnitude_pos : 0 < (Interval.ofMagnitude m).den := Nat.pow_pos two_pos

/-- The ends of the interval are counted in quarters of a step. -/
theorem quarters_div_den (n : ℕ) :
    ((n * (⟨1, m.exponent - 2⟩ : Magnitude).num : ℕ) : ℚ) / (Interval.ofMagnitude m).den
      = n * 2 ^ (m.exponent - 2) := by
  rw [← pow_toNat_div 2 (m.exponent - 2)]
  unfold Interval.ofMagnitude Magnitude.num Magnitude.den
  dsimp only
  rw [one_mul, Nat.cast_mul, mul_div_assoc]
  push_cast [Nat.pow_eq]
  rfl

theorem value_ofMagnitude :
    ((Interval.ofMagnitude m).value / (Interval.ofMagnitude m).den : ℚ) = m.value := by
  refine (quarters_div_den (4 * m.mantissa)).trans ?_
  rw [zpow_sub₀ two_ne_zero, Magnitude.value]
  push_cast
  ring

theorem high_ofMagnitude : ((Interval.ofMagnitude m).high / (Interval.ofMagnitude m).den : ℚ)
    = m.value + 2 ^ (m.exponent - 1) := by
  refine (quarters_div_den (4 * m.mantissa + 2)).trans ?_
  rw [zpow_sub₀ two_ne_zero, zpow_sub₀ two_ne_zero, Magnitude.value]
  push_cast
  ring

theorem low_le_value : (Interval.ofMagnitude m).low ≤ (Interval.ofMagnitude m).value :=
  Nat.mul_le_mul_right _ (Nat.sub_le _ _)

theorem low_ofMagnitude_pos (hm : 0 < m.mantissa) : 0 < (Interval.ofMagnitude m).low := by
  unfold Interval.ofMagnitude
  dsimp only
  refine Nat.mul_pos ?_ (Nat.mul_pos one_pos (Nat.pow_pos two_pos))
  split_ifs <;> omega

/-- Ten is between the third root of two to the tenth and the tenth root of two to the
thirty-third power. -/
theorem ten_zpow_le_two_zpow {k n : ℤ} (hpos : 0 ≤ k → 10 * k ≤ 3 * n)
    (hneg : k < 0 → 33 * k ≤ 10 * n) : (10 : ℚ) ^ k ≤ 2 ^ n := by
  rcases Int.eq_nat_or_neg k with ⟨a, rfl | rfl⟩
  · obtain ⟨b, rfl⟩ : ∃ b : ℕ, n = b := ⟨n.toNat, by omega⟩
    have hab : 10 * a ≤ 3 * b := by omega
    rw [zpow_natCast, zpow_natCast]
    refine (pow_le_pow_iff_left₀ (by positivity) (by positivity) three_ne_zero).1 ?_
    calc ((10 : ℚ) ^ a) ^ 3 = 1000 ^ a := by rw [← pow_mul, mul_comm, pow_mul]; norm_num
      _ ≤ 1024 ^ a := pow_le_pow_left₀ (by norm_num) (by norm_num) a
      _ = 2 ^ (10 * a) := by rw [pow_mul]; norm_num
      _ ≤ 2 ^ (3 * b) := pow_le_pow_right₀ (by norm_num) hab
      _ = (2 ^ b) ^ 3 := by rw [← pow_mul, mul_comm]
  · rcases Nat.eq_zero_or_pos a with rfl | ha
    · obtain ⟨b, rfl⟩ : ∃ b : ℕ, n = b := ⟨n.toNat, by omega⟩
      simpa using one_le_pow₀ (one_le_two : (1 : ℚ) ≤ 2)
    · rcases Int.eq_nat_or_neg n with ⟨b, rfl | rfl⟩
      · rw [zpow_neg, zpow_natCast, zpow_natCast]
        exact (inv_le_one_of_one_le₀ (one_le_pow₀ (by norm_num))).trans (one_le_pow₀ one_le_two)
      · have hab : 10 * b ≤ 33 * a := by omega
        rw [zpow_neg, zpow_neg, zpow_natCast, zpow_natCast]
        refine inv_anti₀ (by positivity) ?_
        refine (pow_le_pow_iff_left₀ (by positivity) (by positivity) (by norm_num : 10 ≠ 0)).1 ?_
        calc ((2 : ℚ) ^ b) ^ 10 = 2 ^ (10 * b) := by rw [← pow_mul, mul_comm]
          _ ≤ 2 ^ (33 * a) := pow_le_pow_right₀ (by norm_num) hab
          _ = (2 ^ 33) ^ a := pow_mul 2 33 a
          _ ≤ (10 ^ 10) ^ a := pow_le_pow_left₀ (by norm_num) (by norm_num) a
          _ = (10 ^ a) ^ 10 := by rw [← pow_mul, mul_comm, pow_mul]

/-- The last grid of the search is finer than half a step. -/
theorem last_grid (hm : m.Bounded) : (10 : ℚ) ^ (above m - 20) < 2 ^ (m.exponent - 1) := by
  obtain ⟨hmantissa, hlow, hhigh⟩ := hm
  have hlog : m.mantissa.log2 < 53 := by
    rcases Nat.eq_zero_or_pos m.mantissa with h0 | h0
    · rw [h0]
      decide
    · exact (Nat.log2_lt (by omega)).2 hmantissa
  have hle : (10 : ℚ) ^ (above m - 20) ≤ 2 ^ (m.exponent - 2) := by
    unfold above
    refine ten_zpow_le_two_zpow ?_ ?_
    · omega
    · omega
  exact hle.trans_lt (zpow_lt_zpow_right₀ one_lt_two (by omega))

/-- The search succeeds, on the first grid with a point that reads back. -/
theorem exists_shortest (hm : m.Bounded) (h0 : 0 < m.mantissa) (tie : Tie) :
    ∃ d e, shortest tie m = ⟨d, e⟩ ∧ (Interval.ofMagnitude m).onGrid tie e = some d
      ∧ e ≤ above m ∧ ∀ l, e < l → l ≤ above m → (Interval.ofMagnitude m).onGrid tie l = none := by
  have hstep : (10 : ℚ) ^ (above m - 20) < ((Interval.ofMagnitude m).high
      - (Interval.ofMagnitude m).value) / (Interval.ofMagnitude m).den := by
    rw [sub_div, high_ofMagnitude, value_ofMagnitude, add_sub_cancel_left]
    exact last_grid hm
  obtain ⟨d, e, hd, he, -, hle, hfirst⟩ := Interval.exists_search (Interval.ofMagnitude m) tie 21
    (above m) (above m - 20) (by omega) (by omega)
    (Interval.exists_onGrid den_ofMagnitude_pos low_le_value hstep)
  refine ⟨d, e, ?_, he, hle, hfirst⟩
  unfold shortest
  rw [if_neg (by omega), hd]

/-- The shortest decimal of a machine number reads back as that number. -/
theorem holds_shortest (hm : m.Bounded) (h0 : 0 < m.mantissa) (tie : Tie) :
    (Interval.ofMagnitude m).holds (shortest tie m).digits (shortest tie m).exponent = true := by
  obtain ⟨d, e, hd, he, -⟩ := exists_shortest hm h0 tie
  rw [hd]
  exact Interval.holds_of_onGrid he

theorem shortest_digits_pos (hm : m.Bounded) (h0 : 0 < m.mantissa) (tie : Tie) :
    0 < (shortest tie m).digits := by
  have hholds := holds_shortest hm h0 tie
  have hlow : (0 : ℚ) < (Interval.ofMagnitude m).low / (Interval.ofMagnitude m).den :=
    div_pos (by exact_mod_cast low_ofMagnitude_pos h0) (by exact_mod_cast den_ofMagnitude_pos)
  rw [Interval.holds_eq_true_iff den_ofMagnitude_pos] at hholds
  have hvalue : (0 : ℚ) < (shortest tie m).digits * 10 ^ (shortest tie m).exponent := by
    split_ifs at hholds
    · exact hlow.trans_le hholds.1
    · exact hlow.trans hholds.1
  have hten : (0 : ℚ) < 10 ^ (shortest tie m).exponent := by positivity
  exact_mod_cast (mul_pos_iff_of_pos_right hten).1 hvalue

theorem shortest_of_eq_zero (h : m.mantissa = 0) (tie : Tie) : shortest tie m = ⟨0, 0⟩ := by
  unfold shortest
  rw [if_pos h]

theorem value_shortest_le (hm : m.Bounded) (tie : Tie) :
    (shortest tie m).value ≤ m.value + 2 ^ (m.exponent - 1) := by
  rcases Nat.eq_zero_or_pos m.mantissa with h0 | h0
  · rw [shortest_of_eq_zero h0, value, Nat.cast_zero, zero_mul, Magnitude.value]
    positivity
  · rw [← high_ofMagnitude]
    exact (Interval.le_of_holds den_ofMagnitude_pos (holds_shortest hm h0 tie)).2

/-- The midpoint below the number, a quarter of a step away from a power of two. -/
theorem low_ofMagnitude (hm : 0 < m.mantissa) :
    ((Interval.ofMagnitude m).low / (Interval.ofMagnitude m).den : ℚ)
      = (m.mantissa - if m.mantissa = Nat.pow 2 52 ∧ -1074 < m.exponent then 1 / 4 else 1 / 2)
        * 2 ^ m.exponent := by
  have hquarters : ∀ c : ℕ, c ≤ 2 →
      (((4 * m.mantissa - c) * (⟨1, m.exponent - 2⟩ : Magnitude).num : ℕ)
        / (Interval.ofMagnitude m).den : ℚ) = (m.mantissa - c / 4) * 2 ^ m.exponent := by
    intro c hc
    refine (quarters_div_den _).trans ?_
    rw [Nat.cast_sub (by omega), zpow_sub₀ two_ne_zero]
    push_cast
    ring
  have hlow : (Interval.ofMagnitude m).low = (4 * m.mantissa
      - if m.mantissa = Nat.pow 2 52 ∧ -1074 < m.exponent then 1 else 2)
        * (⟨1, m.exponent - 2⟩ : Magnitude).num := rfl
  rw [hlow]
  split_ifs
  · rw [hquarters 1 (by decide), Nat.cast_one]
  · rw [hquarters 2 (le_refl 2)]
    norm_num

theorem le_value_shortest (hm : m.Bounded) (h0 : 0 < m.mantissa) (tie : Tie) :
    2 ^ (m.exponent - 1) ≤ (shortest tie m).value := by
  refine le_trans ?_ (Interval.le_of_holds den_ofMagnitude_pos (holds_shortest hm h0 tie)).1
  have hone : (1 : ℚ) ≤ m.mantissa := by exact_mod_cast h0
  rw [low_ofMagnitude h0, zpow_sub₀ two_ne_zero, zpow_one, div_eq_mul_inv, mul_comm]
  refine mul_le_mul_of_nonneg_right ?_ (by positivity)
  split_ifs <;> linarith

end OfMagnitude

end Decimal

end MatrixFree
