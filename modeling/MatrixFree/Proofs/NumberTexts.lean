import Mathlib.Tactic.Linarith
import MatrixFree.Proofs.Numerals
import MatrixFree.Proofs.ShortestDecimals
import MatrixFree.Json.Value

/-!
# Number texts

A number's text is made of the parts of a number (`Json.Number.text_eq`,
`Json.Number.proper_parts`), so it is scanned as it was written. A whole number below the bound of
a word is read back as itself. The parts of a machine number are those of a decimal with the value
of its shortest one (`Json.exists_floatParts`).
-/

namespace MatrixFree

namespace Decimal

/-- No digits but zero alone: what a decimal needs for its whole part to be one that is read. -/
def Normal (d : Decimal) : Prop := d.digits = 0 → d.exponent = 0

theorem normal_shortest {m : Magnitude} (hm : m.Bounded) (tie : Tie) : (shortest tie m).Normal := by
  intro h
  rcases Nat.eq_zero_or_pos m.mantissa with h0 | h0
  · unfold shortest
    rw [if_pos h0]
  · exact absurd h (shortest_digits_pos hm h0 tie).ne'

theorem normal_trimmed {d : Decimal} (hd : d.Normal) : (NumberStyle.trimmed d).Normal := by
  fun_induction NumberStyle.trimmed d with
  | case1 d h ih => exact ih fun h0 => absurd h0 (by dsimp only; omega)
  | case2 d h => exact hd

theorem digits_digitText (n : ℕ) : Json.Numeral.Digits (digitText n) where
  ne_nil := Nat.toDigits_ne_nil
  isDigit c hc := by
    have h := Nat.isDigit_of_mem_toDigits (by decide) (le_refl 10) hc
    simpa [Json.Numeral.isDigit, Char.isDigit, Char.le_def] using h

/-- No number is written with a zero in front, except zero. -/
theorem head_digitText {n : ℕ} (hn : n ≠ 0) : (digitText n).head? ≠ some '0' := by
  induction n using Nat.strong_induction_on with
  | _ n ih =>
    unfold digitText at ih ⊢
    rcases lt_or_ge n 10 with h | h
    · have hdigit : ∀ n < 10, n ≠ 0 → n.digitChar ≠ '0' := by decide
      rw [Nat.toDigits_of_lt_base h]
      simpa using hdigit n h hn
    · have hne : Nat.toDigits 10 (n / 10) ≠ [] := Nat.toDigits_ne_nil
      rw [Nat.toDigits_of_base_le (by decide) h, List.head?_append_of_ne_nil _ hne]
      exact ih (n / 10) (by omega) (by omega)

theorem digitText_zero : digitText 0 = ['0'] := rfl

theorem value_trimmed (d : Decimal) : (NumberStyle.trimmed d).value = d.value := by
  fun_induction NumberStyle.trimmed d with
  | case1 d h ih =>
    have hdigits : (d.digits : ℚ) = (d.digits / 10 : ℕ) * 10 := by
      exact_mod_cast (Nat.div_mul_cancel (Nat.dvd_of_mod_eq_zero h.2)).symm
    rw [ih, value, value, hdigits, zpow_add_one₀ (by norm_num)]
    dsimp only
    ring
  | case2 d h => rfl

theorem length_digitText_pos (n : ℕ) : 0 < (digitText n).length :=
  List.length_pos_of_ne_nil Nat.toDigits_ne_nil

theorem lt_pow_length_digitText (n : ℕ) : n < 10 ^ (digitText n).length :=
  (Nat.length_toDigits_le_iff (by decide) (length_digitText_pos n)).1 (le_refl _)

theorem pow_length_digitText_le {n : ℕ} (hn : 0 < n) : 10 ^ ((digitText n).length - 1) ≤ n := by
  by_contra hlt
  rcases Nat.eq_zero_or_pos ((digitText n).length - 1) with h | h
  · rw [h] at hlt
    omega
  · have := (Nat.length_toDigits_le_iff (b := 10) (by decide) h).2 (not_le.1 hlt)
    unfold digitText at this h
    omega

/-- A decimal lies between the powers of ten of its leading digit and of the next one. -/
theorem pow_leading_le {d : Decimal} (hd : 0 < d.digits) : 10 ^ d.leading ≤ d.value := by
  have h : ((10 ^ ((digitText d.digits).length - 1) : ℕ) : ℚ) ≤ d.digits :=
    Nat.cast_le.2 (pow_length_digitText_le hd)
  push_cast at h
  unfold leading value
  rw [add_comm, zpow_add₀ (by norm_num), zpow_natCast]
  exact mul_le_mul_of_nonneg_right h (by positivity)

theorem lt_pow_leading (d : Decimal) : d.value < 10 ^ (d.leading + 1) := by
  have h : (d.digits : ℚ) < ((10 ^ (digitText d.digits).length : ℕ) : ℚ) :=
    Nat.cast_lt.2 (lt_pow_length_digitText d.digits)
  push_cast at h
  have hlength : d.leading + 1 = ((digitText d.digits).length : ℕ) + d.exponent := by
    have := length_digitText_pos d.digits
    unfold leading
    omega
  rw [hlength, zpow_add₀ (by norm_num), zpow_natCast, value]
  exact mul_lt_mul_of_pos_right h (by positivity)

theorem trimmed_zero : NumberStyle.trimmed ⟨0, 0⟩ = ⟨0, 0⟩ := by
  unfold NumberStyle.trimmed
  rw [if_neg (by decide)]

/-- The leading digit of a machine number stands for a small power of ten. -/
theorem natAbs_leading_le {m : Magnitude} (hm : m.Bounded) (tie : Tie) :
    (NumberStyle.trimmed (shortest tie m)).leading.natAbs ≤ 1076 := by
  rcases Nat.eq_zero_or_pos m.mantissa with h0 | h0
  · rw [shortest_of_eq_zero h0, trimmed_zero]
    decide
  · have hvalue := value_trimmed (shortest tie m)
    have hge : (2 : ℚ) ^ (-1075 : ℤ) ≤ (shortest tie m).value :=
      (zpow_le_zpow_right₀ one_le_two (by linarith [hm.exponent_ge])).trans
        (le_value_shortest hm h0 tie)
    have hle : (shortest tie m).value ≤ 2 ^ (1026 : ℤ) := by
      have hmantissa : (m.mantissa : ℚ) + 1 / 2 ≤ 2 ^ (54 : ℤ) := by
        have hlt : (m.mantissa : ℚ) ≤ 2 ^ 53 := by exact_mod_cast hm.mantissa_lt.le
        calc (m.mantissa : ℚ) + 1 / 2 ≤ 2 ^ 53 + 1 / 2 := by linarith
          _ ≤ 2 ^ (54 : ℤ) := by norm_num
      calc (shortest tie m).value ≤ m.mantissa * 2 ^ m.exponent + 2 ^ (m.exponent - 1) :=
            value_shortest_le hm tie
        _ = (m.mantissa + 1 / 2) * 2 ^ m.exponent := by
            rw [zpow_sub₀ two_ne_zero]
            ring
        _ ≤ 2 ^ (54 : ℤ) * 2 ^ (972 : ℤ) :=
            mul_le_mul hmantissa (zpow_le_zpow_right₀ one_le_two hm.exponent_le) (by positivity)
              (by positivity)
        _ = 2 ^ (1026 : ℤ) := by rw [← zpow_add₀ two_ne_zero]; rfl
    rw [← hvalue] at hge hle
    generalize NumberStyle.trimmed (shortest tie m) = d at hge hle ⊢
    have hdigits : 0 < d.digits := by
      by_contra hzero
      have hpos := (zpow_pos (two_pos : (0 : ℚ) < 2) _).trans_le hge
      unfold value at hpos
      rw [show d.digits = 0 by omega, Nat.cast_zero, zero_mul] at hpos
      exact lt_irrefl _ hpos
    have hupper : (10 : ℚ) ^ d.leading ≤ 10 ^ (1026 : ℤ) :=
      ((pow_leading_le hdigits).trans hle).trans
        (zpow_le_zpow_left₀ (by decide) two_pos.le (by norm_num))
    have hlower : (10 : ℚ) ^ (-1075 : ℤ) < 10 ^ (d.leading + 1) :=
      ((ten_zpow_le_two_zpow (by decide) (by decide)).trans hge).trans_lt (lt_pow_leading d)
    have h1 := (zpow_le_zpow_iff_right₀ (by norm_num)).1 hupper
    have h2 := (zpow_lt_zpow_iff_right₀ (by norm_num)).1 hlower
    omega

end Decimal

namespace Json.Numeral

open Decimal

/-- The parts of a decimal with all its places. -/
def placeParts (d : Decimal) : Parts :=
  let digits := digitText d.digits
  let places := (-d.exponent).toNat
  if 0 ≤ d.exponent then
    ⟨false, digits ++ List.replicate d.exponent.toNat '0', some ['0'], none⟩
  else if places < digits.length then
    ⟨false, digits.take (digits.length - places), some (digits.drop (digits.length - places)), none⟩
  else ⟨false, ['0'], some (List.replicate (places - digits.length) '0' ++ digits), none⟩

/-- The parts of a decimal with a power of ten. -/
def powerParts (d : Decimal) : Parts :=
  ⟨false, (digitText d.digits).take 1,
    if (digitText d.digits).drop 1 = [] then none else some ((digitText d.digits).drop 1),
    some (decide (d.leading < 0), digitText d.leading.natAbs)⟩

theorem text_placeParts (d : Decimal) : (placeParts d).text = NumberStyle.placeText true d := by
  unfold placeParts NumberStyle.placeText
  dsimp only
  rw [if_pos rfl]
  split_ifs <;> simp [Parts.text, Parts.fractionText, Parts.exponentText]

theorem text_powerParts (d : Decimal) : (powerParts d).text = NumberStyle.powerText true d := by
  unfold powerParts NumberStyle.powerText
  obtain ⟨c, cs, hcs⟩ := List.exists_cons_of_ne_nil (digits_digitText d.digits).ne_nil
  rw [hcs]
  rcases cs with _ | ⟨c', cs⟩
  · by_cases h : d.leading < 0 <;> simp [Parts.text, Parts.fractionText, Parts.exponentText, h]
  · by_cases h : d.leading < 0 <;> simp [Parts.text, Parts.fractionText, Parts.exponentText, h]

theorem Digits.append_replicate {cs : List Char} (hcs : Digits cs) (n : ℕ) :
    Digits (cs ++ List.replicate n '0') where
  ne_nil := by simp [hcs.ne_nil]
  isDigit c hc := by
    rcases List.mem_append.1 hc with h | h
    · exact hcs.isDigit c h
    · rw [List.eq_of_mem_replicate h]
      rfl

theorem Digits.replicate_append {cs : List Char} (hcs : Digits cs) (n : ℕ) :
    Digits (List.replicate n '0' ++ cs) where
  ne_nil := by simp [hcs.ne_nil]
  isDigit c hc := by
    rcases List.mem_append.1 hc with h | h
    · rw [List.eq_of_mem_replicate h]
      rfl
    · exact hcs.isDigit c h

theorem Digits.take {cs : List Char} (hcs : Digits cs) {n : ℕ} (hn : n ≠ 0) :
    Digits (cs.take n) where
  ne_nil := by simp [hcs.ne_nil, hn]
  isDigit c hc := hcs.isDigit c (List.mem_of_mem_take hc)

theorem Digits.drop {cs : List Char} (hcs : Digits cs) {n : ℕ} (hn : n < cs.length) :
    Digits (cs.drop n) where
  ne_nil := by simpa using hn
  isDigit c hc := hcs.isDigit c (List.mem_of_mem_drop hc)

theorem head_take {cs : List Char} {n : ℕ} (hn : n ≠ 0) : (cs.take n).head? = cs.head? := by
  rw [List.head?_take, if_neg hn]

theorem digits_zero : Digits ['0'] := ⟨List.cons_ne_nil _ _, List.forall_mem_singleton.2 rfl⟩

/-- A part that starts with the digits of a number has no zero in front. -/
theorem noZero_of_prefix {n : ℕ} {cs : List Char} (hn : n ≠ 0)
    (h : cs.head? = (digitText n).head?) : cs = ['0'] ∨ cs.head? ≠ some '0' :=
  .inr (h ▸ head_digitText hn)

theorem proper_placeParts {d : Decimal} (hd : d.Normal) : (placeParts d).Proper := by
  have hdigits := digits_digitText d.digits
  have hne := hdigits.ne_nil
  unfold placeParts
  dsimp only
  split_ifs with h1 h2
  · refine ⟨hdigits.append_replicate _, ?_, ?_, ?_⟩
    · rcases eq_or_ne d.digits 0 with h0 | h0
      · left
        rw [h0, hd h0]
        rfl
      · exact noZero_of_prefix h0 (List.head?_append_of_ne_nil _ hne)
    · rintro f ⟨⟩
      exact digits_zero
    · rintro e ⟨⟩
  · have h0 : d.digits ≠ 0 := by
      intro h0
      rw [h0, digitText_zero] at h2
      exact absurd (hd h0) (by simp at h2; omega)
    refine ⟨hdigits.take (by omega), ?_, ?_, ?_⟩
    · exact noZero_of_prefix h0 (head_take (by omega))
    · rintro f ⟨⟩
      exact hdigits.drop (by omega)
    · rintro e ⟨⟩
  · refine ⟨digits_zero, .inl rfl, ?_, ?_⟩
    · rintro f ⟨⟩
      exact hdigits.replicate_append _
    · rintro e ⟨⟩

theorem proper_powerParts (d : Decimal) : (powerParts d).Proper := by
  have hdigits := digits_digitText d.digits
  unfold powerParts
  refine ⟨hdigits.take one_ne_zero, ?_, ?_, ?_⟩
  · rcases eq_or_ne d.digits 0 with h0 | h0
    · left
      rw [h0]
      rfl
    · exact noZero_of_prefix h0 (head_take one_ne_zero)
  · intro f hf
    split_ifs at hf with h
    obtain rfl := Option.some.inj hf
    exact ⟨h, fun c hc => hdigits.isDigit c (List.mem_of_mem_drop hc)⟩
  · rintro e ⟨⟩
    exact digits_digitText _

/-! ### Collected digits -/

/-- The number of some digits that follow a word. -/
def extend (w : ℕ) (ds : List ℕ) : ℕ := ds.foldl (fun n d => n * 10 + d) w

theorem extend_append (w : ℕ) (ds es : List ℕ) : extend w (ds ++ es) = extend (extend w ds) es :=
  List.foldl_append

theorem le_extend (ds : List ℕ) (w : ℕ) : w * 10 ^ ds.length ≤ extend w ds := by
  induction ds generalizing w with
  | nil => exact le_of_eq (mul_one w)
  | cons d ds ih =>
    calc w * 10 ^ (ds.length + 1) = w * 10 * 10 ^ ds.length := by ring
      _ ≤ (w * 10 + d) * 10 ^ ds.length := Nat.mul_le_mul_right _ (Nat.le_add_right _ _)
      _ ≤ extend (w * 10 + d) ds := ih _

theorem extend_lt {ds : List ℕ} (h : ∀ d ∈ ds, d < 10) (w : ℕ) :
    extend w ds < (w + 1) * 10 ^ ds.length := by
  induction ds generalizing w with
  | nil => exact (mul_one (w + 1)).symm ▸ Nat.lt_succ_self w
  | cons d ds ih =>
    have hd := h d List.mem_cons_self
    calc extend (w * 10 + d) ds < (w * 10 + d + 1) * 10 ^ ds.length :=
          ih (fun e he => h e (List.mem_cons_of_mem d he)) _
      _ ≤ ((w + 1) * 10) * 10 ^ ds.length := Nat.mul_le_mul_right _ (by omega)
      _ = (w + 1) * 10 ^ (ds.length + 1) := by ring

theorem extend_replicate_zero (w n : ℕ) : extend w (List.replicate n 0) = w * 10 ^ n := by
  induction n generalizing w with
  | zero => exact (mul_one w).symm
  | succ n ih =>
    calc extend (w * 10 + 0) (List.replicate n 0) = w * 10 * 10 ^ n := ih (w * 10)
      _ = w * 10 ^ (n + 1) := by ring

/-- Digits that are left over only make the number larger. -/
theorem collect_le (bound : ℕ) (ds : List ℕ) {w : ℕ} (hw : w < bound) :
    (collect bound w ds).1 < bound ∧ (collect bound w ds).2 ≤ ds.length
      ∧ (collect bound w ds).1 * 10 ^ (collect bound w ds).2 ≤ extend w ds := by
  induction ds generalizing w with
  | nil => exact ⟨hw, le_refl 0, le_of_eq (mul_one w)⟩
  | cons d ds ih =>
    unfold collect
    split_ifs with h
    · obtain ⟨h1, h2, h3⟩ := ih h
      exact ⟨h1, h2.trans (Nat.le_succ _), h3⟩
    · exact ⟨hw, le_refl _, le_extend (d :: ds) w⟩

theorem digit_lt {c : Char} (hc : isDigit c = true) : digit c < 10 := by
  simp only [isDigit, Bool.and_eq_true, decide_eq_true_eq] at hc
  have hle : c.toNat ≤ '9'.toNat := hc.2
  unfold digit
  have h9 : '9'.toNat = 57 := rfl
  have h0 : '0'.toNat = 48 := rfl
  omega

/-- All digits are collected if the word stays below the bound. -/
theorem collect_of_lt {bound : ℕ} {ds : List ℕ} {w : ℕ} (h : extend w ds < bound) :
    collect bound w ds = (extend w ds, 0) := by
  induction ds generalizing w with
  | nil => rfl
  | cons d ds ih =>
    have hw : w * 10 + d < bound :=
      (Nat.le_mul_of_pos_right _ (Nat.pow_pos (by decide))).trans_lt ((le_extend ds _).trans_lt h)
    unfold collect
    rw [if_pos hw]
    exact ih h

theorem extend_digitText (n : ℕ) : extend 0 ((digitText n).map digit) = n := by
  have h : Nat.ofDigitChars 10 (Nat.toDigits 10 n) 0 = n :=
    Nat.ofDigitChars_toDigits (by decide) (le_refl 10)
  unfold extend
  rw [List.foldl_map]
  simp only [Nat.ofDigitChars, mul_comm] at h
  exact h

/-- A whole number below the bound of a word is read as itself. -/
theorem value_digitText {n : ℕ} (hn : n < UInt64.size) :
    (Parts.numeral ⟨false, digitText n, none, none⟩).value = .ok (.integer n) := by
  have hcollect : collect UInt64.size 0 ((digitText n).map digit) = (n, 0) := by
    rw [collect_of_lt] <;> rw [extend_digitText]
    exact hn
  unfold value Parts.numeral
  dsimp only [Option.map_none]
  rw [hcollect]
  rfl

/-- The parts of a text of digits. -/
theorem proper_digitText (negative : Bool) (n : ℕ) :
    Parts.Proper ⟨negative, digitText n, none, none⟩ := by
  refine ⟨digits_digitText n, ?_, ?_, ?_⟩
  · rcases eq_or_ne n 0 with h0 | h0
    · left
      rw [h0, digitText_zero]
    · exact noZero_of_prefix h0 rfl
  · rintro f ⟨⟩
  · rintro e ⟨⟩

theorem Parts.Proper.signed {p : Parts} (hp : p.Proper) (negative : Bool) :
    Parts.Proper { p with negative } :=
  ⟨hp.whole, hp.noZero, hp.fraction, hp.exponent⟩

theorem Parts.text_signed {p : Parts} (hp : p.negative = false) (negative : Bool) :
    Parts.text { p with negative } = (if negative then ['-'] else []) ++ p.text := by
  simp [Parts.text, hp]

/-! ### The value of parts -/

namespace Parts

/-- The digits before the exponent. -/
def digits (p : Parts) : List ℕ := (p.whole ++ p.fraction.getD []).map digit

def power (p : Parts) : ℤ :=
  match p.exponent with
  | none => 0
  | some (negative, e) => if negative then -extend 0 (e.map digit) else extend 0 (e.map digit)

/-- The power of ten of the last digit before the exponent. -/
def shift (p : Parts) : ℤ := p.power - (p.fraction.getD []).length

/-- The number that the parts are those of, apart from the sign. -/
def value (p : Parts) : ℚ := extend 0 p.digits * 10 ^ p.shift

end Parts

theorem value_placeParts (d : Decimal) : (placeParts d).value = d.value := by
  have hzeros : ∀ n, (List.replicate n '0').map digit = List.replicate n 0 := fun n => by
    rw [List.map_replicate]
    rfl
  unfold placeParts Decimal.value
  dsimp only
  split_ifs with h1 h2
  · have hextend : extend 0 ((digitText d.digits ++ List.replicate d.exponent.toNat '0'
        ++ ['0']).map digit) = d.digits * 10 ^ d.exponent.toNat * 10 := by
      rw [List.map_append, List.map_append, extend_append, extend_append, extend_digitText, hzeros,
        extend_replicate_zero]
      rfl
    have hpow : (10 : ℚ) ^ d.exponent = 10 ^ d.exponent.toNat := by
      rw [← zpow_natCast, Int.toNat_of_nonneg h1]
    unfold Parts.value Parts.digits Parts.shift Parts.power
    dsimp only [Option.getD_some]
    rw [hextend, hpow, show (0 : ℤ) - (['0'].length : ℕ) = -1 from rfl, zpow_neg_one]
    push_cast
    field_simp
  · unfold Parts.value Parts.digits Parts.shift Parts.power
    dsimp only [Option.getD_some]
    rw [List.take_append_drop, extend_digitText, List.length_drop]
    congr 2
    omega
  · have hextend : extend 0 ((['0'] ++ (List.replicate ((-d.exponent).toNat
        - (digitText d.digits).length) '0' ++ digitText d.digits)).map digit) = d.digits := by
      have hzero : extend 0 (['0'].map digit) = 0 := rfl
      rw [List.map_append, List.map_append, hzeros, extend_append, extend_append, hzero,
        extend_replicate_zero, Nat.zero_mul, extend_digitText]
    unfold Parts.value Parts.digits Parts.shift Parts.power
    dsimp only [Option.getD_some]
    rw [hextend, List.length_append, List.length_replicate]
    congr 2
    omega

theorem power_powerParts (d : Decimal) : (powerParts d).power = d.leading := by
  unfold Parts.power powerParts
  dsimp only
  rw [extend_digitText]
  split_ifs with h
  · have : d.leading < 0 := of_decide_eq_true h
    omega
  · have : ¬ d.leading < 0 := of_decide_eq_false (Bool.not_eq_true _ ▸ h)
    omega

theorem value_powerParts (d : Decimal) : (powerParts d).value = d.value := by
  have hfraction : (powerParts d).fraction.getD [] = (digitText d.digits).drop 1 := by
    unfold powerParts
    dsimp only
    split_ifs with h
    · rw [h]
      rfl
    · rfl
  have hlength := length_digitText_pos d.digits
  unfold Parts.value Parts.digits Parts.shift
  rw [power_powerParts, hfraction, show (powerParts d).whole = (digitText d.digits).take 1 from rfl,
    List.take_append_drop, extend_digitText, List.length_drop, Decimal.value]
  congr 2
  unfold leading
  omega

end Json.Numeral

namespace Json

open Numeral

/-- The parts of a machine number's text, apart from the sign. -/
def floatParts (x : Float) : Parts :=
  let d := NumberStyle.trimmed (Decimal.shortest style.tie (.ofFloat x))
  if style.positional d.leading then placeParts d else powerParts d

/-- The parts are those of a decimal with the value of the shortest one, in one of two layouts. -/
theorem exists_floatParts (x : Float) : ∃ d : Decimal, d.Normal
    ∧ d.value = (Decimal.shortest style.tie (.ofFloat x)).value ∧ d.leading.natAbs ≤ 1076
    ∧ (floatParts x = placeParts d ∧ d.leading ≤ 15 ∨ floatParts x = powerParts d) := by
  have hbounded := Magnitude.bounded_ofFloat x
  refine ⟨_, Decimal.normal_trimmed (Decimal.normal_shortest hbounded style.tie),
    Decimal.value_trimmed _, Decimal.natAbs_leading_le hbounded style.tie, ?_⟩
  unfold floatParts
  dsimp only
  split_ifs with h
  · unfold style at h
    simp only [Bool.and_eq_true, decide_eq_true_eq] at h
    exact .inl ⟨rfl, h.2⟩
  · exact .inr rfl

theorem proper_floatParts (x : Float) : (floatParts x).Proper := by
  obtain ⟨d, hnormal, -, -, ⟨hparts, -⟩ | hparts⟩ := exists_floatParts x
  · rw [hparts]
    exact proper_placeParts hnormal
  · rw [hparts]
    exact proper_powerParts d

theorem negative_floatParts (x : Float) : (floatParts x).negative = false := by
  unfold floatParts placeParts powerParts
  dsimp only
  split_ifs <;> rfl

theorem text_floatParts (x : Float) : (floatParts x).text
    = style.decimalText (Decimal.shortest style.tie (.ofFloat x)) := by
  unfold floatParts NumberStyle.decimalText
  dsimp only
  split_ifs
  · exact text_placeParts _
  · exact text_powerParts _

namespace Number

/-- The parts of a number's text. What is no number is written as null and has none. -/
def parts : Number → Option Parts
  | integer n => some ⟨decide (n < 0), Decimal.digitText n.natAbs, none, none⟩
  | float x =>
    if x.isNaN || x.isInf then none
    else some { floatParts x with negative := decide (x.toBits.toNat / Nat.pow 2 63 = 1) }

theorem proper_parts {n : Number} {p : Parts} (hp : n.parts = some p) : p.Proper := by
  rcases n with n | x
  · obtain rfl := Option.some.inj hp
    exact proper_digitText _ _
  · unfold parts at hp
    dsimp only at hp
    split_ifs at hp
    obtain rfl := Option.some.inj hp
    exact (proper_floatParts x).signed _

theorem text_eq (n : Number) : n.text = (n.parts.map Parts.text).getD "null".toList := by
  rcases n with n | x
  · unfold text parts
    by_cases h : n < 0 <;>
      simp [h, Parts.text, Parts.fractionText, Parts.exponentText, natText, Decimal.digitText]
  · unfold text parts
    dsimp only
    by_cases h : (x.isNaN || x.isInf) = true
    · rw [if_pos h, if_pos h]
      rfl
    · rw [if_neg h, if_neg h]
      simp only [Bool.or_eq_true, not_or, Bool.not_eq_true] at h
      have htext := Parts.text_signed (negative_floatParts x)
        (decide (x.toBits.toNat / Nat.pow 2 63 = 1))
      simp only [Option.map_some, Option.getD_some]
      rw [htext, text_floatParts]
      unfold NumberStyle.text
      simp only [h.1, h.2, Bool.false_eq_true, if_false, decide_eq_true_eq]

end Number

end Json

end MatrixFree
