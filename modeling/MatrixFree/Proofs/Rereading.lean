import MatrixFree.Proofs.Forms
import MatrixFree.Proofs.MachineNumbers

/-!
# Machine numbers read from their texts

The text of every finite machine number is read back as some machine number
(`Form.exists_reread`), and as that number if the text is short (`Form.reread_eq_self_of_short`).
Digits that do not fit a word are dropped, so what is scaled lies below the midpoint above the
number. Scaling rounds three times, which can lead to infinity from the two largest numbers only.
-/

namespace MatrixFree

open Rounding

namespace Json.Numeral

/-! ### Scaling -/

theorem power_eq (e : ℕ) : power e = .ofModel (.ofScientific 1 e) := by
  rcases lt_or_ge e 23 with h | h
  · have hfast : ∀ e < 23, power e = .ofModel (.ofScientific 1 (e : ℕ)) := by decide +kernel
    exact hfast e h
  · unfold power Float.ofScientific
    rw [dif_neg (by omega)]
    rfl

theorem exists_power {e : ℕ} (he : e ≤ 308) :
    ∃ m t, Is (power e) m t ∧ Close (m * 2 ^ t) (10 ^ e) := by
  have hrounds : RoundsTo (power e) (10 ^ e) := ⟨_, rounds_ofScientific (by omega), power_eq e⟩
  obtain ⟨m, t, his, -, hclose⟩ := hrounds.exists_is
    (two_zpow_le_one.trans (one_le_pow₀ (by norm_num))) (ten_pow_lt he)
  exact ⟨m, t, his, hclose⟩

theorem exists_toFloat {w : ℕ} (h0 : 0 < w) (hw : w < UInt64.size) :
    ∃ m t, Is (UInt64.ofNat w).toFloat m t ∧ 2 ^ 52 ≤ m ∧ Close (m * 2 ^ t) w := by
  have hlt : (w : ℚ) < overflow := by
    have hten : (w : ℚ) ≤ ((10 ^ 20 : ℕ) : ℚ) := Nat.cast_le.2 (hw.le.trans (by decide))
    rw [Nat.cast_pow, Nat.cast_ofNat] at hten
    exact hten.trans_lt (ten_pow_lt (by decide))
  exact (roundsTo_toFloat h0 hw).exists_is (two_zpow_le_one.trans (Nat.one_le_cast.2 h0)) hlt

/-- A word times a power of ten does not become infinite while their exact product is in reach. -/
theorem isInf_mul_power {w e : ℕ} (hw : w < UInt64.size) (he : e ≤ 308)
    (h : (w * 10 ^ e : ℚ) ≤ reach) : ((UInt64.ofNat w).toFloat * power e).isInf = false := by
  obtain ⟨m', t', hpower, hclose'⟩ := exists_power he
  rcases Nat.eq_zero_or_pos w with rfl | h0
  · obtain ⟨h0', hc', hx'⟩ := hpower
    have hzero : (UInt64.ofNat 0).toFloat.toModel.unpack = .zero .positive := by
      rw [unpack_eq (by decide +kernel), dif_pos (by decide +kernel)]
      rfl
    have hpower := unpack_pack (s := .positive) h0' hc'
    have hproduct := congrArg₂ (fun u v => Float.ofModel (.pack (Float.Model.UnpackedFloat.mul
      Float.Model.Format.binary64 u v))) hzero hpower
    have hinf : (Float.ofModel (.pack (.zero .positive))).isInf = false := by decide +kernel
    rw [hx']
    exact (congrArg Float.isInf hproduct).trans hinf
  · obtain ⟨m, t, hword, hm, hclose⟩ := exists_toFloat h0 hw
    have hlt := hclose.mul_lt hclose' (by positivity) (by positivity) h
    have hge := mul_le_mul (hclose.half_le (Nat.one_le_cast.2 h0))
      (hclose'.half_le (one_le_pow₀ (by norm_num))) (by norm_num) (by positivity)
    have hmin : (2 : ℚ) ^ (-1022 : ℤ) ≤ 1 / 2 * (1 / 2) := by
      calc (2 : ℚ) ^ (-1022 : ℤ) ≤ 2 ^ (-2 : ℤ) := zpow_le_zpow_right₀ one_le_two (by norm_num)
        _ = 1 / 2 * (1 / 2) := by norm_num
    obtain ⟨_, _, his, -⟩ := (RoundsTo.mul hword hpower hm).exists_is (hmin.trans hge) hlt
    exact (isInf_eq_false his.isFinite).2

/-- A word with a power of ten has a value while the exact one is in reach. -/
theorem scale_eq_ok {w e : ℕ} (hw : w < UInt64.size) (h : (w * 10 ^ e : ℚ) ≤ reach) :
    ∃ y, scale (UInt64.ofNat w).toFloat (e : ℤ) = .ok y := by
  unfold scale
  rw [Int.natAbs_natCast]
  rcases le_or_gt e 308 with he | he
  · rw [if_pos he, if_pos (by omega)]
    dsimp only
    rw [isInf_mul_power hw he h]
    exact ⟨_, rfl⟩
  · rcases Nat.eq_zero_or_pos w with rfl | h0
    · rw [if_neg (by omega), if_pos (by decide)]
      exact ⟨_, rfl⟩
    · have hle : (10 : ℚ) ^ 309 ≤ w * 10 ^ e := by
        calc (10 : ℚ) ^ 309 ≤ 10 ^ e := pow_le_pow_right₀ (by norm_num) he
          _ ≤ w * 10 ^ e := le_mul_of_one_le_left (by positivity) (Nat.one_le_cast.2 h0)
      exact absurd (hle.trans h) (not_le.2 reach_lt)

theorem scale_eq_ok_of_neg (x : Float) {e : ℤ} (he : e < 0) : ∃ y, scale x e = .ok y := by
  fun_induction scale x e with
  | case1 => omega
  | case2 => omega
  | case3 => exact ⟨_, rfl⟩
  | case4 => exact ⟨_, rfl⟩
  | case5 => omega
  | case6 x e _ _ _ ih => exact ih (by omega)

/-- A word with a power of ten, of either sign, has a value while the exact one is in reach. -/
theorem exists_scale {w : ℕ} {s : ℤ} (hw : w < UInt64.size) (h : (w * 10 ^ s : ℚ) ≤ reach) :
    ∃ y, scale (UInt64.ofNat w).toFloat s = .ok y := by
  rcases lt_or_ge s 0 with hs | hs
  · exact scale_eq_ok_of_neg _ hs
  · obtain ⟨e, rfl⟩ := Int.eq_ofNat_of_zero_le hs
    rw [zpow_natCast] at h
    exact scale_eq_ok hw h

theorem power_exact {e : ℕ} (he : e ≤ 22) :
    ∃ m t, Is (power e) m t ∧ 2 ^ 52 ≤ m ∧ (m * 2 ^ t : ℚ) = 10 ^ e := by
  have hfive : 5 ^ e < 2 ^ 53 := (Nat.pow_le_pow_right (by decide) he).trans_lt (by decide)
  obtain ⟨m, t, hc, hm, hvalue⟩ := exists_canonical (Nat.pow_pos (by decide)) hfive
    (show e ≤ 971 by omega)
  have hten : (m * 2 ^ t : ℚ) = 10 ^ e := by
    rw [hvalue, Nat.cast_pow, ← mul_pow]
    norm_num
  have hrounds : RoundsTo (power e) (10 ^ e) := ⟨_, rounds_ofScientific (by omega), power_eq e⟩
  rw [← hten] at hrounds
  exact ⟨m, t, hrounds.is_of_canonical hc hm, hm, hten⟩

theorem toFloat_exact {w : ℕ} (h0 : 0 < w) (hw : w < 2 ^ 53) :
    ∃ m t, Is (UInt64.ofNat w).toFloat m t ∧ 2 ^ 52 ≤ m ∧ (m * 2 ^ t : ℚ) = w := by
  obtain ⟨m, t, hc, hm, hvalue⟩ := exists_canonical h0 hw (Nat.zero_le 971)
  rw [pow_zero, mul_one] at hvalue
  have hrounds := roundsTo_toFloat h0 (hw.trans (by decide))
  rw [← hvalue] at hrounds
  exact ⟨m, t, hrounds.is_of_canonical hc hm, hm, hvalue⟩

/-- A word and a power of ten that are held exactly are scaled by one exact step and rounded once,
so a decimal that reads back gives the number that it reads back as. -/
theorem scale_of_holds {w : ℕ} {s : ℤ} (h0 : 0 < w) (hw : w < 2 ^ 53) (hs : s.natAbs ≤ 22)
    {m : ℕ} {e : ℤ} (hm : 0 < m) (hc : Canonical m e)
    (hholds : (Decimal.Interval.ofMagnitude ⟨m, e⟩).holds w s = true) :
    ∃ y, scale (UInt64.ofNat w).toFloat s = .ok y ∧ Is y m e := by
  obtain ⟨a, b, hword, ha, hwordvalue⟩ := toFloat_exact h0 hw
  obtain ⟨a', b', hpower, ha', hpowervalue⟩ := power_exact hs
  unfold scale
  rw [if_pos (by omega)]
  rcases lt_or_ge s 0 with hneg | hpos
  · have hrounds := RoundsTo.div hword hpower ha ha'
    have hvalue : (w / 10 ^ s.natAbs : ℚ) = w * 10 ^ s := by
      rw [div_eq_mul_inv, ← zpow_natCast, ← zpow_neg]
      congr 2
      omega
    rw [hwordvalue, hpowervalue, hvalue] at hrounds
    rw [if_neg (by omega)]
    exact ⟨_, rfl, hrounds.is_of_holds hm hc hholds⟩
  · have hrounds := RoundsTo.mul hword hpower ha
    have hvalue : (w * 10 ^ s.natAbs : ℚ) = w * 10 ^ s := by
      rw [← zpow_natCast]
      congr 2
      omega
    rw [hwordvalue, hpowervalue, hvalue] at hrounds
    have his := hrounds.is_of_holds hm hc hholds
    rw [if_pos hpos]
    dsimp only
    rw [(isInf_eq_false his.isFinite).2]
    exact ⟨_, rfl, his⟩

/-! ### The value of parts -/

theorem Parts.floatValue_numeral {p : Parts} (hp : p.power.natAbs < 2 ^ 31) (w : ℕ) (s : ℤ) :
    p.numeral.floatValue w s
      = signed p.negative <$> scale (UInt64.ofNat w).toFloat (s + p.power) := by
  rcases p with ⟨negative, whole, fraction, _ | ⟨down, e⟩⟩
  · unfold floatValue numeral power
    dsimp only [Option.map_none]
    rw [add_zero]
    rfl
  · have hcollect : collect (Nat.pow 2 31) 0 (e.map digit) = (extend 0 (e.map digit), 0) := by
      refine collect_of_lt (lt_of_eq_of_lt ?_ hp)
      unfold power
      cases down <;> simp
    unfold floatValue numeral power
    dsimp only [Option.map_some]
    rw [hcollect]
    cases down
    · rfl
    · rfl

theorem value_of_real {n : Numeral} (h : n.fraction ≠ none ∨ n.exponent ≠ none) {whole : ℕ}
    (hwhole : collect UInt64.size 0 n.whole = (whole, 0)) {word left : ℕ}
    (hplaces : collect UInt64.size whole (n.fraction.getD []) = (word, left)) :
    n.value = .float <$> n.floatValue word (0 - ((n.fraction.getD []).length - left : ℕ)) := by
  unfold value
  rw [hwhole]
  dsimp only
  rcases n with ⟨negative, whole, _ | f, _ | e⟩
  · simp at h
  · dsimp only
    rw [hplaces]
    rfl
  · dsimp only
    rw [hplaces]
    rfl
  · dsimp only
    rw [hplaces]
    rfl

/-- The parts of a number that is read as a machine number. Its whole part and its exponent are
short enough to be words. -/
structure Parts.Real (p : Parts) : Prop where
  proper : p.Proper
  whole : p.whole.length ≤ 16
  power : p.power.natAbs < 2 ^ 31
  parts : p.fraction ≠ none ∨ p.exponent ≠ none

namespace Parts.Real

variable {p : Parts}

theorem signed (hp : p.Real) (negative : Bool) : Parts.Real { p with negative } :=
  ⟨hp.proper.signed negative, hp.whole, hp.power, hp.parts⟩

theorem extend_whole_lt (hp : p.Real) : extend 0 (p.whole.map digit) < UInt64.size := by
  have hdigits : ∀ d ∈ p.whole.map digit, d < 10 := by
    intro d hd
    obtain ⟨c, hc, rfl⟩ := List.mem_map.1 hd
    exact digit_lt (hp.proper.whole.isDigit c hc)
  calc extend 0 (p.whole.map digit) < (0 + 1) * 10 ^ (p.whole.map digit).length :=
        extend_lt hdigits 0
    _ ≤ 1 * 10 ^ 16 := Nat.mul_le_mul_left _
        (Nat.pow_le_pow_right (by decide) (by rw [List.length_map]; exact hp.whole))
    _ < UInt64.size := by decide

/-- The number is read as a word, which is its digits but for those that are left over, times a
power of ten. -/
theorem exists_word (hp : p.Real) : ∃ word left : ℕ, word < UInt64.size
    ∧ word * 10 ^ left ≤ extend 0 p.digits
    ∧ (extend 0 p.digits < UInt64.size → word = extend 0 p.digits ∧ left = 0)
    ∧ p.numeral.value = .float <$> Numeral.signed p.negative <$>
        scale (UInt64.ofNat word).toFloat (p.shift + left) := by
  have hwhole : collect UInt64.size 0 p.numeral.whole = (extend 0 (p.whole.map digit), 0) :=
    collect_of_lt hp.extend_whole_lt
  obtain ⟨places, hplaces⟩ : ∃ ds, p.numeral.fraction.getD [] = ds := ⟨_, rfl⟩
  have hfraction : places = (p.fraction.getD []).map digit := by
    rw [← hplaces]
    rcases p with ⟨_, _, _ | f, _⟩ <;> rfl
  have hdigits : extend (extend 0 (p.whole.map digit)) places = extend 0 p.digits := by
    rw [hfraction, Parts.digits, List.map_append, extend_append]
  obtain ⟨hword, hleft, hle⟩ := collect_le UInt64.size places hp.extend_whole_lt
  obtain ⟨⟨word, left⟩, hfound⟩ :
      ∃ r, collect UInt64.size (extend 0 (p.whole.map digit)) places = r := ⟨_, rfl⟩
  rw [hfound] at hword hleft hle
  rw [hdigits] at hle
  dsimp only at hword hleft hle
  refine ⟨word, left, hword, hle, fun hlt => ?_, ?_⟩
  · rw [← hdigits] at hlt ⊢
    rw [collect_of_lt hlt] at hfound
    exact ⟨(Prod.mk.inj hfound).1.symm, (Prod.mk.inj hfound).2.symm⟩
  · have hparts : p.numeral.fraction ≠ none ∨ p.numeral.exponent ≠ none := by
      simpa [Parts.numeral] using hp.parts
    have hlength : places.length = (p.fraction.getD []).length := by
      rw [hfraction, List.length_map]
    have hshift : 0 - ((places.length - left : ℕ) : ℤ) + p.power = p.shift + left := by
      unfold Parts.shift
      omega
    rw [value_of_real hparts hwhole (hplaces ▸ hfound), hplaces, Parts.floatValue_numeral hp.power,
      hshift]

/-- The number has a value while it is in reach. -/
theorem exists_value (hp : p.Real) (hv : p.value ≤ reach) :
    ∃ y, p.numeral.value = .ok (.float y) := by
  obtain ⟨word, left, hword, hle, -, hvalue⟩ := hp.exists_word
  have hreach : (word * 10 ^ (p.shift + left) : ℚ) ≤ reach := by
    calc (word * 10 ^ (p.shift + left) : ℚ) = (word * 10 ^ left : ℕ) * 10 ^ p.shift := by
          rw [add_comm, zpow_add₀ (by norm_num), zpow_natCast]
          push_cast
          ring
      _ ≤ p.value := mul_le_mul_of_nonneg_right (Nat.cast_le.2 hle) (by positivity)
      _ ≤ reach := hv
  obtain ⟨y, hy⟩ := exists_scale hword hreach
  rw [hvalue, hy]
  exact ⟨_, rfl⟩

/-- A number of few digits and a small power of ten is read as the number that it reads back
as. -/
theorem value_of_holds (hp : p.Real) (h0 : 0 < extend 0 p.digits)
    (hdigits : extend 0 p.digits < 2 ^ 53) (hshift : p.shift.natAbs ≤ 22) {m : ℕ} {e : ℤ}
    (hm : 0 < m) (hc : Canonical m e)
    (hholds : (Decimal.Interval.ofMagnitude ⟨m, e⟩).holds (extend 0 p.digits) p.shift = true) :
    ∃ y, p.numeral.value = .ok (.float (Numeral.signed p.negative y)) ∧ Is y m e := by
  obtain ⟨word, left, -, -, hexact, hvalue⟩ := hp.exists_word
  obtain ⟨rfl, rfl⟩ := hexact (hdigits.trans (by decide))
  obtain ⟨y, hy, his⟩ := scale_of_holds h0 hdigits hshift hm hc hholds
  rw [Nat.cast_zero, add_zero, hy] at hvalue
  exact ⟨y, hvalue, his⟩

end Parts.Real

/-! ### The parts of a machine number -/

theorem length_whole_placeParts {d : Decimal} (hd : d.leading ≤ 15) :
    (placeParts d).whole.length ≤ 16 := by
  have hlength := Decimal.length_digitText_pos d.digits
  unfold Decimal.leading at hd
  unfold placeParts
  dsimp only
  split_ifs
  · rw [List.length_append, List.length_replicate]
    omega
  · rw [List.length_take]
    omega
  · exact Nat.le_add_left 1 15

theorem power_placeParts (d : Decimal) : (placeParts d).power = 0 := by
  unfold placeParts
  dsimp only
  split_ifs <;> rfl

theorem Parts.real_placeParts {d : Decimal} (hd : d.Normal) (hleading : d.leading ≤ 15) :
    (placeParts d).Real where
  proper := proper_placeParts hd
  whole := length_whole_placeParts hleading
  power := by
    rw [power_placeParts]
    decide
  parts := by
    unfold placeParts
    dsimp only
    split_ifs <;> exact .inl (Option.some_ne_none _)

theorem Parts.real_powerParts {d : Decimal} (hleading : d.leading.natAbs ≤ 1076) :
    (powerParts d).Real where
  proper := proper_powerParts d
  whole := (List.length_take_le 1 _).trans (by decide)
  power := power_powerParts d ▸ hleading.trans_lt (by decide)
  parts := .inr (Option.some_ne_none _)

end Json.Numeral

namespace Json

open Numeral

theorem real_floatParts (x : Float) : (floatParts x).Real := by
  obtain ⟨d, hnormal, -, hleading, ⟨hparts, hplaces⟩ | hparts⟩ := exists_floatParts x
  · rw [hparts]
    exact Parts.real_placeParts hnormal hplaces
  · rw [hparts]
    exact Parts.real_powerParts hleading

theorem value_floatParts (x : Float) :
    (floatParts x).value = (Decimal.shortest style.tie (.ofFloat x)).value := by
  obtain ⟨d, -, hvalue, -, ⟨hparts, -⟩ | hparts⟩ := exists_floatParts x
  · rw [hparts, value_placeParts, hvalue]
  · rw [hparts, value_powerParts, hvalue]

/-- The midpoints above all numbers but the two largest are in reach. -/
theorem value_floatParts_le {x : Float} (hx : x.isFinite = true)
    (h : x.toBits.toNat % 2 ^ 63 < 0x7feffffffffffffe) : (floatParts x).value ≤ reach := by
  have hfield := isFinite_iff.1 hx
  obtain ⟨m, e, hm, hcases⟩ : ∃ m e, Magnitude.ofFloat x = ⟨m, e⟩
      ∧ (e ≤ 970 ∧ m < 2 ^ 53 ∨ e = 971 ∧ m + 3 ≤ 2 ^ 53) := by
    rcases eq_or_ne (x.toBits.toNat / 2 ^ 52 % 2 ^ 11) 0 with h0 | h0
    · exact ⟨_, _, ofFloat_of_eq_zero h0, by omega⟩
    · exact ⟨_, _, ofFloat_of_ne_zero h0, by omega⟩
  have hle := Decimal.value_shortest_le (Magnitude.bounded_ofFloat x) style.tie
  rw [value_floatParts]
  refine hle.trans ?_
  have hmid : (Magnitude.ofFloat x).value + 2 ^ ((Magnitude.ofFloat x).exponent - 1)
      = (m + 1 / 2) * 2 ^ e := by
    rw [hm, Magnitude.value, zpow_sub₀ two_ne_zero]
    ring
  rw [hmid]
  unfold reach
  rcases hcases with ⟨he, hlt⟩ | ⟨rfl, hlt⟩
  · have hhalf : (m : ℚ) + 1 / 2 ≤ 2 ^ 53 := by
      have : (m : ℚ) + 1 ≤ 2 ^ 53 := by exact_mod_cast hlt
      linarith
    calc ((m : ℚ) + 1 / 2) * 2 ^ e ≤ 2 ^ 53 * 2 ^ (970 : ℤ) :=
          mul_le_mul hhalf (zpow_le_zpow_right₀ one_le_two he) (by positivity) (by positivity)
      _ = 2 ^ 52 * 2 ^ (971 : ℤ) := by
          rw [show (971 : ℤ) = 970 + 1 from rfl, zpow_add_one₀ two_ne_zero]
          ring
      _ ≤ (2 ^ 53 - 5 / 2) * 2 ^ (971 : ℤ) :=
          mul_le_mul_of_nonneg_right (by norm_num) (by positivity)
  · have hhalf : (m : ℚ) + 1 / 2 ≤ 2 ^ 53 - 5 / 2 := by
      have : (m : ℚ) + 3 ≤ 2 ^ 53 := by exact_mod_cast hlt
      linarith
    exact mul_le_mul_of_nonneg_right hhalf (by positivity)

end Json

namespace Form

open Json

/-- The parts of a number's text, with its sign. -/
def partsOf (x : Float) : Numeral.Parts :=
  { floatParts x with negative := decide (x.toBits.toNat / Nat.pow 2 63 = 1) }

theorem real_partsOf (x : Float) : (partsOf x).Real := (real_floatParts x).signed _

theorem reread_of_value {x y : Float} (hx : x.isFinite = true)
    (h : (partsOf x).numeral.value = .ok (.float y)) : reread x = .ok y := by
  obtain ⟨hnan, hinf⟩ := isInf_eq_false hx
  have hparts : (Number.float x).parts = some (partsOf x) := by
    unfold Number.parts
    dsimp only
    rw [hnan, hinf]
    rfl
  have hdoc : (Number.float x).doc = .number (.ok (.float y)) none := by
    unfold Number.doc
    rw [hparts]
    dsimp only
    rw [h]
  unfold reread ofFloat
  rw [Reader.readText_text Reader.float Layout.blank_compact, Value.toDoc, hdoc]
  rfl

/-- The text of every finite machine number is read back as a machine number. -/
theorem exists_reread {x : Float} (hx : x.isFinite = true) : ∃ y, reread x = .ok y := by
  rcases lt_or_ge (x.toBits.toNat % 2 ^ 63) 0x7feffffffffffffe with h | h
  · obtain ⟨y, hy⟩ := (real_partsOf x).exists_value (value_floatParts_le hx h)
    exact ⟨y, reread_of_value hx hy⟩
  · -- the two largest numbers of either sign
    have hfield := isFinite_iff.1 hx
    have hbits := x.toBits.toNat_lt
    have hcases : x.toBits.toNat = 0x7feffffffffffffe ∨ x.toBits.toNat = 0x7fefffffffffffff
        ∨ x.toBits.toNat = 0xffeffffffffffffe ∨ x.toBits.toNat = 0xffefffffffffffff := by
      omega
    have hclosed : ∀ {b : UInt64}, (Float.ofBits b).toBits = b
        ∧ (reread (Float.ofBits b)).isOk = true → x.toBits.toNat = b.toNat →
          (reread x).isOk = true := by
      rintro b ⟨hb, hok⟩ hx
      rwa [ofModel_inj (hx.trans (congrArg UInt64.toNat hb.symm))]
    have hok : (reread x).isOk = true := by
      rcases hcases with h | h | h | h
      · exact @hclosed 0x7feffffffffffffe (by decide +kernel) h
      · exact @hclosed 0x7fefffffffffffff (by decide +kernel) h
      · exact @hclosed 0xffeffffffffffffe (by decide +kernel) h
      · exact @hclosed 0xffefffffffffffff (by decide +kernel) h
    rcases hr : reread x with f | y
    · rw [hr] at hok
      cases hok
    · exact ⟨y, rfl⟩

/-- The digits of the number's text fit a mantissa, and the power of ten of the last of them can be
held exactly. -/
def Short (x : Float) : Prop :=
  Numeral.extend 0 (partsOf x).digits < 2 ^ 53 ∧ (partsOf x).shift.natAbs ≤ 22

instance (x : Float) : Decidable (Short x) := inferInstanceAs (Decidable (_ ∧ _))

theorem signed_is {x y : Float} (hx : x.isFinite = true)
    (h : Is y (Magnitude.ofFloat x).mantissa (Magnitude.ofFloat x).exponent) :
    Numeral.signed (partsOf x).negative y = x := by
  have hfield := isFinite_iff.1 hx
  have hpack := pack_unpack hfield h.pos
  have hneg := neg_pack h.pos h.canonical
  unfold Numeral.signed partsOf
  dsimp only
  rw [h.eq]
  by_cases hs : x.toBits.toNat / Nat.pow 2 63 = 1
  · rw [show signOf x = .negative from if_pos hs] at hpack
    rw [if_pos (decide_eq_true hs), hneg, hpack]
  · rw [show signOf x = .positive from if_neg hs] at hpack
    rw [if_neg (Bool.not_eq_true _ ▸ decide_eq_false hs), hpack]

/-- A number with a short text comes back from it. -/
theorem reread_eq_self_of_short {x : Float} (hx : x.isFinite = true) (h : Short x) :
    reread x = .ok x := by
  have hbounded := Magnitude.bounded_ofFloat x
  have hfield := isFinite_iff.1 hx
  rcases Nat.eq_zero_or_pos (Magnitude.ofFloat x).mantissa with h0 | h0
  · -- either zero
    have hbits : x.toBits.toNat % 2 ^ 63 = 0 := by
      rcases eq_or_ne (x.toBits.toNat / 2 ^ 52 % 2 ^ 11) 0 with h | h
      · rw [ofFloat_of_eq_zero h] at h0
        dsimp only at h0
        omega
      · rw [ofFloat_of_ne_zero h] at h0
        dsimp only at h0
        omega
    have hlt := x.toBits.toNat_lt
    have hcases : x.toBits.toNat = 0 ∨ x.toBits.toNat = 0x8000000000000000 := by omega
    rcases hcases with hzero | hzero
    · rw [ofModel_inj (y := Float.ofBits 0) hzero]
      decide +kernel
    · rw [ofModel_inj (y := Float.ofBits 0x8000000000000000) hzero]
      decide +kernel
  · have hvalue : (partsOf x).value = (Decimal.shortest style.tie (.ofFloat x)).value :=
      value_floatParts x
    have hholds := Decimal.Interval.holds_congr Decimal.den_ofMagnitude_pos hvalue.symm
      (Decimal.holds_shortest hbounded h0 style.tie)
    have hdigits : 0 < Numeral.extend 0 (partsOf x).digits := by
      have hpos := (zpow_pos (two_pos : (0 : ℚ) < 2) _).trans_le
        (Decimal.le_value_shortest hbounded h0 style.tie)
      rw [← hvalue, Numeral.Parts.value] at hpos
      exact_mod_cast (mul_pos_iff_of_pos_right (by positivity)).1 hpos
    obtain ⟨y, hy, his⟩ := (real_partsOf x).value_of_holds hdigits h.1 h.2 h0
      (canonical_ofFloat hfield) hholds
    rw [reread_of_value hx hy, signed_is hx his]

end Form

end MatrixFree
