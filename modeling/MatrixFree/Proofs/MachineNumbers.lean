import MatrixFree.Proofs.Rounding
import MatrixFree.Proofs.ShortestDecimals

/-!
# Machine numbers

A finite machine number is its sign, mantissa and exponent, packed (`Rounding.unpack_eq`,
`Rounding.pack_unpack`). A result between the smallest normal number and the midpoint above the
largest is rounded to a normal number close by (`Rounding.RoundsTo.exists_is`), and a decimal that
reads back as a number is rounded to that number (`Rounding.RoundsTo.is_of_holds`).
-/

namespace MatrixFree.Rounding

open Float.Model (Format totalExponent UnpackedFloat)
open Float.Model.UnpackedFloat

/-! ### Bits -/

/-- The mantissa and exponent of a number that is held as it is. -/
structure Canonical (m : ℕ) (e : ℤ) : Prop where
  mantissa_lt : m < 2 ^ 53
  exponent_ge : -1074 ≤ e
  exponent_le : e ≤ 971
  normal : -1074 < e → 2 ^ 52 ≤ m

theorem toNat_unpackMantissa (b : BitVec 64) :
    (@unpackMantissa Format.binary64 b).toNat = b.toNat % 2 ^ 52 := by
  unfold unpackMantissa
  simp [BitVec.extractLsb]

theorem toNat_unpackExponent (b : BitVec 64) :
    (@unpackExponent Format.binary64 b).toNat = b.toNat / 2 ^ 52 % 2 ^ 11 := by
  unfold unpackExponent
  simp [BitVec.extractLsb, Nat.shiftRight_eq_div_pow]

theorem toNat_unpackSign (b : BitVec 64) :
    (@unpackSign Format.binary64 b).toNat = b.toNat / 2 ^ 63 := by
  unfold unpackSign
  have : b.toNat < 2 ^ 64 := b.isLt
  simp [BitVec.extractLsb, Nat.shiftRight_eq_div_pow]
  omega

theorem toNat_packComponents (s : Sign) (e : BitVec 11) (m : BitVec 52) :
    (packComponents Format.binary64 s e m).toNat
      = s.toBitVec.toNat * 2 ^ 63 + e.toNat * 2 ^ 52 + m.toNat := by
  unfold packComponents
  rw [BitVec.toNat_append, BitVec.toNat_append, ← Nat.shiftLeft_add_eq_or_of_lt m.isLt,
    ← Nat.shiftLeft_add_eq_or_of_lt e.isLt, Nat.shiftLeft_eq, Nat.shiftLeft_eq]
  ring

theorem toNat_append_one (m : BitVec 52) : (1#1 ++ m).toNat = 2 ^ 52 + m.toNat := by
  rw [BitVec.toNat_append, ← Nat.shiftLeft_add_eq_or_of_lt m.isLt, Nat.shiftLeft_eq]
  rfl

/-- The sign of a machine number. -/
def signOf (x : Float) : Sign := if x.toBits.toNat / 2 ^ 63 = 1 then .negative else .positive

theorem ofBitVec_unpackSign (x : Float) :
    Sign.ofBitVec (@unpackSign Format.binary64 x.toModel.toBits.toBitVec) = signOf x := by
  have hsign := toNat_unpackSign x.toModel.toBits.toBitVec
  rw [UInt64.toNat_toBitVec] at hsign
  have hbits : x.toBits.toNat = x.toModel.toBits.toNat := rfl
  have hlt := (@unpackSign Format.binary64 x.toModel.toBits.toBitVec).isLt
  unfold Sign.ofBitVec signOf
  rw [hbits, ← hsign]
  by_cases h : (@unpackSign Format.binary64 x.toModel.toBits.toBitVec) = 0#1
  · rw [if_pos h, h, if_neg (by decide)]
  · have hne : (@unpackSign Format.binary64 x.toModel.toBits.toBitVec).toNat ≠ 0 := fun h0 =>
      h (BitVec.eq_of_toNat_eq h0)
    rw [if_neg h, if_pos (by omega)]

theorem ofFloat_of_eq_zero {x : Float} (h : x.toBits.toNat / 2 ^ 52 % 2 ^ 11 = 0) :
    Magnitude.ofFloat x = ⟨x.toBits.toNat % 2 ^ 52, -1074⟩ := by
  unfold Magnitude.ofFloat
  dsimp only
  exact if_pos h

theorem ofFloat_of_ne_zero {x : Float} (h : x.toBits.toNat / 2 ^ 52 % 2 ^ 11 ≠ 0) :
    Magnitude.ofFloat x = ⟨2 ^ 52 + x.toBits.toNat % 2 ^ 52,
      ((x.toBits.toNat / 2 ^ 52 % 2 ^ 11 : ℕ) : ℤ) - 1075⟩ := by
  unfold Magnitude.ofFloat
  dsimp only
  exact if_neg h

theorem finite_congr {s s' : Sign} {m m' : ℕ} {e e' : ℤ} {h : 0 < m} {h' : 0 < m'} (hs : s = s')
    (hm : m = m') (he : e = e') : UnpackedFloat.finite s m e h = .finite s' m' e' h' := by
  subst hs hm he
  rfl

/-- A finite machine number is held by its sign, mantissa and exponent. -/
theorem unpack_eq {x : Float} (hx : x.toBits.toNat / 2 ^ 52 % 2 ^ 11 ≠ 2047) :
    x.toModel.unpack = (if h : (Magnitude.ofFloat x).mantissa = 0 then .zero (signOf x)
      else .finite (signOf x) (Magnitude.ofFloat x).mantissa (Magnitude.ofFloat x).exponent
        (Nat.pos_of_ne_zero h)) := by
  have hm : (@unpackMantissa Format.binary64 x.toModel.toBits.toBitVec).toNat
      = x.toBits.toNat % 2 ^ 52 := toNat_unpackMantissa _
  have he : (@unpackExponent Format.binary64 x.toModel.toBits.toBitVec).toNat
      = x.toBits.toNat / 2 ^ 52 % 2 ^ 11 := toNat_unpackExponent _
  have hs := ofBitVec_unpackSign x
  change unpack Format.binary64 x.toModel.toBits.toBitVec = _
  unfold unpack
  dsimp only
  rw [hs]
  have hfull : (@unpackExponent Format.binary64 x.toModel.toBits.toBitVec) ≠ -1#_ := by
    intro h
    rw [h] at he
    exact hx he.symm
  rw [if_neg hfull]
  rcases eq_or_ne (x.toBits.toNat / 2 ^ 52 % 2 ^ 11) 0 with h0 | h0
  · have hzero : (@unpackExponent Format.binary64 x.toModel.toBits.toBitVec) = 0#_ :=
      BitVec.eq_of_toNat_eq (he.trans h0)
    have hmag := ofFloat_of_eq_zero h0
    rw [if_pos hzero]
    by_cases hf : (@unpackMantissa Format.binary64 x.toModel.toBits.toBitVec) = 0#_
    · have : (Magnitude.ofFloat x).mantissa = 0 := by
        rw [hmag, ← hm, hf]
        rfl
      rw [dif_pos hf, dif_pos this]
    · have : (Magnitude.ofFloat x).mantissa ≠ 0 := by
        rw [hmag, ← hm]
        exact fun h => hf (BitVec.eq_of_toNat_eq h)
      rw [dif_neg hf, dif_neg this]
      refine finite_congr rfl ?_ ?_
      · rw [hmag, hm]
      · rw [hmag, he, h0]
        rfl
  · have hnonzero : (@unpackExponent Format.binary64 x.toModel.toBits.toBitVec) ≠ 0#_ := by
      intro h
      rw [h] at he
      exact h0 he.symm
    have hmag := ofFloat_of_ne_zero h0
    have : (Magnitude.ofFloat x).mantissa ≠ 0 := by
      rw [hmag]
      dsimp only
      omega
    rw [if_neg hnonzero, dif_neg this]
    refine finite_congr rfl ?_ ?_
    · rw [hmag, ← hm]
      exact toNat_append_one _
    · rw [hmag, he]
      rfl

/-- The bits of a packed number. -/
theorem toNat_pack {s : Sign} {m : ℕ} {e : ℤ} (h0 : 0 < m) (hc : Canonical m e) :
    (Float.Model.pack (.finite s m e h0)).toBits.toNat = s.toBitVec.toNat * 2 ^ 63
      + (if 2 ^ 52 ≤ m then (e + 1075).toNat * 2 ^ 52 + (m - 2 ^ 52) else m) := by
  obtain ⟨hlt, hmin, hmax, hnormal⟩ := hc
  have hbias : (e + Format.binary64.exponentBias + (52 : ℕ)).toNat = (e + 1075).toNat := by
    have : Format.binary64.exponentBias = 1023 := rfl
    omega
  change (pack Format.binary64 (.finite s m e h0)).toNat = _
  unfold pack
  dsimp only
  rw [hbias, show Format.binary64.mantissaBits = 53 from rfl, if_neg (by omega)]
  by_cases h : 2 ^ 52 ≤ m
  · have hlog : m.log2 = 52 := (Nat.log2_eq_iff h0.ne').2 ⟨h, hlt⟩
    rw [if_pos (by omega), if_pos h, toNat_packComponents, BitVec.toNat_ofNat,
      BitVec.toNat_ofNat, Nat.mod_eq_of_lt (show (e + 1075).toNat < 2 ^ 11 by omega)]
    omega
  · have hlog : m.log2 < 52 := (Nat.log2_lt h0.ne').2 (by omega)
    rw [if_neg (by omega), if_neg h, toNat_packComponents,
      BitVec.toNat_ofNat, BitVec.toNat_ofNat, Nat.mod_eq_of_lt (show m < 2 ^ 52 by omega)]
    omega

theorem toNat_sign_le (s : Sign) : s.toBitVec.toNat ≤ 1 := by
  cases s <;> decide

/-- The number that was packed is read off the bits. -/
theorem ofFloat_pack {s : Sign} {m : ℕ} {e : ℤ} (h0 : 0 < m) (hc : Canonical m e) :
    Magnitude.ofFloat (.ofModel (.pack (.finite s m e h0))) = ⟨m, e⟩
      ∧ (Float.ofModel (.pack (.finite s m e h0))).toBits.toNat / 2 ^ 52 % 2 ^ 11 ≠ 2047 := by
  have hbits : (Float.ofModel (.pack (.finite s m e h0))).toBits.toNat = _ := toNat_pack h0 hc
  have hs := toNat_sign_le s
  obtain ⟨hlt, hmin, hmax, hnormal⟩ := hc
  by_cases h : 2 ^ 52 ≤ m
  · rw [if_pos h] at hbits
    have hexp : (Float.ofModel (.pack (.finite s m e h0))).toBits.toNat / 2 ^ 52 % 2 ^ 11
        = (e + 1075).toNat := by omega
    refine ⟨?_, by omega⟩
    rw [ofFloat_of_ne_zero (by omega), hexp]
    congr 1
    · omega
    · omega
  · rw [if_neg h] at hbits
    have hexp : (Float.ofModel (.pack (.finite s m e h0))).toBits.toNat / 2 ^ 52 % 2 ^ 11 = 0 := by
      omega
    refine ⟨?_, by omega⟩
    rw [ofFloat_of_eq_zero hexp]
    congr 1
    · omega
    · by_contra hne
      exact h (hnormal (by omega))

theorem canonical_ofFloat {x : Float} (hx : x.toBits.toNat / 2 ^ 52 % 2 ^ 11 ≠ 2047) :
    Canonical (Magnitude.ofFloat x).mantissa (Magnitude.ofFloat x).exponent := by
  rcases eq_or_ne (x.toBits.toNat / 2 ^ 52 % 2 ^ 11) 0 with h0 | h0
  · rw [ofFloat_of_eq_zero h0]
    constructor <;> dsimp only <;> omega
  · rw [ofFloat_of_ne_zero h0]
    constructor <;> dsimp only <;> omega

theorem ofModel_inj {x y : Float} (h : x.toBits.toNat = y.toBits.toNat) : x = y := by
  rcases x with ⟨⟨b, hb⟩⟩
  rcases y with ⟨⟨c, hc⟩⟩
  have hbits : b = c := UInt64.toNat_inj.1 h
  subst hbits
  rfl

/-- A machine number is its own parts, packed. -/
theorem pack_unpack {x : Float} (hx : x.toBits.toNat / 2 ^ 52 % 2 ^ 11 ≠ 2047)
    (h0 : 0 < (Magnitude.ofFloat x).mantissa) :
    Float.ofModel (.pack (.finite (signOf x) (Magnitude.ofFloat x).mantissa
      (Magnitude.ofFloat x).exponent h0)) = x := by
  refine ofModel_inj ((toNat_pack h0 (canonical_ofFloat hx)).trans ?_)
  have hbound : x.toBits.toNat < 2 ^ 64 := x.toBits.toNat_lt
  have hsign : (signOf x).toBitVec.toNat = x.toBits.toNat / 2 ^ 63 := by
    unfold signOf
    split_ifs with h
    · rw [h]
      rfl
    · rw [show x.toBits.toNat / 2 ^ 63 = 0 by omega]
      rfl
  rw [hsign]
  rcases eq_or_ne (x.toBits.toNat / 2 ^ 52 % 2 ^ 11) 0 with h | h
  · rw [ofFloat_of_eq_zero h]
    dsimp only
    rw [if_neg (by omega)]
    omega
  · rw [ofFloat_of_ne_zero h]
    dsimp only
    rw [if_pos (by omega)]
    omega

theorem signOf_pack {s : Sign} {m : ℕ} {e : ℤ} (h0 : 0 < m) (hc : Canonical m e) :
    signOf (.ofModel (.pack (.finite s m e h0))) = s := by
  have hbits : (Float.ofModel (.pack (.finite s m e h0))).toBits.toNat = _ := toNat_pack h0 hc
  obtain ⟨hlt, hmin, hmax, hnormal⟩ := hc
  have hlow : (if 2 ^ 52 ≤ m then (e + 1075).toNat * 2 ^ 52 + (m - 2 ^ 52) else m) < 2 ^ 63 := by
    split_ifs <;> omega
  have hsign : (Float.ofModel (.pack (.finite s m e h0))).toBits.toNat / 2 ^ 63
      = s.toBitVec.toNat := by omega
  unfold signOf
  rw [hsign]
  cases s <;> rfl

theorem unpack_pack {s : Sign} {m : ℕ} {e : ℤ} (h0 : 0 < m) (hc : Canonical m e) :
    (Float.Model.pack (.finite s m e h0)).unpack = .finite s m e h0 := by
  obtain ⟨hmag, hfinite⟩ := ofFloat_pack (s := s) h0 hc
  have hunpack := unpack_eq hfinite
  have hne : (Magnitude.ofFloat (.ofModel (.pack (.finite s m e h0)))).mantissa ≠ 0 := by
    rw [hmag]
    exact h0.ne'
  rw [dif_neg hne] at hunpack
  refine hunpack.trans (finite_congr (signOf_pack h0 hc) ?_ ?_)
  · rw [hmag]
  · rw [hmag]

/-- The numbers that are neither infinite nor undefined are those below the last exponent. -/
theorem isFinite_iff {x : Float} :
    x.isFinite = true ↔ x.toBits.toNat / 2 ^ 52 % 2 ^ 11 ≠ 2047 := by
  have he : (@unpackExponent Format.binary64 x.toModel.toBits.toBitVec).toNat
      = x.toBits.toNat / 2 ^ 52 % 2 ^ 11 := toNat_unpackExponent _
  constructor
  · intro hx h
    have hfull : (@unpackExponent Format.binary64 x.toModel.toBits.toBitVec) = -1#_ :=
      BitVec.eq_of_toNat_eq (he.trans h)
    change (unpack Format.binary64 x.toModel.toBits.toBitVec).isFinite = true at hx
    unfold unpack at hx
    dsimp only at hx
    rw [if_pos hfull] at hx
    split_ifs at hx <;> exact absurd hx Bool.false_ne_true
  · intro hx
    change x.toModel.unpack.isFinite = true
    rw [unpack_eq hx]
    by_cases h : (Magnitude.ofFloat x).mantissa = 0
    · rw [dif_pos h]
      rfl
    · rw [dif_neg h]
      rfl

theorem isInf_eq_false {x : Float} (hx : x.isFinite = true) :
    x.isNaN = false ∧ x.isInf = false := by
  change x.toModel.unpack.isFinite = true at hx
  change x.toModel.unpack.isNaN = false ∧ x.toModel.unpack.isInf = false
  generalize x.toModel.unpack = u at hx ⊢
  rcases u with _ | _ | _ | _
  · exact absurd hx Bool.false_ne_true
  · exact absurd hx Bool.false_ne_true
  · exact ⟨rfl, rfl⟩
  · exact ⟨rfl, rfl⟩

/-! ### Results -/

/-- The positive number `m * 2 ^ e`, held as it is. -/
structure Is (x : Float) (m : ℕ) (e : ℤ) : Prop where
  pos : 0 < m
  canonical : Canonical m e
  eq : x = .ofModel (.pack (.finite .positive m e pos))

theorem Is.isFinite {x : Float} {m : ℕ} {e : ℤ} (h : Is x m e) : x.isFinite = true := by
  rw [isFinite_iff, h.eq]
  exact (ofFloat_pack h.pos h.canonical).2

/-- `x` is what `v` is rounded to. -/
def RoundsTo (x : Float) (v : ℚ) : Prop := ∃ u, Rounds u v ∧ x = .ofModel (.pack u)

variable {x y : Float} {v : ℚ} {m m' : ℕ} {e e' : ℤ}

theorem RoundsTo.mul (hx : Is x m e) (hy : Is y m' e') (h : 2 ^ 52 ≤ m) :
    RoundsTo (x * y) (m * 2 ^ e * (m' * 2 ^ e')) := by
  obtain ⟨hx0, hxc, rfl⟩ := hx
  obtain ⟨hy0, hyc, rfl⟩ := hy
  refine ⟨_, rounds_mul hx0 hy0 h, ?_⟩
  have hx := unpack_pack (s := .positive) hx0 hxc
  have hy := unpack_pack (s := .positive) hy0 hyc
  exact congrArg₂ (fun u w => Float.ofModel (.pack (UnpackedFloat.mul Format.binary64 u w))) hx hy

theorem roundsTo_toFloat {w : ℕ} (h0 : 0 < w) (hw : w < UInt64.size) :
    RoundsTo (UInt64.ofNat w).toFloat w := by
  refine ⟨_, rounds_ofNat h0, ?_⟩
  have hto : (UInt64.ofNat w).toNat = w := UInt64.toNat_ofNat_of_lt hw
  have hdef : (UInt64.ofNat w).toFloat
      = .ofModel (.pack (ofNat Format.binary64 (UInt64.ofNat w).toNat)) := rfl
  rw [hdef, hto]

/-- The midpoint above the largest machine number. -/
def overflow : ℚ := (2 ^ 53 - 1 / 2) * 2 ^ (971 : ℤ)

/-- `a` differs from `v` by half a step of a normal number at most. -/
structure Close (a v : ℚ) : Prop where
  ge : v * (1 - 2 ^ (-53 : ℤ)) ≤ a
  le : a ≤ v * (1 + 2 ^ (-53 : ℤ))

theorem Nearest.close {r : ℕ} {t : ℤ} (h : Nearest r (v / 2 ^ t)) (hv : 2 ^ 52 ≤ v / 2 ^ t) :
    Close (r * 2 ^ t) v := by
  have hpos : (0 : ℚ) < 2 ^ t := by positivity
  have hhalf : (1 / 2 : ℚ) ≤ v / 2 ^ t * 2 ^ (-53 : ℤ) := by
    norm_num at hv ⊢
    linarith
  constructor
  · calc v * (1 - 2 ^ (-53 : ℤ)) = (v / 2 ^ t - v / 2 ^ t * 2 ^ (-53 : ℤ)) * 2 ^ t := by field_simp
      _ ≤ r * 2 ^ t := mul_le_mul_of_nonneg_right (by linarith [h.le]) hpos.le
  · calc (r * 2 ^ t : ℚ) ≤ (v / 2 ^ t + v / 2 ^ t * 2 ^ (-53 : ℤ)) * 2 ^ t :=
          mul_le_mul_of_nonneg_right (by linarith [h.ge]) hpos.le
      _ = v * (1 + 2 ^ (-53 : ℤ)) := by field_simp

/-- The mantissa of a number from the smallest normal one on fills its digits. -/
theorem Step.mantissa_bounds {v : ℚ} {t : ℤ} (h : Step v t) (hmin : 2 ^ (-1022 : ℤ) ≤ v) :
    2 ^ 52 ≤ v / 2 ^ t ∧ v / 2 ^ t < 2 ^ 53 := by
  have hpos : (0 : ℚ) < 2 ^ t := by positivity
  have hnormal : (2 : ℚ) ^ (52 + t) ≤ v := by
    rw [add_comm]
    rcases eq_or_lt_of_le h.min with rfl | hlt
    · exact hmin
    · exact h.normal hlt
  have hlt : v < 2 ^ (53 + t) := by
    rw [add_comm]
    exact h.lt
  rw [zpow_add₀ two_ne_zero] at hnormal hlt
  exact ⟨(le_div_iff₀ hpos).2 hnormal, (div_lt_iff₀ hpos).2 hlt⟩

theorem Nearest.mantissa_bounds {r : ℕ} {q : ℚ} (h : Nearest r q) (hge : 2 ^ 52 ≤ q)
    (hlt : q < 2 ^ 53) : 2 ^ 52 ≤ r ∧ r ≤ 2 ^ 53 := by
  have hlower : ((2 ^ 52 : ℕ) : ℚ) < (r + 1 : ℕ) := by
    push_cast
    linarith [h.le]
  have hupper : (r : ℚ) < (2 ^ 53 + 1 : ℕ) := by
    push_cast
    linarith [h.ge]
  exact ⟨Nat.lt_succ_iff.1 (Nat.cast_lt.1 hlower), Nat.lt_succ_iff.1 (Nat.cast_lt.1 hupper)⟩

theorem Step.le_of_lt_overflow {v : ℚ} {t : ℤ} (hge : 2 ^ 52 ≤ v / 2 ^ t) (hmax : v < overflow) :
    t ≤ 971 := by
  rw [le_div_iff₀ (by positivity)] at hge
  have hlt : (2 : ℚ) ^ (52 + t) < 2 ^ (53 + 971 : ℤ) := by
    rw [zpow_add₀ two_ne_zero, zpow_add₀ two_ne_zero]
    refine hge.trans_lt (hmax.trans ?_)
    exact mul_lt_mul_of_pos_right (by norm_num) (by positivity)
  have := (zpow_lt_zpow_iff_right₀ one_lt_two).1 hlt
  omega

/-- A number between the smallest normal one and the midpoint above the largest is rounded to a
normal one. -/
theorem RoundsTo.exists_is (h : RoundsTo x v) (hmin : 2 ^ (-1022 : ℤ) ≤ v) (hmax : v < overflow) :
    ∃ m e, Is x m e ∧ 2 ^ 52 ≤ m ∧ Close (m * 2 ^ e) v := by
  obtain ⟨-, ⟨r, t, hstep, hnearest, rfl⟩, rfl⟩ := h
  obtain ⟨hge, hlt⟩ := hstep.mantissa_bounds hmin
  obtain ⟨hlower, hupper⟩ := hnearest.mantissa_bounds hge hlt
  have htop := Step.le_of_lt_overflow hge hmax
  have hclose := hnearest.close hge
  have hmin := hstep.min
  rcases eq_or_lt_of_le hupper with rfl | hlt
  · -- a carry into a further digit, which does not happen at the last step
    have ht : t + 1 ≤ 971 := by
      by_contra hlast
      obtain rfl : t = 971 := by omega
      have hge := hnearest.ge
      rw [le_div_iff₀ (by positivity), Nat.cast_pow, Nat.cast_ofNat] at hge
      exact absurd hge (not_le.2 hmax)
    have hvalue : (((2 ^ 53 : ℕ) : ℚ) * 2 ^ t) = ((2 ^ 52 : ℕ) : ℚ) * 2 ^ (t + 1) := by
      rw [zpow_add₀ two_ne_zero]
      push_cast
      ring
    rw [rounded_carry]
    exact ⟨2 ^ 52, t + 1, ⟨by decide, ⟨by decide, by omega, ht, fun _ => le_refl _⟩, rfl⟩,
      le_refl _, hvalue ▸ hclose⟩
  · have h0 : 0 < r := by omega
    rw [rounded_of_lt h0 hlt]
    exact ⟨r, t, ⟨h0, ⟨hlt, hmin, htop, fun _ => hlower⟩, rfl⟩, hlower, hclose⟩

/-! ### Exact results -/

/-- The numbers that read back as `m * 2 ^ e` lie between the midpoints, and strictly if `m` is
odd. -/
theorem between_of_holds {m : ℕ} {e : ℤ} {d : ℕ} {k : ℤ} (h0 : 0 < m)
    (h : (Decimal.Interval.ofMagnitude ⟨m, e⟩).holds d k = true) :
    (m - if m = Nat.pow 2 52 ∧ -1074 < e then 1 / 4 else 1 / 2) * 2 ^ e ≤ (d * 10 ^ k : ℚ)
      ∧ (d * 10 ^ k : ℚ) ≤ (m + 1 / 2) * 2 ^ e
      ∧ (m % 2 ≠ 0 → (m - 1 / 2) * 2 ^ e < (d * 10 ^ k : ℚ)
        ∧ (d * 10 ^ k : ℚ) < (m + 1 / 2) * 2 ^ e) := by
  have hhigh : ((Decimal.Interval.ofMagnitude ⟨m, e⟩).high
      / (Decimal.Interval.ofMagnitude ⟨m, e⟩).den : ℚ) = (m + 1 / 2) * 2 ^ e := by
    rw [Decimal.high_ofMagnitude, Magnitude.value, zpow_sub₀ two_ne_zero]
    ring
  have hclosed : (Decimal.Interval.ofMagnitude ⟨m, e⟩).closed = decide (m % 2 = 0) := rfl
  rw [Decimal.Interval.holds_eq_true_iff Decimal.den_ofMagnitude_pos, hhigh,
    Decimal.low_ofMagnitude h0, hclosed] at h
  by_cases heven : m % 2 = 0
  · rw [if_pos (decide_eq_true heven)] at h
    exact ⟨h.1, h.2, fun hodd => absurd heven hodd⟩
  · rw [if_neg (by simpa using heven)] at h
    refine ⟨h.1.le, h.2.le, fun _ => ⟨?_, h.2⟩⟩
    have hedge : ¬ (m = Nat.pow 2 52 ∧ -1074 < e) := fun hm => heven (hm.1 ▸ rfl)
    have hlow := h.1
    rwa [if_neg hedge] at hlow

/-- Between the midpoints a result is rounded to the number, if the step of the result is the
number's own. -/
theorem Rounds.eq_of_between {u : UnpackedFloat} (hu : Rounds u v) (h0 : 0 < m) (hm : m < 2 ^ 53)
    (he : -1074 ≤ e) (hsize : e = -1074 ∨ 2 ^ 52 * 2 ^ e ≤ v) (hlow : (m - 1 / 2) * 2 ^ e ≤ v)
    (hhigh : v ≤ (m + 1 / 2) * 2 ^ e)
    (hodd : m % 2 ≠ 0 → (m - 1 / 2) * 2 ^ e < v ∧ v < (m + 1 / 2) * 2 ^ e) :
    u = .finite .positive m e h0 := by
  have hpos : (0 : ℚ) < 2 ^ e := by positivity
  have hle : (m : ℚ) + 1 ≤ 2 ^ 53 := by exact_mod_cast hm
  have hstep : Step v e := by
    refine ⟨he, hhigh.trans_lt ?_, fun hlt => ?_⟩
    · rw [add_comm e, zpow_add₀ two_ne_zero]
      refine mul_lt_mul_of_pos_right ?_ hpos
      norm_num at hle ⊢
      linarith
    · rw [add_comm e, zpow_add₀ two_ne_zero]
      rcases hsize with rfl | hge
      · exact absurd hlt (lt_irrefl _)
      · exact hge
  have hnearest : Nearest m (v / 2 ^ e) := by
    refine ⟨(le_div_iff₀ hpos).2 hlow, (div_le_iff₀ hpos).2 hhigh, fun hmid => ?_⟩
    by_contra hne
    obtain ⟨hlow, hhigh⟩ := hodd hne
    rcases hmid with hmid | hmid
    · exact absurd hmid ((lt_div_iff₀ hpos).2 hlow).ne'
    · exact absurd hmid ((div_lt_iff₀ hpos).2 hhigh).ne
  rw [hu.eq hstep hnearest, rounded_of_lt h0 hm]

/-- Below a power of two the step is only half as large. What is rounded there to the power of two
lies within half of that step. -/
theorem Rounds.eq_of_below {u : UnpackedFloat} (hu : Rounds u v) (he : -1074 < e)
    (hlow : (2 ^ 52 - 1 / 4) * 2 ^ e ≤ v) (hlt : v < 2 ^ 52 * 2 ^ e) :
    u = .finite .positive (2 ^ 52) e (Nat.pow_pos two_pos) := by
  obtain ⟨t, rfl⟩ : ∃ t, e = t + 1 := ⟨e - 1, by omega⟩
  have hpos : (0 : ℚ) < 2 ^ t := by positivity
  rw [zpow_add_one₀ two_ne_zero] at hlow hlt
  have hstep : Step v t := by
    refine ⟨by omega, ?_, fun _ => ?_⟩
    · rw [add_comm, zpow_add₀ two_ne_zero]
      norm_num
      linarith
    · rw [add_comm, zpow_add₀ two_ne_zero]
      norm_num
      linarith
  have hnearest : Nearest (2 ^ 53) (v / 2 ^ t) := by
    refine ⟨(le_div_iff₀ hpos).2 ?_, (div_le_iff₀ hpos).2 ?_, fun _ => by decide⟩
    · push_cast
      linarith
    · push_cast
      linarith
  rw [hu.eq hstep hnearest, rounded_carry]

/-- A decimal that reads back as a number is rounded to that number. -/
theorem Rounds.eq_of_holds {u : UnpackedFloat} (h0 : 0 < m) (hc : Canonical m e) {d : ℕ} {k : ℤ}
    (h : (Decimal.Interval.ofMagnitude ⟨m, e⟩).holds d k = true) (hu : Rounds u (d * 10 ^ k)) :
    u = .finite .positive m e h0 := by
  obtain ⟨hlow, hhigh, hodd⟩ := between_of_holds h0 h
  have hpos : (0 : ℚ) < 2 ^ e := by positivity
  by_cases hsize : e = -1074 ∨ 2 ^ 52 * 2 ^ e ≤ (d * 10 ^ k : ℚ)
  · refine hu.eq_of_between h0 hc.mantissa_lt hc.exponent_ge hsize ?_ hhigh hodd
    refine (mul_le_mul_of_nonneg_right ?_ hpos.le).trans hlow
    split_ifs <;> linarith
  · obtain ⟨hne, hbelow⟩ := not_or.1 hsize
    have hmin := hc.exponent_ge
    have hnormal := hc.normal (by omega)
    have hlt := not_le.1 hbelow
    obtain rfl : m = 2 ^ 52 := by
      have hle := (mul_lt_mul_iff_left₀ hpos).1 (hlow.trans_lt hlt)
      have hupper : (m : ℚ) < (2 ^ 52 + 1 : ℕ) := by
        push_cast
        split_ifs at hle <;> linarith
      have := (Nat.cast_lt (α := ℚ)).1 hupper
      omega
    rw [if_pos ⟨rfl, by omega⟩, Nat.cast_pow, Nat.cast_ofNat] at hlow
    exact hu.eq_of_below (by omega) hlow hlt

/-- A number that can be held as it is is not rounded. -/
theorem RoundsTo.is_of_canonical (hc : Canonical m e) (hm : 2 ^ 52 ≤ m)
    (h : RoundsTo x (m * 2 ^ e)) : Is x m e := by
  obtain ⟨u, hu, rfl⟩ := h
  have hpos : (0 : ℚ) < 2 ^ e := by positivity
  have hstep : Step (m * 2 ^ e) e := by
    refine ⟨hc.exponent_ge, ?_, fun _ => ?_⟩
    · have hlt : (m : ℚ) < 2 ^ 53 := by exact_mod_cast hc.mantissa_lt
      rw [add_comm e, zpow_add₀ two_ne_zero]
      exact mul_lt_mul_of_pos_right hlt hpos
    · have hle : (2 ^ 52 : ℚ) ≤ m := by exact_mod_cast hm
      rw [add_comm e, zpow_add₀ two_ne_zero]
      exact mul_le_mul_of_nonneg_right hle hpos.le
  have hnearest : Nearest m (m * 2 ^ e / 2 ^ e) := by
    rw [mul_div_cancel_right₀ _ hpos.ne']
    exact nearest_self m
  have h0 : 0 < m := by omega
  rw [hu.eq hstep hnearest, rounded_of_lt h0 hc.mantissa_lt]
  exact ⟨h0, hc, rfl⟩

/-- A whole number of at most 53 binary digits times a power of two can be held as it is. -/
theorem exists_canonical {w c : ℕ} (h0 : 0 < w) (hw : w < 2 ^ 53) (hc : c ≤ 971) :
    ∃ m e, Canonical m e ∧ 2 ^ 52 ≤ m ∧ (m * 2 ^ e : ℚ) = w * 2 ^ c := by
  have hlog : w.log2 < 53 := (Nat.log2_lt h0.ne').2 hw
  obtain ⟨k, hk⟩ : ∃ k, w.log2 + k = 52 := ⟨52 - w.log2, by omega⟩
  have hlt : w * 2 ^ k < 2 ^ 53 := by
    calc w * 2 ^ k < 2 ^ (w.log2 + 1) * 2 ^ k :=
          Nat.mul_lt_mul_of_pos_right Nat.lt_log2_self (Nat.pow_pos two_pos)
      _ = 2 ^ 53 := by rw [← pow_add]; congr 1; omega
  have hle : 2 ^ 52 ≤ w * 2 ^ k := by
    calc 2 ^ 52 = 2 ^ w.log2 * 2 ^ k := by rw [← pow_add, hk]
      _ ≤ w * 2 ^ k := Nat.mul_le_mul_right _ (Nat.log2_self_le h0.ne')
  refine ⟨w * 2 ^ k, c - k, ⟨hlt, by omega, by omega, fun _ => hle⟩, hle, ?_⟩
  rw [zpow_sub₀ two_ne_zero, zpow_natCast, zpow_natCast]
  push_cast
  field_simp

theorem RoundsTo.div (hx : Is x m e) (hy : Is y m' e') (h : 2 ^ 52 ≤ m) (h' : 2 ^ 52 ≤ m') :
    RoundsTo (x / y) (m * 2 ^ e / (m' * 2 ^ e')) := by
  obtain ⟨hx0, hxc, rfl⟩ := hx
  obtain ⟨hy0, hyc, rfl⟩ := hy
  have hlog : m.log2 = m'.log2 := by
    rw [(Nat.log2_eq_iff hx0.ne').2 ⟨h, hxc.mantissa_lt⟩,
      (Nat.log2_eq_iff hy0.ne').2 ⟨h', hyc.mantissa_lt⟩]
  have hx := unpack_pack (s := .positive) hx0 hxc
  have hy := unpack_pack (s := .positive) hy0 hyc
  refine ⟨_, rounds_div hx0 hy0 h hyc.mantissa_lt hlog, ?_⟩
  exact congrArg₂ (fun u w => Float.ofModel (.pack (UnpackedFloat.div Format.binary64 u w))) hx hy

theorem RoundsTo.is_of_holds (h0 : 0 < m) (hc : Canonical m e) {d : ℕ} {k : ℤ}
    (hholds : (Decimal.Interval.ofMagnitude ⟨m, e⟩).holds d k = true)
    (hx : RoundsTo x (d * 10 ^ k)) : Is x m e := by
  obtain ⟨u, hu, rfl⟩ := hx
  obtain rfl := hu.eq_of_holds h0 hc hholds
  exact ⟨h0, hc, rfl⟩

theorem neg_pack (h0 : 0 < m) (hc : Canonical m e) :
    -(Float.ofModel (.pack (.finite .positive m e h0)))
      = .ofModel (.pack (.finite .negative m e h0)) :=
  congrArg (fun u => Float.ofModel (.pack (UnpackedFloat.neg u))) (unpack_pack h0 hc)

/-! ### The largest numbers -/

theorem lt_overflow {n : ℕ} (h : 2 * n < (2 ^ 54 - 1) * 2 ^ 971) : (n : ℚ) < overflow := by
  have key : ∀ {b : ℕ} {c : ℤ}, c = b → 2 * n < (2 ^ 54 - 1) * 2 ^ b →
      (n : ℚ) < (2 ^ 53 - 1 / 2) * 2 ^ c := by
    rintro b _ rfl h
    have hcast : ((2 * n : ℕ) : ℚ) < (((2 ^ 54 - 1) * 2 ^ b : ℕ) : ℚ) := Nat.cast_lt.2 h
    push_cast at hcast
    rw [zpow_natCast]
    linarith
  unfold overflow
  exact key (show (971 : ℤ) = (971 : ℕ) from rfl) h

theorem ten_pow_lt {e : ℕ} (he : e ≤ 308) : (10 : ℚ) ^ e < overflow := by
  have hmax : ((10 ^ 308 : ℕ) : ℚ) < overflow := lt_overflow (by decide +kernel)
  refine lt_of_le_of_lt ?_ hmax
  rw [Nat.cast_pow, Nat.cast_ofNat]
  exact pow_le_pow_right₀ (by norm_num) he

/-- The midpoint above the largest number but two. What is below is not rounded up to infinity,
even when it is the product of two numbers that are rounded themselves. -/
def reach : ℚ := (2 ^ 53 - 5 / 2) * 2 ^ (971 : ℤ)

theorem reach_lt : reach < 10 ^ 309 := by
  have hten : ((2 ^ 1024 : ℕ) : ℚ) < ((10 ^ 309 : ℕ) : ℚ) := Nat.cast_lt.2 (by decide +kernel)
  rw [Nat.cast_pow, Nat.cast_ofNat, Nat.cast_pow, Nat.cast_ofNat] at hten
  refine lt_trans ?_ hten
  unfold reach
  rw [show (2 : ℚ) ^ 1024 = 2 ^ (53 + 971 : ℤ) from (zpow_natCast 2 1024).symm,
    zpow_add₀ two_ne_zero]
  refine mul_lt_mul_of_pos_right ?_ (by positivity)
  norm_num

section Close

variable {a b c d : ℚ}

theorem Close.mul_lt (hc : Close c a) (hd : Close d b) (ha : 0 ≤ a) (hb : 0 ≤ b)
    (h : a * b ≤ reach) : c * d < overflow := by
  have hd0 : 0 ≤ d := le_trans (mul_nonneg hb (by norm_num)) hd.ge
  have hu : (1 + 2 ^ (-53 : ℤ) : ℚ) * (1 + 2 ^ (-53 : ℤ)) * (2 ^ 53 - 5 / 2) < 2 ^ 53 - 1 / 2 := by
    norm_num
  calc c * d ≤ (a * (1 + 2 ^ (-53 : ℤ))) * (b * (1 + 2 ^ (-53 : ℤ))) :=
        mul_le_mul hc.le hd.le hd0 (by positivity)
    _ = a * b * ((1 + 2 ^ (-53 : ℤ)) * (1 + 2 ^ (-53 : ℤ))) := by ring
    _ ≤ reach * ((1 + 2 ^ (-53 : ℤ)) * (1 + 2 ^ (-53 : ℤ))) :=
        mul_le_mul_of_nonneg_right h (by positivity)
    _ < overflow := by
        unfold reach overflow
        rw [mul_right_comm, mul_comm (2 ^ 53 - 5 / 2 : ℚ)]
        exact mul_lt_mul_of_pos_right hu (by positivity)

theorem Close.half_le (hc : Close c a) (ha : 1 ≤ a) : 1 / 2 ≤ c := by
  calc (1 / 2 : ℚ) ≤ 1 * (1 - 2 ^ (-53 : ℤ)) := by norm_num
    _ ≤ a * (1 - 2 ^ (-53 : ℤ)) := mul_le_mul_of_nonneg_right ha (by norm_num)
    _ ≤ c := hc.ge

end Close

theorem two_zpow_le_one : (2 : ℚ) ^ (-1022 : ℤ) ≤ 1 :=
  zpow_le_one_of_nonpos₀ one_le_two (by norm_num)

end MatrixFree.Rounding
