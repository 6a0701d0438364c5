import Mathlib.Algebra.Field.Rat
import Mathlib.Algebra.Order.Ring.Nat
import MatrixFree.Proofs.Tables
import MatrixFree.Json.Doc

/-!
# Numbers are read as they are written

A text made of the parts of a number (`Json.Numeral.Parts`) is scanned as that number whatever
follows it, as long as that cannot belong to a number.
-/

namespace MatrixFree.Json.Numeral

/-- What can follow a number. -/
def Ends (rest : List Char) : Prop :=
  ∀ c, rest.head? = some c → isDigit c = false ∧ c ≠ '.' ∧ c ≠ 'e' ∧ c ≠ 'E'

/-- The parts of a number's text as characters. -/
structure Parts where
  negative : Bool
  whole : List Char
  fraction : Option (List Char)
  exponent : Option (Bool × List Char)

namespace Parts

def fractionText : Option (List Char) → List Char
  | none => []
  | some f => '.' :: f

def exponentText : Option (Bool × List Char) → List Char
  | none => []
  | some (negative, e) => 'e' :: (if negative then '-' else '+') :: e

def text (p : Parts) : List Char :=
  (if p.negative then ['-'] else []) ++ p.whole ++ fractionText p.fraction
    ++ exponentText p.exponent

/-- The number that the parts are those of. -/
def numeral (p : Parts) : Numeral :=
  ⟨p.negative, p.whole.map digit, p.fraction.map (·.map digit),
    p.exponent.map fun e => (e.1, e.2.map digit)⟩

end Parts

/-- One digit or more. -/
structure Digits (cs : List Char) : Prop where
  ne_nil : cs ≠ []
  isDigit : ∀ c ∈ cs, isDigit c = true

structure Parts.Proper (p : Parts) : Prop where
  whole : Digits p.whole
  noZero : p.whole = ['0'] ∨ p.whole.head? ≠ some '0'
  fraction : ∀ f, p.fraction = some f → Digits f
  exponent : ∀ e, p.exponent = some e → Digits e.2

variable {cs ds rest : List Char}

/-- What can follow a run of digits. -/
def Stops (rest : List Char) : Prop := ∀ c, rest.head? = some c → isDigit c = false

theorem digits_append (hd : ∀ c ∈ ds, isDigit c = true) (hr : Stops rest) :
    digits (ds ++ rest) = (ds.map digit, rest) := by
  have hnil : rest.takeWhile isDigit = [] ∧ rest.dropWhile isDigit = rest := by
    rcases rest with _ | ⟨c, rest⟩
    · exact ⟨rfl, rfl⟩
    · have hc := hr c rfl
      simp [hc]
  unfold digits
  rw [List.takeWhile_append_of_pos hd, List.dropWhile_append_of_pos hd, hnil.1, hnil.2,
    List.append_nil]

theorem someDigits_append (hd : Digits ds) (hr : Stops rest) :
    someDigits (ds ++ rest) = .ok (ds.map digit, rest) := by
  unfold someDigits
  rw [digits_append hd.isDigit hr]
  rcases ds with _ | ⟨d, ds⟩
  · exact absurd rfl hd.ne_nil
  · rfl

theorem digit_ne_zero {c : Char} (hd : isDigit c = true) (hc : c ≠ '0') : digit c ≠ 0 := by
  intro h
  have hle : '0'.toNat ≤ c.toNat := by
    simp only [isDigit, Bool.and_eq_true, decide_eq_true_eq] at hd
    exact hd.1
  have hge : c.toNat ≤ '0'.toNat := Nat.sub_eq_zero_iff_le.1 h
  exact hc (Char.toNat_inj.1 (Nat.le_antisymm hge hle))

theorem scanWhole_append (hd : Digits ds) (hz : ds = ['0'] ∨ ds.head? ≠ some '0')
    (hr : Stops rest) : scanWhole (ds ++ rest) = .ok (ds.map digit, rest) := by
  unfold scanWhole
  rw [someDigits_append hd hr, ok_bind]
  dsimp only
  split
  next h =>
    rcases ds with _ | ⟨d, _ | ⟨d', ds⟩⟩
    · cases h
    · simp at h
    · have hne : d ≠ '0' := by simpa using hz
      exact absurd (List.cons.inj h).1 (digit_ne_zero (hd.isDigit d List.mem_cons_self) hne)
  next => rfl

theorem scanFraction_append {f : Option (List Char)} (hf : ∀ ds, f = some ds → Digits ds)
    (hr : Stops rest) (hdot : rest.head? ≠ some '.') :
    scanFraction (Parts.fractionText f ++ rest) = .ok (f.map (·.map digit), rest) := by
  rcases f with _ | ds
  · rcases rest with _ | ⟨c, rest⟩
    · rfl
    · have hc : c ≠ '.' := by simpa using hdot
      unfold scanFraction
      split
      next h => exact absurd (List.cons.inj h).1 hc
      next => rfl
  · have h := someDigits_append (hf ds rfl) hr
    simp only [Parts.fractionText, List.cons_append, scanFraction, h, ok_bind]
    rfl

theorem scanExponent_append {e : Option (Bool × List Char)} (he : ∀ x, e = some x → Digits x.2)
    (hr : Ends rest) : scanExponent (Parts.exponentText e ++ rest)
      = .ok (e.map fun x => (x.1, x.2.map digit), rest) := by
  have hstop : Stops rest := fun c hc => (hr c hc).1
  rcases e with _ | ⟨negative, ds⟩
  · rcases rest with _ | ⟨c, rest⟩
    · rfl
    · obtain ⟨-, -, he, hE⟩ := hr c rfl
      simp [Parts.exponentText, scanExponent, he, hE]
  · have h := someDigits_append (he _ rfl) hstop
    cases negative <;> simp [Parts.exponentText, scanExponent, scanSign, h]

/-- The text of the parts is scanned as the number, whatever ends it. -/
theorem scan_append {p : Parts} (hp : p.Proper) (hr : Ends rest) :
    scan (p.text ++ rest) = .ok (p.numeral, rest) := by
  rcases p with ⟨negative, whole, fraction, exponent⟩
  obtain ⟨hw, hz, hf, he⟩ := hp
  have hx : Stops (Parts.exponentText exponent ++ rest)
      ∧ (Parts.exponentText exponent ++ rest).head? ≠ some '.' := by
    rcases exponent with _ | x
    · exact ⟨fun c hc => (hr c hc).1, fun hc => (hr _ hc).2.1 rfl⟩
    · refine ⟨fun c hc => ?_, fun hc => ?_⟩
      · obtain rfl : 'e' = c := by simpa [Parts.exponentText] using hc
        rfl
      · simp [Parts.exponentText] at hc
  have hfx : Stops (Parts.fractionText fraction ++ (Parts.exponentText exponent ++ rest)) := by
    rcases fraction with _ | f
    · exact hx.1
    · intro c hc
      obtain rfl : '.' = c := by simpa [Parts.fractionText] using hc
      rfl
  have hwhole := scanWhole_append hw hz hfx
  have hfraction := scanFraction_append hf hx.1 hx.2
  have hexponent := scanExponent_append he hr
  obtain ⟨body, hbody⟩ : ∃ cs, cs = whole ++ (Parts.fractionText fraction
      ++ (Parts.exponentText exponent ++ rest)) := ⟨_, rfl⟩
  unfold scan
  split
  next sign cs hsign =>
    have hparts : sign = negative ∧ cs = body := by
      cases negative
      · have htext : Parts.text ⟨false, whole, fraction, exponent⟩ ++ rest = body := by
          simp [Parts.text, hbody]
        rw [htext] at hsign
        split at hsign
        next =>
          obtain ⟨c, ds, rfl⟩ := List.exists_cons_of_ne_nil hw.ne_nil
          obtain rfl : '-' = c := (List.cons.inj hbody).1
          exact absurd (hw.isDigit '-' List.mem_cons_self) (by decide)
        next => exact ⟨(Prod.mk.inj hsign).1.symm, (Prod.mk.inj hsign).2.symm⟩
      · have htext : Parts.text ⟨true, whole, fraction, exponent⟩ ++ rest = '-' :: body := by
          simp [Parts.text, hbody]
        rw [htext] at hsign
        exact ⟨(Prod.mk.inj hsign).1.symm, (Prod.mk.inj hsign).2.symm⟩
    obtain ⟨rfl, rfl⟩ := hparts
    rw [hbody, hwhole, ok_bind]
    dsimp only
    rw [hfraction, ok_bind]
    dsimp only
    rw [hexponent, ok_bind]
    rfl

end MatrixFree.Json.Numeral
