import MatrixFree.Decimal.Shortest

/-!
# Number styles

How a machine number is written: its shortest decimal, laid out with all places or with a power of
ten. What a style decides is in one record, so that each kind of text has one value of it.
-/

namespace MatrixFree

structure NumberStyle where
  tie : Decimal.Tie
  /-- Whether all places are written when the leading digit stands for this power of ten. -/
  positional : Int → Bool
  /-- Whether a whole number ends in `.0`. -/
  pointZero : Bool
  /-- Whether a positive power of ten has a sign. -/
  plusSign : Bool

namespace NumberStyle

/-- A decimal with all its places. -/
def placeText (pointZero : Bool) (d : Decimal) : List Char :=
  let digits := Decimal.digitText d.digits
  if 0 ≤ d.exponent then
    digits ++ List.replicate d.exponent.toNat '0' ++ (if pointZero then ['.', '0'] else [])
  else
    let places := (-d.exponent).toNat
    if places < digits.length then
      digits.take (digits.length - places) ++ '.' :: digits.drop (digits.length - places)
    else '0' :: '.' :: List.replicate (places - digits.length) '0' ++ digits

/-- A decimal as its leading digit, the others and a power of ten. -/
def powerText (plusSign : Bool) (d : Decimal) : List Char :=
  let e := d.leading
  let sign := if e < 0 then ['-'] else if plusSign then ['+'] else []
  let mantissa := match Decimal.digitText d.digits with
    | lead :: rest@(_ :: _) => lead :: '.' :: rest
    | digits => digits
  mantissa ++ 'e' :: sign ++ Decimal.digitText e.natAbs

/-- A decimal without zeros at its end. -/
def trimmed (d : Decimal) : Decimal :=
  if d.digits ≠ 0 ∧ d.digits % 10 = 0 then trimmed ⟨d.digits / 10, d.exponent + 1⟩ else d
termination_by d.digits
decreasing_by omega

def decimalText (s : NumberStyle) (d : Decimal) : List Char :=
  let d := trimmed d
  if s.positional d.leading then placeText s.pointZero d else powerText s.plusSign d

/-- The text of a number in the style. -/
def text (s : NumberStyle) (x : Float) : List Char :=
  if x.isNaN then ['N', 'a', 'N']
  else
    let sign := if x.toBits.toNat / Nat.pow 2 63 = 1 then ['-'] else []
    if x.isInf then sign ++ ['i', 'n', 'f']
    else sign ++ s.decimalText (Decimal.shortest s.tie (.ofFloat x))

/-- A whole number of any length, or all places. -/
def plain : NumberStyle := ⟨.up, fun _ => true, false, false⟩

/-- Always with a power of ten, as in `1.5e-3`. -/
def power : NumberStyle := ⟨.up, fun _ => false, false, false⟩

end NumberStyle

end MatrixFree
