import MatrixFree.Decimal.Magnitude

/-!
# Shortest decimals

The decimal with the fewest digits among those that read back as a given machine number, and the
nearest to the number among these. Every decimal between the midpoints to the neighbouring numbers
reads back; the midpoints themselves do when the mantissa is even.
-/

namespace MatrixFree

/-- The number `digits * 10 ^ exponent`. -/
structure Decimal where
  digits : Nat
  exponent : Int
  deriving DecidableEq, Repr

namespace Decimal

/-- Which of two equally near decimals is taken. -/
inductive Tie where
  | toEven
  | up
  deriving DecidableEq, Repr

/-- The numbers that read back as one machine number, as fractions over `den`. -/
structure Interval where
  low : Nat
  value : Nat
  high : Nat
  den : Nat
  closed : Bool
  deriving DecidableEq, Repr

/-- Below a power of two the neighbour is only half as far away as above, unless the numbers are
the smallest ones. -/
def Interval.ofMagnitude (m : Magnitude) : Interval :=
  let quarter : Magnitude := ⟨1, m.exponent - 2⟩
  let below := if m.mantissa = Nat.pow 2 52 ∧ -1074 < m.exponent then 1 else 2
  { low := (4 * m.mantissa - below) * quarter.num
    value := 4 * m.mantissa * quarter.num
    high := (4 * m.mantissa + 2) * quarter.num
    den := quarter.den
    closed := m.mantissa % 2 = 0 }

/-- Whether `d * 10 ^ k` reads back. -/
def Interval.holds (i : Interval) (d : Nat) (k : Int) : Bool :=
  let point := d * Nat.pow 10 k.toNat * i.den
  let unit := Nat.pow 10 (-k).toNat
  if i.closed then decide (i.low * unit ≤ point) && decide (point ≤ i.high * unit)
  else decide (i.low * unit < point) && decide (point < i.high * unit)

/-- The multiple of `10 ^ k` that reads back: of the two next to the value the nearer one. -/
def Interval.onGrid (i : Interval) (tie : Tie) (k : Int) : Option Nat :=
  let n := i.value * Nat.pow 10 (-k).toNat
  let d := i.den * Nat.pow 10 k.toNat
  let q := n / d
  let rest := 2 * (n % d)
  match i.holds q k, i.holds (q + 1) k with
  | true, true =>
    if rest < d then some q
    else if d < rest then some (q + 1)
    else match tie with
      | .toEven => some (if q % 2 = 0 then q else q + 1)
      | .up => some (q + 1)
  | true, false => some q
  | false, true => some (q + 1)
  | false, false => none

/-- Tries grids from `10 ^ k` on downwards. -/
def Interval.search (i : Interval) (tie : Tie) : (steps : Nat) → (k : Int) → Decimal
  | 0, k => ⟨i.value * Nat.pow 10 (-k).toNat / (i.den * Nat.pow 10 k.toNat), k⟩
  | steps + 1, k =>
    match i.onGrid tie k with
    | some d => ⟨d, k⟩
    | none => i.search tie steps (k - 1)

/-- An exponent whose power of ten is above the magnitude, by less than two digits: the number of
binary digits times a little more than the logarithm of two. -/
def above (m : Magnitude) : Int :=
  (m.exponent + (m.mantissa.log2 + 1)) * 30103 / 100000 + 1

/-- The shortest decimal that reads back as the number. Seventeen digits always suffice. -/
def shortest (tie : Tie) (m : Magnitude) : Decimal :=
  if m.mantissa = 0 then ⟨0, 0⟩
  else (Interval.ofMagnitude m).search tie 21 (above m)

/-- The decimal digits of a number. -/
def digitText (n : Nat) : List Char := Nat.toDigits 10 n

/-- The exponent of the leading digit. -/
def leading (d : Decimal) : Int := d.exponent + ((digitText d.digits).length - 1 : Nat)

end Decimal

end MatrixFree
