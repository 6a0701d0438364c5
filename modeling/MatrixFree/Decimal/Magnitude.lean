/-!
# Exact magnitudes

The exact value of a finite machine number, as a whole number times a power of two, and rounded
quotients of whole numbers.
-/

namespace MatrixFree

/-- The number `mantissa * 2 ^ exponent`. -/
structure Magnitude where
  mantissa : Nat
  exponent : Int
  deriving DecidableEq, Repr

namespace Magnitude

/-- The absolute value of a finite number, read off its bits: 11 bits of exponent above 52 bits of
fraction. -/
def ofFloat (x : Float) : Magnitude :=
  let bits := x.toBits.toNat
  let exponent : Nat := bits / Nat.pow 2 52 % Nat.pow 2 11
  let fraction := bits % Nat.pow 2 52
  if exponent = 0 then ⟨fraction, -1074⟩ else ⟨Nat.pow 2 52 + fraction, Int.ofNat exponent - 1075⟩

/-- The magnitude as a fraction. -/
def num (m : Magnitude) : Nat := m.mantissa * Nat.pow 2 m.exponent.toNat

def den (m : Magnitude) : Nat := Nat.pow 2 (-m.exponent).toNat

end Magnitude

/-- The whole number nearest to `n / d`; of two that are equally near, the even one. -/
def roundHalfEven (n d : Nat) : Nat :=
  let q := n / d
  let rest := 2 * (n % d)
  if d < rest ∨ (rest = d ∧ q % 2 = 1) then q + 1 else q

end MatrixFree
