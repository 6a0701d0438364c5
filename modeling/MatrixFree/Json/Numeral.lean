import MatrixFree.Json.Fault

/-!
# Numerals

A number in a text, its parts and its value. A numeral without fraction and exponent that is a
64-bit word is an integer. All others are machine numbers: up to 19 or 20 digits are collected in
a word, later digits are dropped, and the word is multiplied or divided by a power of ten. The
last step rounds once more, so the result need not be the nearest machine number.
-/

namespace MatrixFree.Json

/-- The parts of a number's text, each part as a list of digits. -/
structure Numeral where
  negative : Bool
  whole : List Nat
  fraction : Option (List Nat)
  /-- Whether the exponent is negative, and its digits. -/
  exponent : Option (Bool × List Nat)
  deriving DecidableEq, Repr

namespace Numeral

/-- A fault in the parts of a number. A number whose text ends in the middle is faulty in two
ways: one that is to be used is truncated, one that is passed over is malformed. -/
structure Defect where
  used : Fault
  passed : Fault
  deriving DecidableEq, Repr

def Defect.malformed : Defect := ⟨.malformed, .malformed⟩

/-- Something is missing before the given rest of the text. -/
def Defect.before : List Char → Defect
  | [] => ⟨.truncated, .malformed⟩
  | _ => .malformed

def isDigit (c : Char) : Bool := decide ('0' ≤ c) && decide (c ≤ '9')

def digit (c : Char) : Nat := c.toNat - '0'.toNat

/-- The leading digits of a text, and the rest. -/
def digits (cs : List Char) : List Nat × List Char :=
  ((cs.takeWhile isDigit).map digit, cs.dropWhile isDigit)

/-- At least one leading digit of a text, and the rest. -/
def someDigits (cs : List Char) : Except Defect (List Nat × List Char) :=
  match digits cs with
  | ([], rest) => .error (.before rest)
  | found => .ok found

/-- The whole part: a zero alone, or digits that do not start with zero. -/
def scanWhole (cs : List Char) : Except Defect (List Nat × List Char) := do
  let (ds, rest) ← someDigits cs
  match ds with
  | 0 :: _ :: _ => .error .malformed
  | _ => return (ds, rest)

def scanFraction : List Char → Except Defect (Option (List Nat) × List Char)
  | '.' :: cs => do
    let (ds, rest) ← someDigits cs
    return (some ds, rest)
  | cs => .ok (none, cs)

def scanSign : List Char → Bool × List Char
  | '-' :: cs => (true, cs)
  | '+' :: cs => (false, cs)
  | cs => (false, cs)

def scanExponent (cs : List Char) : Except Defect (Option (Bool × List Nat) × List Char) :=
  match cs with
  | c :: rest =>
    if c = 'e' ∨ c = 'E' then do
      let (negative, rest) := scanSign rest
      let (ds, rest) ← someDigits rest
      return (some (negative, ds), rest)
    else .ok (none, cs)
  | [] => .ok (none, [])

/-- The number at the start of a text, and the rest. -/
def scan (cs : List Char) : Except Defect (Numeral × List Char) := do
  let (negative, cs) := match cs with
    | '-' :: cs => (true, cs)
    | cs => (false, cs)
  let (whole, cs) ← scanWhole cs
  let (fraction, cs) ← scanFraction cs
  let (exponent, cs) ← scanExponent cs
  return (⟨negative, whole, fraction, exponent⟩, cs)

/-- Appends digits to a word while the result is a 64-bit word. Gives the word and the number of
digits left. -/
def collect (bound : Nat) : (word : Nat) → List Nat → Nat × Nat
  | word, [] => (word, 0)
  | word, d :: ds =>
    if word * 10 + d < bound then collect bound (word * 10 + d) ds else (word, ds.length + 1)

/-- A power of ten, rounded. -/
def power (e : Nat) : Float := Float.ofScientific 1 false e

/-- `x * 10 ^ e`, by one multiplication or division for an exponent of at most 308, and by
dividing by `10 ^ 308` first for one below. -/
def scale (x : Float) (e : Int) : Except Fault Float :=
  if e.natAbs ≤ 308 then
    if 0 ≤ e then
      let y := x * power e.natAbs
      if y.isInf then .error .malformed else .ok y
    else .ok (x / power e.natAbs)
  else if x == 0.0 then .ok x
  else if 0 ≤ e then .error .malformed
  else scale (x / power 308) (e + 308)
termination_by e.natAbs

def signed (negative : Bool) (x : Float) : Float := if negative then -x else x

/-- The machine number of a word with a power of ten. An exponent that is no 32-bit number makes
a large number too large and any other zero. -/
def floatValue (n : Numeral) (word : Nat) (shift : Int) : Except Fault Float := do
  let magnitude ← match n.exponent with
    | none => scale (UInt64.ofNat word).toFloat shift
    | some (negative, ds) =>
      match collect (Nat.pow 2 31) 0 ds with
      | (e, 0) =>
        scale (UInt64.ofNat word).toFloat
          (if negative then shift - Int.ofNat e else shift + Int.ofNat e)
      | _ => if word ≠ 0 ∧ !negative then .error .malformed else .ok 0.0
  return signed n.negative magnitude

/-- The value of a numeral. -/
def value (n : Numeral) : Except Fault Number :=
  let (word, dropped) := collect UInt64.size 0 n.whole
  match n.fraction, n.exponent with
  | none, none =>
    if dropped = 0 ∧ !n.negative then .ok (.integer (Int.ofNat word))
    else if dropped = 0 ∧ 0 < word ∧ word ≤ Nat.pow 2 63 then .ok (.integer (-Int.ofNat word))
    else .float <$> n.floatValue word (Int.ofNat dropped)
  | fraction, _ =>
    let places := fraction.getD []
    let (word, left) := collect UInt64.size word places
    .float <$> n.floatValue word (Int.ofNat dropped - Int.ofNat (places.length - left))

end Numeral

end MatrixFree.Json
