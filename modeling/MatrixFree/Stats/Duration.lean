import MatrixFree.Decimal.Style

/-!
# Durations

Spans of time in whole nanoseconds.
-/

namespace MatrixFree

structure Duration where
  nanos : Nat
  deriving DecidableEq, Repr

namespace Duration

def zero : Duration := ⟨0⟩

def perSecond : Nat := 1000000000

def ofParts (secs nanos : Nat) : Duration := ⟨secs * perSecond + nanos⟩

def add (a b : Duration) : Duration := ⟨a.nanos + b.nanos⟩

/-- The seconds as a machine number: whole seconds and the rest of a second, each rounded. -/
def seconds (d : Duration) : Float :=
  Float.ofNat (d.nanos / perSecond) + Float.ofNat (d.nanos % perSecond) / 1e9

/-- The duration nearest to a number of seconds; a half goes to the even nanosecond. -/
def ofSeconds (x : Float) : Duration :=
  let m := Magnitude.ofFloat x
  ⟨roundHalfEven (m.num * perSecond) m.den⟩

/-- Seconds with a power of ten, as in `1.5e-3`. -/
def text (d : Duration) : String := String.ofList (NumberStyle.power.text d.seconds)

end Duration

end MatrixFree
