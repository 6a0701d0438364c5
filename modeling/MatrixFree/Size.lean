/-!
# Sizes

Sizes that a graph declares are 64-bit words. Arithmetic on them that has to be exact is done on
natural numbers and refused when the result is no word.
-/

namespace MatrixFree.Size

/-- The number itself, if it is a 64-bit word. -/
def fit (n : Nat) : Option Nat := if n < UInt64.size then some n else none

def add? (a b : Nat) : Option Nat := fit (a + b)

def mul? (a b : Nat) : Option Nat := fit (a * b)

/-- The sum of a list of numbers. -/
def sum (ns : List Nat) : Nat := ns.foldr (· + ·) 0

@[simp] theorem sum_nil : sum [] = 0 := rfl

@[simp] theorem sum_cons (n : Nat) (ns : List Nat) : sum (n :: ns) = n + sum ns := rfl

theorem fit_eq_some_iff {n m : Nat} : fit n = some m ↔ n < UInt64.size ∧ n = m := by
  simp [fit]

end MatrixFree.Size
