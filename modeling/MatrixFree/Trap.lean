/-!
# Traps

A trap is a step that has no result: an index outside a buffer, a size that does not fit, a name
after the last one. It is kept apart from the faults a computation reports on purpose, so that a
theorem can say that checked inputs never trap.
-/

namespace MatrixFree

/-- Why a step has no result. -/
inductive Trap where
  | outOfRange
  | unequalLengths
  | sizeOverflow
  | nameOverflow
  | emptyChunk
  | divisionByZero
  deriving DecidableEq, Repr

/-- How a computation ends early: with a fault that it reports, or trapped. -/
inductive Stop (ε : Type) where
  | fault (e : ε)
  | trap (t : Trap)
  deriving DecidableEq, Repr

/-- A computation that may trap. -/
abbrev Checked (α : Type) := Except Trap α

namespace Stop

variable {ε ε' : Type}

def mapFault (f : ε → ε') : Stop ε → Stop ε'
  | fault e => fault (f e)
  | trap t => trap t

end Stop

/-- A computation that traps, seen as one that may also report faults. -/
def Checked.lift {α : Type} {ε : Type} : Checked α → Except (Stop ε) α
  | .ok a => .ok a
  | .error t => .error (.trap t)

end MatrixFree
