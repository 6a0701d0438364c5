import MatrixFree.Ident
import MatrixFree.Stats.Duration

/-!
# Evaluation statistics

How often a graph was evaluated in each direction, and how long that took.
-/

namespace MatrixFree

structure EvalCounter where
  evals : UInt64
  total : Duration
  deriving DecidableEq, Repr

namespace EvalCounter

def zero : EvalCounter := ⟨0, .zero⟩

def record (c : EvalCounter) (elapsed : Duration) : EvalCounter :=
  ⟨c.evals + 1, c.total.add elapsed⟩

/-- The time of one evaluation, if there was any: whole nanoseconds, rounded down, for a count
that is a 32-bit word. Of a larger count the quotient is taken in machine numbers. -/
def average (c : EvalCounter) : Option Duration :=
  if c.evals = 0 then none
  else if c.evals.toNat < UInt32.size then some ⟨c.total.nanos / c.evals.toNat⟩
  else some (.ofSeconds (c.total.seconds / c.evals.toFloat))

end EvalCounter

structure EvalStats where
  forward : EvalCounter
  adjoint : EvalCounter
  deriving DecidableEq, Repr

namespace EvalStats

def zero : EvalStats := ⟨.zero, .zero⟩

def counter (s : EvalStats) : Direction → EvalCounter
  | .forward => s.forward
  | .adjoint => s.adjoint

def setCounter (s : EvalStats) (d : Direction) (c : EvalCounter) : EvalStats :=
  match d with
  | .forward => { s with forward := c }
  | .adjoint => { s with adjoint := c }

def record (s : EvalStats) (d : Direction) (elapsed : Duration) : EvalStats :=
  s.setCounter d ((s.counter d).record elapsed)

def average (s : EvalStats) (d : Direction) : Option Duration := (s.counter d).average

/-- The line of a report on one direction, with times written by `time`. -/
def line (time : Duration → String) (s : EvalStats) (d : Direction) : String :=
  match s.average d with
  | some mean =>
    s!"{d.text}_evals={(s.counter d).evals}, avg_{d.text}_eval_time=" ++ time mean
  | none => s!"{d.text}_evals=0, no evaluations performed"

/-- A line for each direction, with times written by `time`. -/
def reportWith (time : Duration → String) (s : EvalStats) : String :=
  s.line time .forward ++ "\n" ++ s.line time .adjoint

def report (s : EvalStats) : String := s.reportWith Duration.text

end EvalStats

end MatrixFree
