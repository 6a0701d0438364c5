import MatrixFree.Graph.Basic

/-!
# Least squares

Conjugate gradients on the normal equations, for the `x` that makes `A x - b` shortest. The
operator `A` is a graph and is only used by evaluating it in its two directions.
-/

namespace MatrixFree.LeastSquares

variable {α : Type}

structure Options (α : Type) where
  maxIters : UInt64
  /-- The iteration stops when the normal residual is this much shorter than at its start. -/
  tol : α
  deriving DecidableEq, Repr

def Options.standard : Options Float := ⟨200, 1e-10⟩

/-- The norms after one iteration. -/
structure Iteration (α : Type) where
  count : Nat
  residualNorm : α
  normalResidualNorm : α
  deriving DecidableEq, Repr

structure Result (α : Type) where
  x : Array α
  iterations : Nat
  residualNorm : α
  converged : Bool
  trace : List (Iteration α)
  deriving DecidableEq, Repr

inductive SolveError (α : Type) where
  | rhsLength (expected actual : Nat)
  | invalidTolerance (tol : α)
  | evaluation (e : GraphError)
  deriving DecidableEq, Repr

def SolveError.message : SolveError Float → String
  | rhsLength expected actual =>
    s!"right-hand side has {actual} elements, operator output has {expected}"
  | invalidTolerance tol =>
    "invalid solver option: tolerance must be non-negative, got "
      ++ String.ofList (NumberStyle.plain.text tol)
  | evaluation e => s!"operator evaluation failed: {e.message}"

/-- Where the iteration stands: the solution so far, its residual `r`, the direction `p` of the
next step, the squared length `gamma` of the normal residual, and the trace, the last entry
first. -/
structure State (α : Type) where
  x : Array α
  r : Array α
  p : Array α
  gamma : α
  trace : List (Iteration α)
  deriving DecidableEq, Repr

variable [SolverScalar α]

/-- The result of evaluating the graph on `input`. -/
def apply (elapsed : Duration) (d : Direction) (g : Graph α) (input : Array α) :
    Graph α × Except (Stop (SolveError α)) (Array α) :=
  match g.copyInput d input with
  | (g, .error e) => (g, .error (.fault (.evaluation e)))
  | (g, .ok ()) =>
    match g.evaluate d elapsed with
    | (g, .error stop) => (g, .error (stop.mapFault .evaluation))
    | (g, .ok ()) =>
      match g.copyOutput d (Array.replicate (g.resultLength d) 0) with
      | (_, .error e) => (g, .error (.fault (.evaluation e)))
      | (out, .ok ()) => (g, .ok out)

/-- The state after a step along `p`, given `q = A p`, its squared length, and how the normal
residual is found from the new residual. -/
def advance (st : State α) (r s x : Array α) : State α :=
  let gamma := Kernel.dot s s
  let beta := gamma / st.gamma
  { x, r, gamma
    p := Array.zipWith (fun si pi => si + beta * pi) s st.p
    trace := ⟨st.trace.length + 1, Kernel.norm2 r, SolverScalar.sqrt gamma⟩ :: st.trace }

/-- Iterates until the normal residual is within `threshold`, the direction is one that the
operator maps to zero, or no iteration is left. Tells whether it is within the threshold. -/
def iterate (elapsed : Duration) (threshold : α) :
    (left : Nat) → Graph α → State α → Graph α × Except (Stop (SolveError α)) (State α × Bool)
  | left, g, st =>
    if SolverScalar.le (SolverScalar.sqrt st.gamma) threshold then (g, .ok (st, true))
    else match left with
    | 0 => (g, .ok (st, false))
    | left + 1 =>
      match apply elapsed .forward g st.p with
      | (g, .error stop) => (g, .error stop)
      | (g, .ok q) =>
        let qq := Kernel.dot q q
        if Scalar.isZero qq then (g, .ok (st, false))
        else
          let alpha := st.gamma / qq
          let x := Kernel.axpy alpha st.p st.x
          let r := Kernel.axpy (-alpha) q st.r
          match apply elapsed .adjoint g r with
          | (g, .error stop) => (g, .error stop)
          | (g, .ok s) => iterate elapsed threshold left g (advance st r s x)

/-- Solves for the `x` that makes `A x - b` shortest. -/
def solve (elapsed : Duration) (g : Graph α) (b : Array α) (options : Options α) :
    Graph α × Except (Stop (SolveError α)) (Result α) :=
  if b.size ≠ g.outputLength then
    (g, .error (.fault (.rhsLength g.outputLength b.size)))
  else if SolverScalar.isNaN options.tol || SolverScalar.lt options.tol 0 then
    (g, .error (.fault (.invalidTolerance options.tol)))
  else
    let n := g.inputLength
    match apply elapsed .adjoint g b with
    | (g, .error stop) => (g, .error stop)
    | (g, .ok s) =>
      let threshold := options.tol * Kernel.norm2 s
      let start : State α := ⟨Array.replicate n 0, b, s, Kernel.dot s s, []⟩
      match iterate elapsed threshold options.maxIters.toNat g start with
      | (g, .error stop) => (g, .error stop)
      | (g, .ok (st, converged)) =>
        (g, .ok ⟨st.x, st.trace.length, Kernel.norm2 st.r, converged, st.trace.reverse⟩)

end MatrixFree.LeastSquares
