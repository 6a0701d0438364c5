import MatrixFree.Operator.Basic

/-!
# Applying an operator

`Operator.forward` and `Operator.adjoint` compute the contents of a result buffer from those of
the other buffer and from what the result buffer held before. The operators that only move
elements are given by their links: which element of the output is which element of the input. The
forward map copies along the links and the adjoint copies back.
-/

namespace MatrixFree.Operator

variable {α : Type}

/-- One element of the output and the element of the input that it is. -/
structure Link where
  output : Nat
  input : Nat
  deriving DecidableEq, Repr

/-- The places of a matrix as row and column, column by column. -/
def cells (rows cols : Nat) : List (Nat × Nat) :=
  if rows = 0 then []
  else (List.range cols).flatMap fun j => (List.range rows).map fun i => (i, j)

def strideLinks (start step outputs : Nat) : List Link :=
  (List.range outputs).map fun i => ⟨i, start + i * step⟩

def transposeLinks (rows cols : Nat) : List Link :=
  (cells rows cols).map fun (i, j) => ⟨j + i * cols, i + j * rows⟩

/-- Places of the diagonal of a square matrix, beside the places of a vector. -/
def diagonalLinks (n : Nat) : List (Nat × Nat) :=
  (List.range n).map fun i => (i + i * n, i)

/-- The blocks of a matrix with `total` rows, the first of them below `above` rows and from
`base` on in the input. -/
def stackLinks (total : Nat) : (above base : Nat) → List Shape → List Link
  | _, _, [] => []
  | above, base, s :: rest =>
    (cells s.rows s.cols).map (fun (i, j) => ⟨j * total + above + i, base + j * s.rows + i⟩)
      ++ stackLinks total (above + s.rows) (base + s.size) rest

/-- The output after copying along the links. -/
def gather (links : List Link) (input output : Array α) : Checked (Array α) :=
  Table.transfer input (links.map fun l => (l.output, l.input)) output

/-- The input after copying back along the links. -/
def scatter (links : List Link) (output input : Array α) : Checked (Array α) :=
  Table.transfer output (links.map fun l => (l.input, l.output)) input

section

variable [Scalar α]

/-- `alpha * src` in place of `dest`. -/
def rescale (alpha : α) (dest src : Array α) : Checked (Array α) :=
  Buffer.paired dest src (Kernel.scaleInto alpha dest src)

/-- The sum of the given parts in place of `dest`. -/
def sumOf (parts : List (Array α)) (dest : Array α) : Checked (Array α) :=
  match parts with
  | [] => .error .outOfRange
  | first :: rest => do
    rest.foldlM (fun acc part => Buffer.paired acc part (Kernel.addAssign acc part))
      (← Buffer.copy dest first)

/-- Adds to `output`, for each element of the input from place `i` on, the taps times it. -/
def spread (taps : Array α) :
    (i : Nat) → (input : List α) → (output : Array α) → Checked (Array α)
  | _, [], output => .ok output
  | i, x :: input, output => do
    Table.range output i taps.size
    spread taps (i + 1) input (Kernel.axpyFrom x taps i output)

/-- The inner product of the taps with each of `n` successive windows. -/
def slide (taps output : Array α) (n : Nat) : Checked (Array α) :=
  (Array.range n).mapM fun i => do return Kernel.dot taps (← Table.slice output i taps.size)

/-- The output buffer after the operator is applied to `input`; `stale` is what it held before. -/
def forward (op : Operator α) (sig : Signature) (input stale : Array α) : Checked (Array α) :=
  match op with
  | identity | concat | split => Buffer.copy stale input
  | negate => rescale Scalar.negOne stale input
  | scale factor => rescale factor stale input
  | dense A => A.mul input stale
  | sparse A => A.mul input stale
  | sum => do sumOf (← Buffer.segments input 0 (sig.inputs.map Shape.size)) stale
  | copy => Buffer.mapSegments (fun part => Buffer.copy part input)
      (sig.outputs.map Shape.size) stale
  | stack => do
    let total ← Table.pick sig.outputs 0
    gather (stackLinks total.rows 0 0 sig.inputs) input stale
  | stride start step => gather (strideLinks start.toNat step.toNat stale.size) input stale
  | transpose => do
    let shape ← Table.pick sig.inputs 0
    gather (transposeLinks shape.rows shape.cols) input stale
  | diagonal => Table.transfer input (diagonalLinks input.size) (Buffer.fill stale 0)
  | diagonalPart => Table.transfer input ((diagonalLinks stale.size).map Prod.swap) stale
  | convolve taps => spread taps 0 input.toList (Buffer.fill stale 0)

/-- The input buffer after the transposed operator is applied to `output`; `stale` is what it
held before. -/
def adjoint (op : Operator α) (sig : Signature) (output stale : Array α) : Checked (Array α) :=
  match op with
  | identity | concat | split => Buffer.copy stale output
  | negate => rescale Scalar.negOne stale output
  | scale factor => rescale factor stale output
  | dense A => A.mulTranspose output stale
  | sparse A => A.mulTranspose output stale
  | sum => Buffer.mapSegments (fun part => Buffer.copy part output)
      (sig.inputs.map Shape.size) stale
  | copy => do sumOf (← Buffer.segments output 0 (sig.outputs.map Shape.size)) stale
  | stack => do
    let total ← Table.pick sig.outputs 0
    scatter (stackLinks total.rows 0 0 sig.inputs) output stale
  | stride start step =>
    scatter (strideLinks start.toNat step.toNat output.size) output (Buffer.fill stale 0)
  | transpose => do
    let shape ← Table.pick sig.inputs 0
    scatter (transposeLinks shape.rows shape.cols) output stale
  | diagonal => Table.transfer output ((diagonalLinks stale.size).map Prod.swap) stale
  | diagonalPart => Table.transfer output (diagonalLinks output.size) (Buffer.fill stale 0)
  | convolve taps => slide taps output stale.size

end

end MatrixFree.Operator
