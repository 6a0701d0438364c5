import MatrixFree.Ident
import MatrixFree.Operator.Basic

/-!
# Port checks

Which signatures an operator can be applied on. `Operator.check` refuses all others, with the
first reason it meets, before any buffer is laid out.
-/

namespace MatrixFree

/-- Two lengths that an operator requires to be equal. -/
inductive Agreement where
  | inputOutput
  | matrixData
  | product
  | summand
  | copied
  | concatenated
  | splitOutputs
  | blockColumns
  | stackedRows
  | stackedLength
  | transposedRows
  | transposedColumns
  | squareOutput
  | squareInput
  | convolution
  deriving DecidableEq, Repr

def Agreement.text : Agreement → String
  | inputOutput => "input vs output length"
  | matrixData => "matrix data vs rows * cols"
  | product => "output length vs rows * k"
  | summand => "summand vs output length"
  | copied => "copy vs input length"
  | concatenated => "concatenated inputs vs output length"
  | splitOutputs => "input vs split outputs length"
  | blockColumns => "block columns vs output columns"
  | stackedRows => "stacked rows vs output rows"
  | stackedLength => "stacked length vs output length"
  | transposedRows => "output rows vs input columns"
  | transposedColumns => "output columns vs input rows"
  | squareOutput => "output length vs n * n"
  | squareInput => "input length vs n * n"
  | convolution => "output length vs n + k - 1"

/-- A size that an operator computes from what is declared. -/
inductive Quantity where
  | matrixSize
  | productSize
  | stackedRows
  | lastIndex
  | square
  | convolution
  deriving DecidableEq, Repr

def Quantity.text : Quantity → String
  | matrixSize => "rows * cols"
  | productSize => "rows * k"
  | stackedRows => "stacked rows"
  | lastIndex => "last index"
  | square => "n * n"
  | convolution => "n + k - 1"

/-- Why an operator cannot be applied on a signature. -/
inductive ShapeFault where
  | portCount (side : Side) (expected found : Nat)
  | noPorts (side : Side)
  | lengths (which : Agreement) (found required : Nat)
  | tooLarge (which : Quantity)
  | noRows
  | notMultiple (length cols : Nat)
  | rowStartCount (found rows : Nat)
  | rowStartOrder
  | storedEntries (expected columns values : Nat)
  | columnOutOfRange (column cols : Nat)
  | zeroStep
  | pastInput (start last step length : Nat)
  | noTaps
  deriving DecidableEq, Repr

def ShapeFault.message : ShapeFault → String
  | portCount side expected found => s!"expected {expected} {side.text} port(s), found {found}"
  | noPorts side => s!"expected at least one {side.text} port"
  | lengths which found required => s!"{which.text}: {found} != {required}"
  | tooLarge which => s!"{which.text} overflows"
  | noRows => "matrix has no rows"
  | notMultiple length cols =>
    s!"input of {length} elements is not a multiple of {cols} matrix columns"
  | rowStartCount found rows => s!"indptr has {found} entries for {rows} rows"
  | rowStartOrder => "indptr is not monotone"
  | storedEntries expected columns values =>
    s!"expected {expected} stored entries, found {columns} indices and {values} values"
  | columnOutOfRange column cols => s!"column index {column} out of range for {cols} columns"
  | zeroStep => "index step must be positive"
  | pastInput start last step length =>
    s!"index {start} + {last} * {step} reaches past input of length {length}"
  | noTaps => "convolution kernel is empty"

/-- A check of declared shapes: it passes, names a fault, or traps. -/
abbrev ShapeCheck (α : Type) := Except (Stop ShapeFault) α

namespace ShapeCheck

def refuse {α : Type} (f : ShapeFault) : ShapeCheck α := .error (.fault f)

def agree (which : Agreement) (found required : Nat) : ShapeCheck Unit :=
  if found = required then .ok () else refuse (.lengths which found required)

/-- The computed size, which has to be a machine word. -/
def sized (which : Quantity) : Option Nat → ShapeCheck Nat
  | some n => .ok n
  | none => refuse (.tooLarge which)

/-- The shape on a port that has to be there. -/
def port (shapes : List Shape) (i : Nat) : ShapeCheck Shape := (Table.pick shapes i).lift

/-- Quotient and remainder by a number that must not be zero. -/
def divide (n d : Nat) : ShapeCheck (Nat × Nat) :=
  if d = 0 then .error (.trap .divisionByZero) else .ok (n / d, n % d)

/-- The number before `n`, which must not be zero. -/
def pred (n : Nat) : ShapeCheck Nat :=
  if n = 0 then .error (.trap .sizeOverflow) else .ok (n - 1)

/-- Requires a number of ports on one side: a given one, or any but none. -/
def portsOn (side : Side) (shapes : List Shape) : Option Nat → ShapeCheck Unit
  | some n => if shapes.length = n then .ok () else refuse (.portCount side n shapes.length)
  | none => if shapes.length = 0 then refuse (.noPorts side) else .ok ()

/-- Requires the number of ports on both sides. -/
def ports (sig : Signature) (inputs outputs : Option Nat) : ShapeCheck Unit := do
  portsOn .input sig.inputs inputs
  portsOn .output sig.outputs outputs

end ShapeCheck

open ShapeCheck

/-- Whether the row starts, columns and values of a sparse matrix fit together. -/
def SparseMatrix.check {α : Type} (A : SparseMatrix α) : ShapeCheck Unit := do
  if some A.rowStarts.size ≠ Size.add? A.rows.toNat 1 then
    refuse (.rowStartCount A.rowStarts.size A.rows.toNat)
  if (A.rowStarts.zip (A.rowStarts.drop 1)).any fun (a, b) => b < a then
    refuse .rowStartOrder
  let stored := (A.rowStarts.back?.getD 0).toNat
  if A.columns.size ≠ stored ∨ A.values.size ≠ stored then
    refuse (.storedEntries stored A.columns.size A.values.size)
  if let some c := A.columns.find? (A.cols ≤ ·) then
    refuse (.columnOutOfRange c.toNat A.cols.toNat)

namespace Operator

variable {α : Type}

/-- Whether the input of a product with a matrix is a number of columns, and the output as many
columns of products. -/
def checkProduct (rows cols : Nat) (sig : Signature) : ShapeCheck Unit := do
  let input ← port sig.inputs 0
  if rows = 0 then refuse .noRows
  if cols = 0 then refuse (.notMultiple input.size cols)
  let (k, rest) ← divide input.size cols
  if rest ≠ 0 then refuse (.notMultiple input.size cols)
  let expected ← sized .productSize (Size.mul? rows k)
  agree .product (← port sig.outputs 0).size expected

/-- Whether the operator can be applied on the signature. -/
def check (op : Operator α) (sig : Signature) : ShapeCheck Unit := do
  match op with
  | identity | negate | scale _ =>
    ports sig (some 1) (some 1)
    agree .inputOutput sig.inputLength sig.outputLength
  | dense A =>
    ports sig (some 1) (some 1)
    agree .matrixData A.data.size
      (← sized .matrixSize (Size.mul? A.rows.toNat A.cols.toNat))
    checkProduct A.rows.toNat A.cols.toNat sig
  | sparse A =>
    ports sig (some 1) (some 1)
    A.check
    checkProduct A.rows.toNat A.cols.toNat sig
  | sum =>
    ports sig none (some 1)
    let out ← port sig.outputs 0
    sig.inputs.forM fun s => agree .summand s.size out.size
  | copy =>
    ports sig (some 1) none
    let inp ← port sig.inputs 0
    sig.outputs.forM fun s => agree .copied s.size inp.size
  | concat =>
    ports sig none (some 1)
    agree .concatenated sig.inputLength sig.outputLength
  | split =>
    ports sig (some 1) none
    agree .splitOutputs sig.inputLength sig.outputLength
  | stack =>
    ports sig none (some 1)
    let out ← port sig.outputs 0
    sig.inputs.forM fun s => agree .blockColumns s.cols out.cols
    let rows ← sized .stackedRows (sig.inputs.foldlM (fun n s => Size.add? n s.rows) 0)
    agree .stackedRows rows out.rows
    agree .stackedLength sig.inputLength out.size
  | stride start step =>
    ports sig (some 1) (some 1)
    if step = 0 then refuse .zeroStep
    if sig.outputLength = 0 then return
    let steps ← pred sig.outputLength
    let last ← sized .lastIndex ((Size.mul? steps step.toNat).bind (Size.add? · start.toNat))
    if sig.inputLength ≤ last then
      refuse (.pastInput start.toNat steps step.toNat sig.inputLength)
  | transpose =>
    ports sig (some 1) (some 1)
    let inp ← port sig.inputs 0
    let out ← port sig.outputs 0
    agree .transposedRows out.rows inp.cols
    agree .transposedColumns out.cols inp.rows
  | diagonal =>
    ports sig (some 1) (some 1)
    let n := sig.inputLength
    agree .squareOutput sig.outputLength (← sized .square (Size.mul? n n))
  | diagonalPart =>
    ports sig (some 1) (some 1)
    let n := sig.outputLength
    agree .squareInput sig.inputLength (← sized .square (Size.mul? n n))
  | convolve taps =>
    ports sig (some 1) (some 1)
    if taps.isEmpty then refuse .noTaps
    let full ← sized .convolution (Size.add? sig.inputLength (← pred taps.size))
    agree .convolution sig.outputLength full

end Operator

end MatrixFree
