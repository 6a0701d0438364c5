import MatrixFree.Description.Basic
import MatrixFree.Json.Reader
import MatrixFree.LeastSquares

/-!
# The form of a description

How the parts of a description are written as values. Each part has a function that writes it, a
reader that checks a document against its form, and a function that takes a value of that form
back to the part.
-/

namespace MatrixFree

open Json

/-! ### Words and numbers -/

namespace Form

def ofNat (n : Nat) : Value := .number (.integer n)

def toNat : Value → Nat
  | .number (.integer n) => n.toNat
  | _ => 0

def ofSize (n : UInt64) : Value := ofNat n.toNat

def toSize (v : Value) : UInt64 := UInt64.ofNat (toNat v)

def ofWord (n : UInt32) : Value := ofNat n.toNat

def toWord (v : Value) : UInt32 := UInt32.ofNat (toNat v)

def ofFloat (x : Float) : Value := .number (.float x)

def toFloat : Value → Float
  | .number (.float x) => x
  | _ => 0.0

def toBool : Value → Bool
  | .bool b => b
  | _ => false

def ofOption : Option String → Value
  | none => .null
  | some s => .string s

def toOption : Value → Option String
  | .string s => some s
  | _ => none

def ofList {β : Type} (f : β → Value) (l : List β) : Value := .array (l.map f)

def toList {β : Type} (f : Value → β) (v : Value) : List β := v.items.map f

/-- A field that has to be there. -/
def required (name : String) (read : Reader) : Field := ⟨name, read, none⟩

def ofNode (n : NodeId) : Value := ofWord n.val

def toNode (v : Value) : NodeId := ⟨toWord v⟩

def ofEdgeId (e : EdgeId) : Value := ofWord e.val

def toEdgeId (v : Value) : EdgeId := ⟨toWord v⟩

def directionReader : Reader := .choice ["Forward", "Adjoint"]

def ofShape (s : Shape) : Value := ofList ofSize s.dims

def toShape (v : Value) : Shape := ⟨toList toSize v⟩

def shapeReader : Reader := .list .size

/-! ### Operators -/

def ofDense (m : DenseMatrix Float) : Value :=
  .object [("rows", ofSize m.rows), ("cols", ofSize m.cols), ("data", ofList ofFloat m.data.toList)]

def toDense (v : Value) : DenseMatrix Float :=
  ⟨toSize (v.field "rows"), toSize (v.field "cols"), (toList toFloat (v.field "data")).toArray⟩

def denseReader : Reader :=
  .record "struct DenseMatrix"
    [required "rows" .size, required "cols" .size, required "data" (.list .float)]

def ofSparse (m : SparseMatrix Float) : Value :=
  .object [("rows", ofSize m.rows), ("cols", ofSize m.cols),
    ("indptr", ofList ofSize m.rowStarts.toList), ("indices", ofList ofSize m.columns.toList),
    ("values", ofList ofFloat m.values.toList)]

def toSparse (v : Value) : SparseMatrix Float :=
  ⟨toSize (v.field "rows"), toSize (v.field "cols"), (toList toSize (v.field "indptr")).toArray,
    (toList toSize (v.field "indices")).toArray, (toList toFloat (v.field "values")).toArray⟩

def sparseReader : Reader :=
  .record "struct CsrMatrix"
    [required "rows" .size, required "cols" .size, required "indptr" (.list .size),
      required "indices" (.list .size), required "values" (.list .float)]

/-- The fields of an operator besides its name. -/
def operatorFields : Operator Float → List (String × Value)
  | .scale factor => [("alpha", ofFloat factor)]
  | .dense m => [("matrix", ofDense m)]
  | .sparse m => [("matrix", ofSparse m)]
  | .stride start step => [("start", ofSize start), ("step", ofSize step)]
  | .convolve taps => [("kernel", ofList ofFloat taps.toList)]
  | _ => []

def ofOperator (op : Operator Float) : Value :=
  .object (("type", .string op.name) :: operatorFields op)

def toOperator (v : Value) : Operator Float :=
  match v.field "type" with
  | .string "neg" => .negate
  | .string "scalar_mul" => .scale (toFloat (v.field "alpha"))
  | .string "dense_mat_mul" => .dense (toDense (v.field "matrix"))
  | .string "sparse_mat_mul" => .sparse (toSparse (v.field "matrix"))
  | .string "sum" => .sum
  | .string "copy" => .copy
  | .string "concat" => .concat
  | .string "split" => .split
  | .string "vstack" => .stack
  | .string "index" => .stride (toSize (v.field "start")) (toSize (v.field "step"))
  | .string "transpose" => .transpose
  | .string "diag_vec" => .diagonal
  | .string "diag_mat" => .diagonalPart
  | .string "conv" => .convolve (toList toFloat (v.field "kernel")).toArray
  | _ => .identity

def operatorReader : Reader :=
  .tagged "internally tagged enum Operator" "type"
    [⟨"no_op", "unit variant Operator::NoOp", []⟩,
      ⟨"neg", "unit variant Operator::Neg", []⟩,
      ⟨"scalar_mul", "struct variant Operator::ScalarMul", [required "alpha" .float]⟩,
      ⟨"dense_mat_mul", "struct variant Operator::DenseMatMul", [required "matrix" denseReader]⟩,
      ⟨"sparse_mat_mul", "struct variant Operator::SparseMatMul",
        [required "matrix" sparseReader]⟩,
      ⟨"sum", "unit variant Operator::Sum", []⟩,
      ⟨"copy", "unit variant Operator::Copy", []⟩,
      ⟨"concat", "unit variant Operator::Concat", []⟩,
      ⟨"split", "unit variant Operator::Split", []⟩,
      ⟨"vstack", "unit variant Operator::Vstack", []⟩,
      ⟨"index", "struct variant Operator::Index", [required "start" .size, required "step" .size]⟩,
      ⟨"transpose", "unit variant Operator::Transpose", []⟩,
      ⟨"diag_vec", "unit variant Operator::DiagVec", []⟩,
      ⟨"diag_mat", "unit variant Operator::DiagMat", []⟩,
      ⟨"conv", "struct variant Operator::Conv", [required "kernel" (.list .float)]⟩]

/-! ### Graphs -/

def ofNodeSpec (n : NodeSpec Float) : Value :=
  .object [("op", ofOperator n.op), ("input_sizes", ofList ofShape n.input.shapes),
    ("output_sizes", ofList ofShape n.output.shapes),
    ("input_edges", ofList ofEdgeId n.input.edges),
    ("output_edges", ofList ofEdgeId n.output.edges)]

def toNodeSpec (v : Value) : NodeSpec Float :=
  ⟨toOperator (v.field "op"),
    ⟨toList toEdgeId (v.field "input_edges"), toList toShape (v.field "input_sizes")⟩,
    ⟨toList toEdgeId (v.field "output_edges"), toList toShape (v.field "output_sizes")⟩⟩

def nodeSpecReader : Reader :=
  .record "struct NodeDescription"
    [required "op" operatorReader, required "input_sizes" (.list shapeReader),
      required "output_sizes" (.list shapeReader),
      ⟨"input_edges", .list .word, some (.array [])⟩,
      ⟨"output_edges", .list .word, some (.array [])⟩]

def toEdge (v : Value) : Edge := ⟨toNode (v.field "source"), toNode (v.field "target")⟩

def edgeReader : Reader :=
  .record "struct Edge" [required "source" .word, required "target" .word]

def ofEdgeSpec (e : EdgeSpec) : Value :=
  .object [("id", ofEdgeId e.id), ("source", ofNode e.ends.source),
    ("target", ofNode e.ends.target)]

def toEdgeSpec (v : Value) : EdgeSpec := ⟨toEdgeId (v.field "id"), toEdge v⟩

def edgeSpecReader : Reader :=
  .record "struct EdgeDescription"
    [required "id" .word, required "source" .word, required "target" .word]

def ofConfig (c : Config) : Value :=
  .object [("verify_traversals", .bool c.verifyTraversals),
    ("report_on_drop", .bool c.reportOnDrop), ("label", ofOption c.label)]

def toConfig (v : Value) : Config :=
  ⟨toBool (v.field "verify_traversals"), toBool (v.field "report_on_drop"),
    toOption (v.field "label")⟩

def configReader : Reader :=
  .record "struct DagConfig"
    [⟨"verify_traversals", .bool, some (.bool true)⟩, ⟨"report_on_drop", .bool, some (.bool true)⟩,
      ⟨"label", .optionalString, some .null⟩]

def ofDescription (d : Description Float) : Value :=
  .object [("nodes", ofList ofNodeSpec d.nodes), ("edges", ofList ofEdgeSpec d.edges),
    ("root", ofNode d.root), ("terminal", ofNode d.terminal), ("config", ofConfig d.config)]

def toDescription (v : Value) : Description Float :=
  ⟨toList toNodeSpec (v.field "nodes"), toList toEdgeSpec (v.field "edges"),
    toNode (v.field "root"), toNode (v.field "terminal"), toConfig (v.field "config")⟩

def descriptionReader : Reader :=
  .record "struct DagDescription"
    [required "nodes" (.list nodeSpecReader), required "edges" (.list edgeSpecReader),
      required "root" .word, required "terminal" .word,
      ⟨"config", configReader, some (ofConfig {})⟩]

/-! ### Solver options -/

def optionsReader : Reader :=
  .record "struct CglsOptions"
    [⟨"max_iters", .size, some (ofSize LeastSquares.Options.standard.maxIters)⟩,
      ⟨"tol", .float, some (ofFloat LeastSquares.Options.standard.tol)⟩]

end Form

end MatrixFree
