import MatrixFree.Batch
import MatrixFree.Buffer
import MatrixFree.Config
import MatrixFree.Decimal.Magnitude
import MatrixFree.Decimal.Shortest
import MatrixFree.Decimal.Style
import MatrixFree.Description.Basic
import MatrixFree.Description.Form
import MatrixFree.Description.Text
import MatrixFree.Graph.Basic
import MatrixFree.Graph.Builder
import MatrixFree.GraphError
import MatrixFree.Ident
import MatrixFree.Json.Doc
import MatrixFree.Json.Fault
import MatrixFree.Json.Literal
import MatrixFree.Json.Numeral
import MatrixFree.Json.Reader
import MatrixFree.Json.Value
import MatrixFree.Kernel
import MatrixFree.LeastSquares
import MatrixFree.Matrix.Dense
import MatrixFree.Matrix.Sparse
import MatrixFree.Node.Basic
import MatrixFree.Node.Evaluate
import MatrixFree.Operator.Apply
import MatrixFree.Operator.Basic
import MatrixFree.Operator.Check
import MatrixFree.Registry
import MatrixFree.Routing
import MatrixFree.Scalar
import MatrixFree.Session.Basic
import MatrixFree.Session.Event
import MatrixFree.Shape
import MatrixFree.Size
import MatrixFree.Stats.Basic
import MatrixFree.Stats.Duration
import MatrixFree.Table
import MatrixFree.Text.Hidden
import MatrixFree.Text.Quoted
import MatrixFree.Topology.Basic
import MatrixFree.Topology.Cycle
import MatrixFree.Topology.Walk
import MatrixFree.Trap
import MatrixFree.Wiring
import MatrixFree.Proofs.Buffers
import MatrixFree.Proofs.Exact
import MatrixFree.Proofs.Kernels
import MatrixFree.Proofs.Shapes
import MatrixFree.Proofs.Links
import MatrixFree.Proofs.OperatorChecks
import MatrixFree.Proofs.Matrices
import MatrixFree.Proofs.Overwriting
import MatrixFree.Proofs.Adjoints
import MatrixFree.Proofs.Refusals
import MatrixFree.Proofs.Wirings
import MatrixFree.Proofs.Topologies
import MatrixFree.Proofs.Walks
import MatrixFree.Proofs.Cycles
import MatrixFree.Proofs.CycleChecks
import MatrixFree.Proofs.Construction
import MatrixFree.Proofs.Layouts
import MatrixFree.Proofs.Routes
import MatrixFree.Proofs.Acceptance
import MatrixFree.Proofs.Dataflow
import MatrixFree.Proofs.Evaluations
import MatrixFree.Proofs.Adjointness
import MatrixFree.Proofs.Sessions
import MatrixFree.Proofs.ConjugateGradients
import MatrixFree.Proofs.RealBuffers
import MatrixFree.Proofs.Solving
import MatrixFree.Proofs.Literals
import MatrixFree.Proofs.Numerals
import MatrixFree.Proofs.ShortestDecimals
import MatrixFree.Proofs.NumberTexts
import MatrixFree.Proofs.Documents
import MatrixFree.Proofs.Readers
import MatrixFree.Proofs.Forms
import MatrixFree.Proofs.Rounding
import MatrixFree.Proofs.MachineNumbers
import MatrixFree.Proofs.Rereading
import MatrixFree.Proofs.RoundTrips
import MatrixFree.Proofs.Orders
import MatrixFree.Proofs.Batches
import MatrixFree.Proofs.Finiteness
import MatrixFree.Proofs.Reloading
import MatrixFree.Proofs.Undoing
import MatrixFree.Proofs.SolveOutcomes
import MatrixFree.Proofs.Rebuilding
import MatrixFree.Proofs.Visits
import MatrixFree.Proofs.Calls
import MatrixFree.Proofs.Diagnoses
import MatrixFree.Proofs.Builders
import MatrixFree.Proofs.LinearMaps
import MatrixFree.Proofs.Iterations
import MatrixFree.Proofs.Residuals
import MatrixFree.Proofs.Descent
import MatrixFree.Proofs.Accounts
import MatrixFree.Proofs.Guards
import MatrixFree.Proofs.RowSpans
import MatrixFree.Proofs.Triplets
import MatrixFree.Proofs.Storages
import MatrixFree.Proofs.CheckedSizes
import MatrixFree.Proofs.Tilings
import MatrixFree.Proofs.Deliveries
import MatrixFree.Proofs.FreshNames
import MatrixFree.Proofs.Lanes
