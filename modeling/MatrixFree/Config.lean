/-!
# Configuration

The settings of one graph.
-/

namespace MatrixFree

structure Config where
  /-- Whether every evaluation checks that it visited all nodes. -/
  verifyTraversals : Bool := true
  /-- Whether a graph that is dropped reports its statistics. -/
  reportOnDrop : Bool := true
  /-- The name that the graph's events bear. -/
  label : Option String := none
  deriving DecidableEq, Repr

/-- The name of the graph in its events. -/
def Config.name (c : Config) : String := c.label.getD "fao_dag"

end MatrixFree
