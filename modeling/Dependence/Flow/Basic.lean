import Dependence.Graph.Basic

/-!
# Flow graphs

A `FlowGraph` is a graph of the nodes of one table, Entry and Exit among them, for one unit of code.
-/

namespace Dependence

/-- The flow of control through one unit. -/
structure FlowGraph extends Graph Node where
  /-- The table that made the nodes. -/
  table : NodeTable
  unit : Value

namespace FlowGraph

/-- The node at which the unit starts. -/
def entry (f : FlowGraph) : Node := f.table.entry

/-- The node at which the unit ends. -/
def exit (f : FlowGraph) : Node := f.table.exit

/-- The flow graph of `unit` with the markers of `table` only. -/
def new (table : NodeTable) (unit : Value) : FlowGraph :=
  { toGraph := .ofNodes (.text "cfg") [table.entry, table.exit], table, unit }

instance : Inhabited FlowGraph := ⟨new default .none⟩

/-- The nodes that are no markers, in order of their positions. -/
def places (f : FlowGraph) : List Node :=
  (f.nodes.filter fun n => !n.isMarker).mergeSort Node.positionLe

/-- The first node at `position`. -/
def nodeAt? (f : FlowGraph) (position : Value) : Option Node :=
  f.nodes.find? fun n => n.isAt position

/-! ### Size -/

/-- Number of instructions in the graph. -/
def loc (f : FlowGraph) : Nat := (f.nodes.filter fun n => !n.isMarker).length

/-- Whether `n` leads to more than one node that is no marker. -/
def isBranch (f : FlowGraph) (n : Node) : Bool :=
  1 < ((f.successors n).filter fun s => !s.isMarker).length

/-- The branching nodes (`isBranch`), in order of their positions. -/
def branches (f : FlowGraph) : List Node :=
  (f.nodes.filter fun n => !n.isMarker && f.isBranch n).mergeSort Node.positionLe

/-- The number of independent ways through the unit: one more than there are `branches`. -/
def cyclomaticComplexity (f : FlowGraph) : Nat := f.branches.length + 1

end FlowGraph

end Dependence
