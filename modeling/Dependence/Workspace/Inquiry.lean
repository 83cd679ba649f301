import Dependence.Workspace.Command

/-!
# Commands that ask

The commands that read the graphs of a workspace, and those that run an analysis on them. Where a
node is asked about, it is found before the graph; where two nodes are, the graph is found first.

An analysis needs graphs of nodes. A graph that holds other objects is refused at the point where
the analysis asks them for something that only a node has.
-/

namespace Dependence

namespace Workspace

/-- The output nodes of the data dependence graph `data`, in order of their numbers (`Graph.sinks`).
-/
def outputs (w : Workspace) (data : Graph Thing) : Except Fault (List Node) := do
  let found ← data.sinks.mapM fun t => w.asNode .index (some t)
  return found.mergeSort Node.indexLe

/-- What the slices of all `outputs` share, for the metric `m`: the number of instructions only
matters to tightness. -/
def shared (w : Workspace) (m : Metric) (combined : Graph Thing) (outputs : List Node) :
    Except Fault Shared := do
  let _ : Labelled Thing := w.labelled
  let slices ← outputs.mapM fun o => do
    let behind ← combined.transitivePredecessors (some (.node o))
    return Shared.withOutput o (← behind.mapM fun t => w.asNode .isMarker (some t))
  let instructions ← match m with
    | .tightness => combined.nodes.mapM fun t => w.asNode .isMarker (some t)
    | .overlap => pure []
  return Shared.ofSlices (Shared.instructionCount instructions) slices

end Workspace

namespace Command

/-- What `node` is found to be, with its instruction as it is shown now (`Workspace.refreshed`). -/
def describe (node : Option String) : Command Node :=
  get fun w => do return w.refreshed (← w.asNode .index (← w.resolve node))

/-- What `table` holds. -/
def tableNodes (table : String) : Command (List (Option Thing)) :=
  get fun w => do
    let t ← w.named table
    match w.items? t with
    | some items => return items
    | none => .error (.lengthless (w.kind t))

/-! ### Reading graphs -/

/-- Whether `container` holds `node` (`Workspace.holds`). -/
def contains (container : String) (node : Option String) : Command Bool :=
  get fun w => do
    let n ← w.resolve node
    w.holds (← w.named container) n

/-- The successors of `node` in `graph` (`Graph.successorsOf`). -/
def successors (graph : String) (node : Option String) : Command (List Thing) :=
  get fun w => do
    let _ : Labelled Thing := w.labelled
    let n ← w.resolve node
    (← w.graph (← w.named graph) [.successors]).successorsOf n

/-- The predecessors of `node` in `graph` (`Graph.predecessorsOf`). -/
def predecessors (graph : String) (node : Option String) : Command (List Thing) :=
  get fun w => do
    let _ : Labelled Thing := w.labelled
    let n ← w.resolve node
    (← w.graph (← w.named graph) [.predecessors]).predecessorsOf n

/-- The edges from `source` to `target` in `graph`, which has to have the member `m`. -/
def between (m : Member) (graph : String) (source target : Option String) :
    Command (List (Edge Thing)) :=
  get fun w => do
    let t ← w.named graph
    let source ← w.resolve source
    let target ← w.resolve target
    return (← w.graph t [m]).betweenRefs source target

/-- The nodes of `graph`. -/
def nodes (graph : String) : Command (List (Option Thing)) :=
  get fun w => do
    let t ← w.named graph
    w.demand t [.nodes]
    return (w.items? t).getD []

/-- The edges of `graph`, as `Graph.listing` has them. -/
def edges (graph : String) : Command (List (Edge Thing)) :=
  get fun w => return (← w.graph (← w.named graph) [.edges]).listing

/-- The graph `graph`, to be described in numbers. -/
def numbered (graph : String) : Command (Graph Node) :=
  get fun w => do w.ofNodes (← w.graph (← w.named graph) [.name, .stats])

/-- What the view `name` shows. -/
def view (name : String) : Command (Graph Thing) :=
  get fun w => do w.graph (← w.named name) [.name, .nodes, .edges]

/-- The successors of every node of `graph` (`Graph.successorMap`). -/
def successorMap (graph : String) : Command (List (Thing × List Thing)) :=
  get fun w => return (← w.graph (← w.named graph) [.nodes, .successors]).successorMap.entries

/-- The nodes of `graph` from which `node` can be reached (`Graph.transitivePredecessors`). -/
def transitive (graph : String) (node : Option String) : Command (List Thing) :=
  get fun w => do
    let _ : Labelled Thing := w.labelled
    let n ← w.resolve node
    (← w.graph (← w.named graph) [.predecessors]).transitivePredecessors n

/-- The output nodes of `graph` (`Workspace.outputs`). -/
def outputs (graph : String) : Command (List Node) :=
  get fun w => do w.outputs (← w.graph (← w.named graph) [.nodes, .predecessors, .successors])

/-! ### Flow graphs -/

/-- The flow graph `graph`, to be measured. -/
def flow (graph : String) : Command FlowGraph :=
  get fun w => do w.flow (← w.named graph) [.nodes, .successors, .places]

/-- The first node at `position` of the flow graph `graph` (`FlowGraph.nodeAt?`). -/
def nodeAt (graph : String) (position : Value) : Command (Option Thing) :=
  get fun w => do
    let g ← w.graph (← w.named graph) [.nodeAt]
    g.nodes.findM? fun t => return (← w.asNode .position (some t)).isAt position

/-- The control dependence graph of the flow graph `graph` (`FlowGraph.controlDependence`). -/
def control (graph : String) (name : Option String) : Command (Graph Node) := do
  let f ← get fun w => do w.flow (← w.named graph) [.nodes, .successors, .exit]
  let g ← (f.controlDependence : Outcome (Graph Node))
  keep name { graph := g.map Thing.node, frame := none }
  return g

/-- What is known about control dependence at a node: the dependents of the node before the
post-dominators are there, the dependents with them, and the post-dominators. -/
structure ControlReport where
  before : List Node
  after : List Node
  dominators : Dominators Node

/-- What is known about control dependence at `node` of the flow graph `graph`. -/
def controlReport (graph : String) (node : Option String) : Command ControlReport := do
  let (f, n) ← get fun w => do
    let _ : Labelled Thing := w.labelled
    let n ← w.resolve node
    let t ← w.named graph
    let n ← (← w.graph t [.nodes, .successors]).member n
    let f ← w.flow t [.exit]
    return (f, ← w.asNode .isMarker (some n))
  let (d, _) ← (f.analyseControl : Outcome (Dominators Node × Graph Node))
  return { before := f.dependents .empty n, after := f.dependents d n, dominators := d }

/-! ### Dependence -/

/-- The combined graph of `control` and `data` over the nodes of `flow` (`Graph.union`). -/
def combine (flow control data : String) (name : Option String) : Command (Graph Thing) := do
  let (g, unit) ← get fun w => do
    let _ : Labelled Thing := w.labelled
    let t ← w.named flow
    let control ← w.named control
    let data ← w.named data
    let nodes := (← w.graph t [.nodes]).nodes
    let g ← Graph.union nodes (← w.graph control [.edges]) (← w.graph data [.edges])
    match (← w.sheet t [.unit]).frame with
    | some frame => return (g, frame.unit)
    | none => .error (w.lacks t .unit)
  (g.noteCombined unit : Outcome Unit)
  keep name { graph := g, frame := none }
  return g

/-- The backward slice of `node` (`Slice.backward`), as shown, and its members. -/
def slice (combined data : String) (node : Option String) (unit : Value) (name : Option String) :
    Command (String × Slice Thing) := do
  let attempt ← get fun w => do
    let _ : Labelled Thing := w.labelled
    let r ← w.resolve node
    let data ← w.named data
    let combined ← w.named combined
    let held ← if ← w.holds data r then w.holds combined r else pure false
    if held then
      let d ← w.graph data [.predecessors]
      let g ← w.graph combined [.predecessors]
      return Slice.backward g d r unit
    else return Outcome.fail (.analysis (Slice.notANode r unit))
  let s ← (attempt : Outcome (Slice Thing))
  return (← keepSlice name (s.map some), s)

/-- The value of the metric `m`, as `Metric.compute` has it for an analysis. -/
def metric (m : Metric) (combined data : String) (last : Option String) (mode : Option Value)
    (unit : Value) : Command Float := do
  let (g, last, mode, outputs) ← get fun w => do
    let data ← w.named data
    let combined ← w.named combined
    let last ← last.elim (.ok none) w.named
    let mode ← mode.elim (.ok .lastSlice) MetricMode.named
    let d ← w.graph data [.nodes, .predecessors, .successors]
    return (combined, last, mode, ← w.outputs d)
  (m.needsOutputs outputs.length unit : Outcome Unit)
  match mode with
  | .lastSlice =>
    let size ← get fun w => do
      match last with
      | none => return none
      | some (.slice k) => return w.slices[k]?.map (·.transitive.length)
      | t => .error (w.lacks t .transitive)
    (m.ofLast size outputs.length unit : Outcome Float)
  | .allOutputs =>
    let s ← get fun w => do w.shared m (← w.graph g [.predecessors]) outputs
    (m.ofShared s : Except Fault Float)

end Command

end Dependence
