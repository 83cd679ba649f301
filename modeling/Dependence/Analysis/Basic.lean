import Dependence.Combined
import Dependence.Control.Basic
import Dependence.Data.Basic
import Dependence.Flow.Build
import Dependence.Log.Action
import Dependence.Slice.Metric

/-!
# Analyses

An `Analysis` holds the flow graph of a method, and builds the dependence graphs when they are first
asked for. A graph that was built is kept; one whose building failed is tried again the next time.

A `Query` is a question to an analysis. It may build graphs, write to the log and fail; what was
built before it failed stays built.

* `Analysis.start`, `Analysis.eager` — an analysis of a method, with the graphs still to build or
  built;
* `Query.control`, `Query.data`, `Query.combined` — the three dependence graphs;
* `Query.slice`, `Query.outputs`, `Query.metric`, `Query.stats` — what is read off them.
-/

namespace Dependence

/-- An analysis of a method. -/
structure Analysis where
  method : Method
  options : Options
  flow : FlowGraph
  /-- The control dependence graph, once built. -/
  control : Option (Graph Node)
  /-- The data dependence graph, once built. -/
  data : Option (Graph Node)
  /-- The combined graph, once built. -/
  combined : Option (Graph Node)

/-- A question to an analysis. -/
abbrev Query := Action Analysis

namespace Query

/-- The control dependence graph, built once (`FlowGraph.controlDependence`). -/
def control : Query (Graph Node) :=
  Action.kept (·.control) (fun g a => { a with control := some g })
    fun a => (a, a.flow.controlDependence)

/-- The data dependence graph, built once (`FlowGraph.dataDependence`). -/
def data : Query (Graph Node) :=
  Action.kept (·.data) (fun g a => { a with data := some g })
    fun a => (a, a.flow.dataDependence a.method.toDefUse)

/-- The combined graph, built once: first `control`, then `data`, then their union
(`FlowGraph.combine`). -/
def combined : Query (Graph Node) :=
  Action.kept (·.combined) (fun g a => { a with combined := some g }) do
    let c ← control
    let d ← data
    fun a => (a, a.flow.combine c d)

/-- The unit of the analysis. -/
def unit : Query Value := Action.reads (·.flow.unit)

/-- The node of the instruction `i`, if it is in the flow graph. -/
def nodeFor (i : Option Instruction) : Query (Option Node) :=
  Action.reads fun a => (a.flow.table.lookup? i).filter fun n => a.flow.contains (some n)

/-- The backward slice of `r` (`Slice.backward`) in the `combined` and the `data` graph. -/
def slice (r : Option Node) : Query (Slice Node) := do
  let c ← combined
  let d ← data
  Slice.backward c d r (← unit)

/-- The output nodes of the `data` graph (`Graph.outputs`). -/
def outputs : Query (List Node) := return (← data).outputs

/-- The metric `m`, in the mode of the options (`Metric.compute`). -/
def metric (m : Metric) (last : Option (Slice Node)) : Query Float := do
  let c ← combined
  let d ← data
  m.compute c d last (← Action.reads (·.options.metricMode)) (← unit)

end Query

/-- An analysis in numbers. -/
structure Stats where
  unit : Value
  nodes : Nat
  flowEdges : Nat
  controlEdges : Nat
  dataEdges : Nat
  loc : Nat
  cyclomaticComplexity : Nat
  outputs : Nat

/-- The analysis in numbers. -/
def Query.stats : Query Stats := do
  let f ← Action.reads (·.flow)
  let c ← control
  let d ← data
  return {
    unit := f.unit
    nodes := f.nodes.length
    flowEdges := f.edges.length
    controlEdges := c.edges.length
    dataEdges := d.edges.length
    loc := f.loc
    cyclomaticComplexity := f.cyclomaticComplexity
    outputs := (← outputs).length }

/-- Make a node for `i`, which may not be in the flow graph; the graph stays as it is. -/
def Query.intern (i : Option Instruction) (position : Value) : Query Node :=
  Action.change fun a => do
    let (table, n) ← a.flow.table.nodeAt i position
    return ({ a with flow := { a.flow with table } }, n)

namespace Analysis

/-- An analysis of `m` with the flow graph only (`FlowGraph.build`). -/
def start (m : Method) (o : Options) : Outcome Analysis := do
  let flow ← FlowGraph.build m 0 .none
  return { method := m, options := o, flow, control := none, data := none, combined := none }

/-- An analysis of `m` with all graphs: `start`, then the query `combined`, which builds the others.
-/
def eager (m : Method) (o : Options) : Outcome Analysis := do
  let a ← start m o
  let (a, x) := Query.combined a
  let _ ← x
  return a

end Analysis

end Dependence
