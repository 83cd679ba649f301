import Dependence.Flow.Basic
import Dependence.Method.Basic

/-!
# Building flow graphs

The flow graph of a method has a node for position `0` and for every position that a transition
mentions. A node without a successor leads to Exit, a node without a predecessor is entered from
Entry, and an empty method leads from Entry to Exit.

Building fails when stream and transitions cannot be read, and when a transition has an endpoint
that is no position of the stream. The first fault counts: a transition that cannot be read comes
before any endpoint.

* `FlowGraph.endpoints` — the positions that transitions name;
* `FlowGraph.connect` — the graph of a stream and its transitions;
* `FlowGraph.build` — the whole, with its log.
-/

namespace Dependence

/-- Whether a fault means that the flow of control could not be found; others are passed on. -/
def Fault.Kind.spoilsFlow : Fault.Kind → Bool
  | .malformedCode | .badIndex | .missingKey | .wrongType | .badValue | .badText => true
  | _ => false

namespace FlowGraph

/-- The position that an endpoint names: a whole number within a stream of `length` instructions. -/
def endpoint? (length : Nat) : Value → Option Nat
  | .number n => n.index?.bind fun i => if 0 ≤ i ∧ i < length then some i.toNat else none
  | _ => none

/-- The position that the endpoint `v` names, or `v` itself if it names none. -/
def endpoint (length : Nat) (v : Value) : Except Value Nat :=
  match endpoint? length v with
  | some i => .ok i
  | none => .error v

/-- The positions that the transitions `pairs` name, or the first endpoint that names none: in the
order of the transitions, the source before the target. -/
def endpoints (length : Nat) (pairs : List (Value × Value)) : Except Value (List (Nat × Nat)) :=
  pairs.mapM fun p => return (← endpoint length p.1, ← endpoint length p.2)

/-- Add the node of the position `i` of `stream` (`NodeTable.nodeFor`). -/
def place (stream : List (Option Instruction)) (f : FlowGraph) (i : Nat) : FlowGraph × Node :=
  let (table, n) := f.table.nodeFor (stream[i]?.getD none) (.int i)
  ({ f with toGraph := f.toGraph.addNode n, table }, n)

/-- Add an edge without attributes from `source` to `target`. -/
def link (f : FlowGraph) (source target : Node) : Except Fault FlowGraph :=
  return { f with toGraph := ← f.toGraph.addEdge source target .empty }

/-- Add the transition `t` and the nodes of its positions (`place`). -/
def addTransition (stream : List (Option Instruction)) (f : FlowGraph) (t : Nat × Nat) :
    Except Fault FlowGraph :=
  let (f, source) := f.place stream t.1
  let (f, target) := f.place stream t.2
  f.link source target

/-- Lead `n` to Exit if it has no successors, and enter it from Entry if it has no predecessors. -/
def bound (f : FlowGraph) (n : Node) : Except Fault FlowGraph := do
  let f ← if (f.successors n).isEmpty then f.link n f.exit else .ok f
  if (f.predecessors n).isEmpty then f.link f.entry n else .ok f

/-- **The graph of `stream` and its `transitions`**: `addTransition` for each of them, then `bound`
for each position. -/
def connect (table : Nat) (unit : Value) (stream : List (Option Instruction))
    (transitions : List (Nat × Nat)) : Except Fault FlowGraph := do
  let f := FlowGraph.new (.new table) unit
  let f := if stream.isEmpty then f else (f.place stream 0).1
  let f ← transitions.foldlM (addTransition stream) f
  let f ← f.places.foldlM bound f
  if f.nodes.length = 2 then f.link f.entry f.exit else .ok f

/-- A record of this stage, about `unit`. -/
def record (severity : Severity) (unit : Value) (message : String) : Record :=
  { severity, component := .flow, message := unit.plain ++ ": " ++ message }

/-- The graph of what was discovered (`connect`), once all `endpoints` name positions. -/
def ofDiscovery (table : Nat) (unit : Value) (stream : List (Option Instruction))
    (pairs : List (Value × Value)) : Outcome FlowGraph :=
  match endpoints stream.length pairs with
  | .error v =>
    { log := [record .warning unit s!"edge endpoint {v.quoted} out of range"]
      result := .error <| .analysis <| .of .failure
        (s!"edge endpoint {v.quoted} is outside the instruction stream " ++
          s!"(length {stream.length})") unit }
  | .ok transitions =>
    match connect table unit stream transitions with
    | .error f => .fail (.fault f)
    | .ok f =>
      let synthetic := f.edges.length - pairs.length
      { log := [record .debug unit <| s!"CFG with {f.nodes.length} nodes, " ++
          s!"{pairs.length} discovered and {synthetic} synthetic edges"]
        result := .ok f }

/-- The failure that the fault `cause` in the discovery of flow amounts to. -/
def discoveryFailed (unit : Value) (cause : Fault) : Outcome FlowGraph where
  log := [record .warning unit ("control flow discovery failed: " ++ cause.message)]
  result := .error <| .analysis
    { AnalysisError.of .failure cause.message unit with cause := some cause }

/-- What to do when discovery failed: a fault that spoils the flow (`Fault.Kind.spoilsFlow`) is a
failure of this stage. -/
def onDiscoveryError (unit : Value) : Error → Outcome FlowGraph
  | .fault f => if f.kind.spoilsFlow then discoveryFailed unit f else .fail (.fault f)
  | e => .fail e

/-- **The flow graph of `m`**, for the unit `given` or the method's own name. The number `table` is
the identity of the table that makes the nodes. -/
def build (m : Method) (table : Nat) (given : Value) : Outcome FlowGraph :=
  let unit := if given.isTruthy then given else m.name
  let found := m.discover
  let rest := match found.result with
    | .ok (stream, pairs) => ofDiscovery table unit stream pairs
    | .error e => onDiscoveryError unit e
  { rest with log := found.log ++ rest.log }

end FlowGraph

end Dependence
