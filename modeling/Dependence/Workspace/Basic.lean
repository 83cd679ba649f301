import Dependence.Combined
import Dependence.Control.Basic
import Dependence.Log.Action
import Dependence.Slice.Metric

/-!
# Workspaces

A `Workspace` is a place to build graphs by hand. It holds objects under names: instructions, nodes,
tables, graphs, views of graphs and slices. Storing under a name that is taken replaces what it
stood for.

Tables, graphs, views and slices are numbered and kept apart from their names, so that a graph can
be changed under one name and looked at under another. A view shows its graph as it is at the
moment, and cannot be changed.

Any object (`Thing`) can take the place of a node: it can be added to a graph, be a member of a
slice, or stand in a table as an instruction. So the graphs of a workspace are graphs of objects.
What the place then asks for and the object does not have is a fault (`Workspace.demand`).
-/

namespace Dependence

/-- An object of a workspace, which a name can stand for. -/
inductive Thing where
  | instruction (i : Instruction)
  | node (n : Node)
  | table (number : Nat)
  | graph (number : Nat)
  | view (number : Nat)
  | slice (number : Nat)
deriving DecidableEq, Inhabited

/-- The node that an object is, if it is one. -/
def Thing.node? : Thing → Option Node
  | node n => some n
  | _ => none

/-- What an object can be asked for. -/
inductive Member where
  | name
  | nodes
  | edges
  | addNode
  | addEdge
  | successors
  | predecessors
  | hasEdge
  | edgeData
  | view
  | stats
  | unit
  | entry
  | exit
  | places
  | nodeAt
  | nodeFor
  | lookup
  | transitive
  | index
  | position
  | isMarker
deriving DecidableEq, Inhabited

namespace Member

/-- What a member is called in a fault. -/
def word : Member → String
  | name => "name"
  | nodes => "nodes"
  | edges => "edges"
  | addNode => "add_node"
  | addEdge => "add_edge"
  | successors => "successors"
  | predecessors => "predecessors"
  | hasEdge => "has_edge"
  | edgeData => "edge_data"
  | view => "to_networkx"
  | stats => "stats"
  | unit => "unit"
  | entry => "entry"
  | exit => "exit"
  | places => "instruction_nodes"
  | nodeAt => "node_at"
  | nodeFor => "node_for"
  | lookup => "lookup"
  | transitive => "transitive"
  | index => "index"
  | position => "position"
  | isMarker => "is_synthetic"

/-- The members of a view. -/
def ofView : List Member :=
  [name, nodes, edges, addNode, addEdge, successors, predecessors, hasEdge]

/-- The members of a graph: those of a view, and those that only the graph itself has. -/
def ofGraph : List Member := ofView ++ [edgeData, view, stats]

/-- The members of a flow graph. -/
def ofFlow : List Member := ofGraph ++ [unit, entry, exit, places, nodeAt]

end Member

/-- What makes a graph a flow graph: a table, whose markers are Entry and Exit, and a unit. -/
structure Workspace.Frame where
  table : NodeTable
  unit : Value

/-- A graph of a workspace; a flow graph has a `Frame`. -/
structure Workspace.Sheet where
  graph : Graph Thing
  frame : Option Workspace.Frame

/-- A place to build graphs by hand. Lists are in order of the numbers. -/
structure Workspace where
  /-- What the names stand for; a name may stand for nothing. -/
  names : OrderedMap String (Option Thing)
  tables : List NodeTable
  sheets : List Workspace.Sheet
  /-- The number of the graph that each view shows. -/
  views : List Nat
  slices : List (Slice (Option Thing))
  /-- Number of instructions made so far. -/
  instructions : Nat
  /-- The instructions that were made for other objects, each with its object. -/
  standIns : List (Thing × Instruction)

namespace Workspace

/-- The workspace at the start. -/
def empty : Workspace :=
  { names := .empty, tables := [], sheets := [], views := [], slices := [], instructions := 0
    standIns := [] }

/-- The sheet that an object is (`Thing.graph`), or shows (`Thing.view`). -/
def sheet? (w : Workspace) : Option Thing → Option Sheet
  | some (.graph k) => w.sheets[k]?
  | some (.view k) => do w.sheets[← w.views[k]?]?
  | _ => none

/-! ### What objects have -/

/-- The word for the kind of the object `t`. -/
def kind (w : Workspace) (t : Option Thing) : String :=
  match t with
  | none => Value.none.kind
  | some (.instruction _) => "Statement"
  | some (.node _) => "Node"
  | some (.table _) => "NodeTable"
  | some (.graph _) => if ((w.sheet? t).bind (·.frame)).isSome then "ControlFlowGraph" else "Graph"
  | some (.view _) => "MultiDiGraph"
  | some (.slice _) => "SliceResult"

/-- The members that the object `t` can be asked for. -/
def members (w : Workspace) (t : Option Thing) : List Member :=
  match t with
  | none | some (.instruction _) => []
  | some (.node _) => [.index, .position, .isMarker]
  | some (.table _) => [.nodes, .entry, .exit, .nodeFor, .lookup]
  | some (.graph _) =>
    if ((w.sheet? t).bind (·.frame)).isSome then Member.ofFlow else Member.ofGraph
  | some (.view _) => Member.ofView
  | some (.slice _) => [.nodes, .transitive]

/-- The fault for a member `m` that the object `t` does not have. -/
def lacks (w : Workspace) (t : Option Thing) (m : Member) : Fault := .lacks (w.kind t) m.word

/-- The object `t` has to have the members `ms`; the first one that it does not have is reported
(`lacks`). -/
def demand (w : Workspace) (t : Option Thing) (ms : List Member) : Except Fault Unit :=
  match ms.find? fun m => !(w.members t).contains m with
  | some m => .error (w.lacks t m)
  | none => .ok ()

/-- What the object `t` holds, if it holds anything. -/
def items? (w : Workspace) (t : Option Thing) : Option (List (Option Thing)) :=
  match t with
  | some (.table k) => w.tables[k]?.map fun t => t.nodes.map fun n => some (.node n)
  | some (.slice k) => w.slices[k]?.map (·.nodes)
  | t => (w.sheet? t).map fun s => s.graph.nodes.map some

/-- Whether the object `t` holds `r` (`items?`). -/
def holds (w : Workspace) (t r : Option Thing) : Except Fault Bool :=
  match w.items? t with
  | some items => .ok (items.contains r)
  | none => .error (.notContainer (w.kind t))

/-! ### How objects are shown -/

/-- The label of a view of `g`. -/
def viewLabel (g : Graph Thing) : String :=
  let title := if g.name.isTruthy then s!" named {g.name.quoted}" else ""
  s!"MultiDiGraph{title} with {g.nodes.length} nodes and {g.edges.length} edges"

/-- The label of an object that is no slice. -/
def plainLabel (w : Workspace) (t : Option Thing) : String :=
  match t with
  | none => "None"
  | some (.instruction i) => i.text
  | some (.node n) => n.label
  | some (.view _) => ((w.sheet? t).map fun s => viewLabel s.graph).getD (w.kind t)
  | t => ((w.sheet? t).map fun s => s.graph.shown).getD (w.kind t)

/-- A slice as shown; its criterion may be a slice that was made before it. -/
def sliceLabel (w : Workspace) (number : Nat) : String :=
  match w.slices[number]? with
  | none => ""
  | some s => s.shownWith <|
    match s.criterion with
    | some (.slice k) => if k < number then w.sliceLabel k else ""
    | t => w.plainLabel t
termination_by number

/-- The label of an object. -/
def label (w : Workspace) : Option Thing → String
  | some (.slice k) => w.sliceLabel k
  | t => w.plainLabel t

/-- An object with its kind visible. -/
def shown (w : Workspace) : Option Thing → String
  | some (.instruction i) => i.shown
  | some (.node n) => n.shown
  | some (.view k) => w.kind (some (.view k))
  | t => w.label t

/-- How objects appear in messages; it depends on the graphs as they are. -/
abbrev labelled (w : Workspace) : Labelled Thing :=
  ⟨fun t => w.label (some t), fun t => w.shown (some t)⟩

/-! ### Finding objects -/

/-- The fault for a `name` that stands for nothing known. -/
def unknown (name : String) : Fault := .reported .missingKey name

/-- What `name` stands for. -/
def named (w : Workspace) (name : String) : Except Fault (Option Thing) :=
  match w.names.find? name with
  | some t => .ok t
  | none => .error (unknown name)

/-- The table with the markers of a table or of a flow graph, asked for the marker `m`. -/
def markersOf (w : Workspace) (t : Option Thing) (m : Member) : Except Fault NodeTable :=
  let table? : Option NodeTable := match t with
    | some (.table k) => w.tables[k]?
    | some (.graph _) => do return (← (← w.sheet? t).frame).table
    | _ => none
  match table? with
  | some table => .ok table
  | none => .error (w.lacks t m)

/-- What a reference means. No name means nothing. A name that is not known but ends in `.entry` or
`.exit` means the marker of what stands before the last point. -/
def resolve (w : Workspace) : Option String → Except Fault (Option Thing)
  | none => .ok none
  | some name =>
    match w.names.find? name with
    | some t => .ok t
    | none => do
      let parts := name.splitOn "."
      let owner := ".".intercalate parts.dropLast
      match parts.getLast? with
      | some "entry" => return some (.node (← w.markersOf (← w.named owner) .entry).entry)
      | some "exit" => return some (.node (← w.markersOf (← w.named owner) .exit).exit)
      | _ => .error (unknown name)

/-- The table that the object `t` is, with its number, where it is asked for a member `m` that only
tables have. -/
def table (w : Workspace) (t : Option Thing) (m : Member) : Except Fault (Nat × NodeTable) :=
  let table? : Option (Nat × NodeTable) := match t with
    | some (.table k) => w.tables[k]?.map fun table => (k, table)
    | _ => none
  match table? with
  | some found => .ok found
  | none => .error (w.lacks t m)

/-- The sheet that the object `t` is or shows (`sheet?`), where it has to have the members `ms`. -/
def sheet (w : Workspace) (t : Option Thing) (ms : List Member) : Except Fault Sheet := do
  w.demand t ms
  match w.sheet? t with
  | some s => return s
  | none => .error (w.lacks t .nodes)

/-- The graph of the object `t`, where it has to have the members `ms`. -/
def graph (w : Workspace) (t : Option Thing) (ms : List Member) : Except Fault (Graph Thing) :=
  return (← w.sheet t ms).graph

/-- Change the graph that the object `t` is by `f`; a view cannot be changed. -/
def changeGraph {α : Type} (w : Workspace) (t : Option Thing) (m : Member)
    (f : Graph Thing → Except Fault (Graph Thing × α)) :
    Except Fault (Workspace × Graph Thing × α) := do
  let s ← w.sheet t [m]
  match t with
  | some (.graph k) =>
    let (g, v) ← f s.graph
    return ({ w with sheets := w.sheets.set k { s with graph := g } }, g, v)
  | _ => .error .readOnly

/-- The node that the object `t` is, where it is asked for a member `m` that only nodes have. -/
def asNode (w : Workspace) (m : Member) (t : Option Thing) : Except Fault Node :=
  match t.bind Thing.node? with
  | some n => .ok n
  | none => .error (w.lacks t m)

/-- The graph `g` as one of nodes, which all its members have to be (`asNode`). -/
def ofNodes (w : Workspace) (g : Graph Thing) : Except Fault (Graph Node) := do
  let nodes ← g.nodes.mapM fun t => w.asNode .isMarker (some t)
  let edge? (e : Edge Thing) : Option (Edge Node) :=
    return { source := ← e.source.node?, target := ← e.target.node?, key := e.key
             attributes := e.attributes }
  return (Graph.ofNodes g.name nodes).withEdges (g.edges.filterMap edge?)

/-- The flow graph that the object `t` is, where it has to have the members `ms`. -/
def flow (w : Workspace) (t : Option Thing) (ms : List Member) : Except Fault FlowGraph := do
  let s ← w.sheet t ms
  let g ← w.ofNodes s.graph
  match s.frame with
  | some frame => return { toGraph := g, table := frame.table, unit := frame.unit }
  | none => .error (w.lacks t .exit)

/-! ### Instructions of nodes -/

/-- The instructions by which an object can be known in a table. -/
def instructionsFor (w : Workspace) : Option Thing → List (Option Instruction)
  | none => [none]
  | some (.instruction i) => [some i]
  | some t => (w.standIns.filter fun s => s.1 == t).map fun s => some s.2

/-- The node of the object `t` in `table`, if there is one (`NodeTable.lookup?`). -/
def lookup? (w : Workspace) (table : NodeTable) (t : Option Thing) : Option Node :=
  (w.instructionsFor t).findSome? table.lookup?

/-- The instruction to make a node of the object `t` for. One is made for an object that is none. -/
def instructionFor (w : Workspace) (t : Option Thing) : Workspace × Option Instruction :=
  match t with
  | none => (w, none)
  | some (.instruction i) => (w, some i)
  | some other =>
    let i : Instruction := { ident := w.instructions, text := w.label t, shown := w.shown t }
    ({ w with instructions := w.instructions + 1, standIns := w.standIns ++ [(other, i)] }, some i)

/-- The node `n` with its instruction as it is shown now. -/
def refreshed (w : Workspace) (n : Node) : Node :=
  match n.content with
  | .place (some i) position =>
    match w.standIns.find? fun s => s.2 == i with
    | some (t, _) =>
      { n with content := .place (some { i with shown := w.shown (some t) }) position }
    | none => n
  | _ => n

end Workspace

end Dependence
