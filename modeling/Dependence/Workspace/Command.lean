import Dependence.Workspace.Basic

/-!
# Commands that build

A `Command` works on a workspace. This module has the commands that make objects and change them;
those that make something store it, if they are given a name for it.

What a command needs is found in a fixed order before anything is done, and the first name that is
not known is reported. A command that fails leaves the workspace as it was.
-/

namespace Dependence

/-- An operation on a workspace. -/
abbrev Command := Action Workspace

namespace Command

open Workspace (Sheet)

variable {α : Type}

/-- Read `f` off the workspace, which stays as it is. -/
def get (f : Workspace → Except Fault α) : Command α := Action.change fun w => return (w, ← f w)

/-- Store `t` under `name`, if one is given. -/
def store (name : Option String) (t : Option Thing) : Command Unit := Action.change fun w =>
  match name with
  | some name => .ok ({ w with names := w.names.insert name t }, ())
  | none => .ok (w, ())

/-- The object `t` as shown (`Workspace.shown`). -/
def text (t : Option Thing) : Command String := Action.reads fun w => w.shown t

/-- The objects `ts` as shown. -/
def texts (ts : List (Option Thing)) : Command (List String) := Action.reads fun w => ts.map w.shown

/-- Whether `a` and `b` mean the same object (`Workspace.resolve`). -/
def same (a b : Option String) : Command Bool :=
  get fun w => return (← w.resolve a) == (← w.resolve b)

/-! ### Tables, instructions and nodes -/

/-- A new table, stored under `name`. -/
def newTable (name : Option String) : Command NodeTable := do
  let number ← Action.reads (·.tables.length)
  let t := NodeTable.new number
  Action.change fun w => .ok ({ w with tables := w.tables ++ [t] }, ())
  store name (some (.table number))
  return t

/-- A new statement with a `text`, or no instruction. -/
def newInstruction (text name : Option String) : Command (Option Instruction) := do
  let number ← Action.reads (·.instructions)
  let i := text.map (Instruction.statement number)
  Action.change fun w => .ok ({ w with instructions := number + 1 }, ())
  store name (i.map .instruction)
  return i

/-- The node of `instruction` in `table`, made at `position` if need be (`NodeTable.nodeAt`). -/
def newNode (table : String) (instruction : Option String) (position : Value)
    (name : Option String) : Command Node := do
  let n ← Action.change fun w => do
    let t ← w.named table
    let i ← w.resolve instruction
    let (number, table) ← w.table t .nodeFor
    match w.lookup? table i with
    | some n => return (w, n)
    | none =>
      let (w, i) := w.instructionFor i
      let (table, n) ← table.nodeAt i position
      return ({ w with tables := w.tables.set number table }, n)
  store name (some (.node n))
  return n

/-- The node of `instruction` in `table`, if there is one. -/
def lookup (table : String) (instruction : Option String) : Command (Option Thing) :=
  get fun w => do
    let t ← w.named table
    let i ← w.resolve instruction
    let (_, table) ← w.table t .lookup
    return (w.lookup? table i).map .node

/-! ### Graphs and views -/

/-- Keep the sheet `s`, under `name` if one is given. -/
def keep (name : Option String) (s : Sheet) : Command Unit := do
  let number ← Action.reads (·.sheets.length)
  Action.change fun w => .ok ({ w with sheets := w.sheets ++ [s] }, ())
  store name (some (.graph number))

/-- A new graph `title` of `nodes`. -/
def newGraph (title : Value) (nodes : List (Option String)) (name : Option String) :
    Command (Graph Thing) := do
  let g ← get fun w => do
    let nodes ← nodes.mapM w.resolve
    nodes.foldlM Graph.addNodeRef (Graph.empty title)
  keep name { graph := g, frame := none }
  return g

/-- A new flow graph of the markers of `table`. -/
def newFlow (table : String) (unit : Value) (name : Option String) : Command (Graph Thing) := do
  let table ← get fun w => do w.markersOf (← w.named table) .entry
  let g := (FlowGraph.new table unit).toGraph.map Thing.node
  keep name { graph := g, frame := some { table, unit } }
  return g

/-- A new view of `graph`. -/
def newView (graph : String) (name : Option String) : Command (Graph Thing) := do
  let (number, g) ← Action.change fun w => do
    let t ← w.named graph
    let g ← w.graph t [.view]
    match t with
    | some (.graph k) => return ({ w with views := w.views ++ [k] }, (w.views.length, g))
    | t => .error (w.lacks t .view)
  store name (some (.view number))
  return g

/-- Add `node` to `graph` (`Graph.addNodeRef`). -/
def addNode (graph : String) (node : Option String) : Command (Graph Thing) := do
  let (g, _) ← Action.change fun w => do
    let n ← w.resolve node
    let t ← w.named graph
    w.changeGraph t .addNode fun g => return (← g.addNodeRef n, ())
  return g

/-- The names `taken`, under which `operation` takes the ends of an edge, cannot be names of
attributes. -/
def refuseNames (operation : String) (taken : List String) (data : List (String × Value)) :
    Except Fault Unit :=
  match data.find? fun e => taken.contains e.1 with
  | some e => .error (.givenTwice operation e.1)
  | none => .ok ()

/-- Add an edge to `graph` (`Graph.addKeyedEdge`), and give back its key. The `data` of the edge are
its attributes, and under `key` a key for it. -/
def addEdge (graph : String) (source target : Option String) (data : List (String × Value)) :
    Command (Graph Thing × Value) :=
  Action.change fun w => do
    let t ← w.named graph
    let source ← w.resolve source
    let target ← w.resolve target
    let _ : Labelled Thing := w.labelled
    w.changeGraph t .addEdge fun g => do
      refuseNames "Graph.add_edge" ["self", "source", "target"] data
      if g.contains source && g.contains target then
        refuseNames "MultiDiGraph.add_edge" ["u_for_edge", "v_for_edge"] data
      let attributes := (data.filter fun e => e.1 != "key").map fun e => (e.1, Attribute.value e.2)
      g.addKeyedEdge source target ((data.lookup "key").getD .none) (.ofList attributes)

/-! ### Slices -/

/-- Keep the slice `s`, under `name` if one is given. -/
def keepSlice (name : Option String) (s : Slice (Option Thing)) : Command String := do
  let number ← Action.reads (·.slices.length)
  Action.change fun w => .ok ({ w with slices := w.slices ++ [s] }, ())
  store name (some (.slice number))
  Action.reads fun w => w.sliceLabel number

/-- A new slice of `nodes` and `transitive` (`Slice.ofLists`), as shown. -/
def newSlice (criterion : Option String) (nodes transitive : List (Option String))
    (name : Option String) : Command String := do
  let s ← get fun w => do
    let criterion ← w.resolve criterion
    let nodes ← nodes.mapM w.resolve
    let transitive ← transitive.mapM w.resolve
    return Slice.ofLists criterion nodes transitive
  keepSlice name s

end Command

end Dependence
