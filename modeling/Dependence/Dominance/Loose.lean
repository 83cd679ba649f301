import Dependence.Dominance.Tree
import Dependence.Value.Access

/-!
# Dominance on loose data

A successor map whose nodes are values of any shape. A row of successors is then a value that should
have parts, and each part should be one that a set can hold. The first row or part of another shape
that the computation meets is its fault.

For a crawl, what is met first is settled by the crawl itself: each bad row or part becomes a
vertex that stands for its fault (`Loose.Vertex`), without successors, and the fault is the one
whose vertex is left first. All such vertices count as one, so the order holds the first of them
only.
-/

namespace Dependence.Loose

/-- A graph whose rows have not been read yet. -/
abbrev Graph := OrderedMap Value Value

/-- The nodes in a row. -/
def readRow (row : Value) : Except Fault (List Value) := do
  (← row.parts).mapM Value.hashed

/-- The graph with every row read (`readRow`), in the order of the keys. -/
def read (g : Graph) : Except Fault (Digraph Value) := do
  return .ofList (← g.entries.mapM fun e => return (e.1, ← readRow e.2))

/-- A vertex of a crawl: a node, or a fault in its place. -/
inductive Vertex where
  | node (v : Value)
  | fault (f : Fault)

namespace Vertex

/-- Whether two vertices are the same. All faults count as one. -/
def same : Vertex → Vertex → Bool
  | node a, node b => a == b
  | fault _, fault _ => true
  | _, _ => false

instance : BEq Vertex := ⟨same⟩

instance : EquivBEq Vertex where
  rfl {a} := by
    change same a a = true
    cases a <;> simp [same]
  symm {a b} h := by
    change same b a = true
    replace h : same a b = true := h
    cases a <;> cases b <;> simp_all [same, BEq.comm]
  trans {a b c} h h' := by
    change same a c = true
    replace h : same a b = true := h
    replace h' : same b c = true := h'
    cases a <;> cases b <;> cases c <;> simp_all [same]
    exact BEq.trans h h'

/-- The fault that a vertex stands for. -/
def fault? : Vertex → Option Fault
  | node _ => none
  | fault f => some f

/-- The parts of a row as vertices, up to the first that no set can hold. -/
def ofParts : List Value → List Vertex
  | [] => []
  | v :: rest =>
    match v.unhashable? with
    | some k => [fault (.unhashable k)]
    | none => node v :: ofParts rest

/-- A row as vertices (`ofParts`); a row without parts is a fault. -/
def ofRow (row : Value) : List Vertex :=
  match row.parts? with
  | some items => ofParts items
  | none => [fault (.notIterable row.kind)]

end Vertex

/-- The graph with faults as vertices. -/
def marked (g : Graph) : Digraph Vertex :=
  .ofList (g.entries.map fun e => (.node e.1, Vertex.ofRow e.2))

/-- The first fault that a crawl of `marked g` meets. -/
def crawlFault? (g : Graph) (head : Value) : Option Fault :=
  ((marked g).crawl (.node head)).order.findSome? Vertex.fault?

/-- Reverse post-order from `head` (`Digraph.crawl`), or the first fault on the way. -/
def crawl (g : Graph) (head : Value) : Except Fault (Digraph.Crawl Value) := do
  let head ← head.hashed
  match crawlFault? g head with
  | some f => .error f
  | none => return (← read g).crawl head

/-- The graph with every edge turned round (`Digraph.transpose`). -/
def transpose (g : Graph) : Except Fault (Digraph Value) :=
  return (← read g).transpose

/-- Immediate dominators (`Digraph.dominators`). -/
def dominators (g : Graph) (head : Value) : Except Fault (Dominators Value) := do
  let _ ← crawl g head
  (← read g).dominators head

/-- Immediate post-dominators (`Digraph.postDominators`). -/
def postDominators (g : Graph) (exit : Value) : Except Fault (Dominators Value) := do
  let reversed ← transpose g
  reversed.dominators (← exit.hashed)

/-- The tree of the immediate dominators `idoms` (`Dominators.treeOf`). -/
def treeOf (idoms : OrderedMap Value Value) : Except Fault (OrderedMap Value (List Value)) := do
  let _ ← idoms.entries.mapM fun e => e.2.hashed
  return Dominators.treeOf idoms

/-- Whether `a` is on the way up from `b`. The way up ends where there is no value, and is broken
by a value that cannot be looked up. -/
def dominates (idoms : OrderedMap Value Value) (a b : Value) : Except Fault Bool :=
  let present (v : Value) : Bool := v != .none
  let known := OrderedMap.ofList (idoms.entries.filter fun e => present e.2)
  if present b then
    let way := Dominators.ancestors known b
    if way.any (· == a) then .ok true
    else
      match (way.getLast?.bind Value.unhashable?) with
      | some k => .error (.unhashable k)
      | none => .ok false
  else .ok false

end Dependence.Loose
