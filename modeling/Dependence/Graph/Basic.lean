import Dependence.Digraph.Basic
import Dependence.Graph.Node

/-!
# Graphs

A `Graph ν` is a directed graph with parallel edges: a list of nodes, each once, and a list of edges
in the order in which they were added. Every edge leads from a node of the graph to a node of the
graph. Everything else is read off these two lists. The graphs of an analysis are graphs of `Node`s.

* `Graph.addNode`, `Graph.addKeyedEdge` — the two ways to change a graph;
* `Graph.successors`, `Graph.predecessors` — each neighbour once, in order of the first edge between
  the two;
* `Graph.between` — the parallel edges from one node to another;
* `Graph.listing` — all edges, grouped by source and target.

Parallel edges have different keys. An edge gets the number of the edges beside it as its key, or
the next number that is free; adding an edge under a key that is taken changes the attributes of
the edge that has it.

A graph is asked about references, which may lead nowhere or out of the graph. How a node appears in
the fault is up to its type (`Labelled`).
-/

namespace Dependence

/-- Objects that have a `label`, and a form `shown` in which their kind is visible. -/
class Labelled (ν : Type) where
  label : ν → String
  shown : ν → String

instance : Labelled Node := ⟨Node.label, Node.shown⟩

/-- A reference that may lead nowhere. -/
instance {ν : Type} [Labelled ν] : Labelled (Option ν) where
  label r := r.elim "None" Labelled.label
  shown r := r.elim "None" Labelled.shown

/-- What an edge may carry under a name: a plain `value`, or the `names` of variables. -/
inductive Attribute where
  | value (v : Value)
  /-- The variables that a data dependence is about. -/
  | names (s : ValueSet)
deriving Inhabited

/-- The attributes of an edge, by name. -/
abbrev Attributes := OrderedMap String Attribute

/-- An edge of a graph. -/
structure Edge (ν : Type) where
  source : ν
  target : ν
  key : Value
  attributes : Attributes

namespace Edge

variable {ν μ : Type}

/-- Whether `e` leads from `s` to `t`. -/
def joins [DecidableEq ν] (s t : ν) (e : Edge ν) : Bool := e.source == s && e.target == t

/-- The edge `e` between what `f` makes of its ends. -/
def map (f : ν → μ) (e : Edge ν) : Edge μ :=
  { source := f e.source, target := f e.target, key := e.key, attributes := e.attributes }

end Edge

/-- A directed graph with parallel edges. -/
structure Graph (ν : Type) where
  name : Value
  /-- The nodes, in the order in which they were added. -/
  nodes : List ν
  /-- The edges, in the order in which they were added. -/
  edges : List (Edge ν)
  nodup : nodes.Nodup
  ends : ∀ e ∈ edges, e.source ∈ nodes ∧ e.target ∈ nodes

namespace Graph

variable {ν μ : Type}

/-- The graph `name` without nodes. -/
def empty (name : Value) : Graph ν := ⟨name, [], [], .nil, nofun⟩

instance : Inhabited (Graph ν) := ⟨empty .none⟩

/-- The graph as shown. -/
def shown (g : Graph ν) : String :=
  s!"Graph({g.name.quoted}, nodes={g.nodes.length}, edges={g.edges.length})"

variable [DecidableEq ν] [DecidableEq μ]

/-- Whether a reference leads to a node of `g`; `none` does not. -/
def contains (g : Graph ν) : Option ν → Bool
  | some n => g.nodes.contains n
  | none => false

/-- Add `n` at the end of the nodes; a node of `g` is not added again. -/
def addNode (g : Graph ν) (n : ν) : Graph ν :=
  if h : n ∈ g.nodes then g
  else
    { g with
      nodes := g.nodes ++ [n]
      nodup := List.nodup_append.2 ⟨g.nodup, List.pairwise_singleton _ n, fun _ ha _ hb hab =>
        h (List.mem_singleton.1 hb ▸ hab ▸ ha)⟩
      ends := fun e he =>
        ⟨List.mem_append_left _ (g.ends e he).1, List.mem_append_left _ (g.ends e he).2⟩ }

@[simp] theorem mem_nodes_addNode {g : Graph ν} {n m : ν} :
    m ∈ (g.addNode n).nodes ↔ m ∈ g.nodes ∨ m = n := by
  unfold addNode
  split
  · rename_i h
    exact ⟨Or.inl, fun hm => hm.elim id fun hm => hm ▸ h⟩
  · simp

@[simp] theorem edges_addNode (g : Graph ν) (n : ν) : (g.addNode n).edges = g.edges := by
  unfold addNode; split <;> rfl

/-- Add what a reference leads to (`addNode`); `none` leads to no node and is refused. -/
def addNodeRef (g : Graph ν) : Option ν → Except Fault (Graph ν)
  | some n => .ok (g.addNode n)
  | none => .error .noNode

/-- The graph of `nodes`, each once, without edges. -/
def ofNodes (name : Value) (nodes : List ν) : Graph ν := nodes.foldl addNode (empty name)

/-- The graph `g` with `edges` in place of its own; those that lead out of `g.nodes` are left out.
-/
def withEdges (g : Graph ν) (edges : List (Edge ν)) : Graph ν :=
  { g with
    edges := edges.filter fun e => decide (e.source ∈ g.nodes ∧ e.target ∈ g.nodes)
    ends := fun _ he => of_decide_eq_true (List.mem_filter.1 he).2 }

/-- The graph of what `f` makes of the nodes of `g`. -/
def map (f : ν → μ) (g : Graph ν) : Graph μ :=
  (ofNodes g.name (g.nodes.map f)).withEdges (g.edges.map (Edge.map f))

/-! ### Reading a graph -/

/-- The edges from `s` to `t`, in the order in which they were added. -/
def between (g : Graph ν) (s t : ν) : List (Edge ν) := g.edges.filter (Edge.joins s t)

/-- The edges out of `n`, in the order in which they were added. -/
def outgoing (g : Graph ν) (n : ν) : List (Edge ν) := g.edges.filter fun e => e.source == n

/-- The nodes that `n` leads to, each once, in order of the first edge. -/
def successors (g : Graph ν) (n : ν) : List ν :=
  ((g.outgoing n).map (·.target)).eraseDups

/-- The nodes that lead to `n`, each once, in order of the first edge. -/
def predecessors (g : Graph ν) (n : ν) : List ν :=
  ((g.edges.filter fun e => e.target == n).map (·.source)).eraseDups

/-- A successor is the target of an edge. -/
theorem mem_successors {g : Graph ν} {s t : ν} :
    t ∈ g.successors s ↔ ∃ e ∈ g.edges, e.source = s ∧ e.target = t := by
  simp [successors, outgoing, and_assoc]

/-- A predecessor is the source of an edge. -/
theorem mem_predecessors {g : Graph ν} {s t : ν} :
    s ∈ g.predecessors t ↔ ∃ e ∈ g.edges, e.target = t ∧ e.source = s := by
  simp [predecessors, and_assoc]

/-- The node that `r` leads to, which has to be one of `g`: `Fault.notMember` otherwise. -/
def member [Labelled ν] (g : Graph ν) (r : Option ν) : Except Fault ν :=
  match r with
  | some n => if g.nodes.contains n then .ok n else .error (.notMember (Labelled.shown n) g.name)
  | none => .error (.notMember (Labelled.shown r) g.name)

/-- The `successors` of what `r` leads to. -/
def successorsOf [Labelled ν] (g : Graph ν) (r : Option ν) : Except Fault (List ν) :=
  return g.successors (← g.member r)

/-- The `predecessors` of what `r` leads to. -/
def predecessorsOf [Labelled ν] (g : Graph ν) (r : Option ν) : Except Fault (List ν) :=
  return g.predecessors (← g.member r)

/-- The edges `between` what two references lead to. -/
def betweenRefs (g : Graph ν) : Option ν → Option ν → List (Edge ν)
  | some s, some t => g.between s t
  | _, _ => []

/-- Whether there is an edge from what `s` leads to to what `t` leads to. -/
def hasEdge (g : Graph ν) (s t : Option ν) : Bool := !(g.betweenRefs s t).isEmpty

/-- All edges: by source in the order of the nodes, then by target in the order of the first edge,
then in the order in which they were added. -/
def listing (g : Graph ν) : List (Edge ν) :=
  g.nodes.flatMap fun s =>
    (g.successors s).flatMap fun t => (g.outgoing s).filter fun e => e.target == t

/-- The `successors` of every node, as the rows of a `Digraph`. -/
def successorMap (g : Graph ν) : Digraph ν :=
  .ofList (g.nodes.map fun n => (n, g.successors n))

/-- The nodes that others lead to and that lead to no other. -/
def sinks (g : Graph ν) : List ν :=
  g.nodes.filter fun n => !(g.predecessors n).isEmpty && (g.successors n).isEmpty

/-- Number of markers (`Node.isMarker`) among the nodes. -/
def markers (g : Graph Node) : Nat := (g.nodes.filter (·.isMarker)).length

/-! ### Adding edges -/

/-- The key of a further edge beside those of `beside`: their number, or the next that is free. -/
def freeKey (beside : List (Edge ν)) : Value :=
  let candidates := (List.range (beside.length + 1)).map fun (i : Nat) =>
    Value.int ((beside.length + i : Nat) : Int)
  (candidates.find? fun k => !(beside.any fun e => e.key == k)).getD .none

/-- Add `e`, whose ends are nodes of `g`. -/
def appendEdge (g : Graph ν) (e : Edge ν) (hs : e.source ∈ g.nodes) (ht : e.target ∈ g.nodes) :
    Graph ν :=
  { g with
    edges := g.edges ++ [e]
    ends := fun x hx => (List.mem_append.1 hx).elim (g.ends x) fun h =>
      List.mem_singleton.1 h ▸ ⟨hs, ht⟩ }

/-- Set `attributes` on `e` if it leads from `s` to `t` under `key`. -/
def updateEdge (s t : ν) (key : Value) (attributes : Attributes) (e : Edge ν) : Edge ν :=
  if e.joins s t && e.key == key then { e with attributes := e.attributes.merge attributes } else e

theorem updateEdge_source (s t : ν) (key : Value) (attributes : Attributes) (e : Edge ν) :
    (updateEdge s t key attributes e).source = e.source := by
  unfold updateEdge; split <;> rfl

theorem updateEdge_target (s t : ν) (key : Value) (attributes : Attributes) (e : Edge ν) :
    (updateEdge s t key attributes e).target = e.target := by
  unfold updateEdge; split <;> rfl

/-- Set `attributes` on the edge from `s` to `t` under `key` (`updateEdge`). -/
def setAttributes (g : Graph ν) (s t : ν) (key : Value) (attributes : Attributes) : Graph ν :=
  { g with
    edges := g.edges.map (updateEdge s t key attributes)
    ends := fun x hx => by
      obtain ⟨e, he, rfl⟩ := List.mem_map.1 hx
      rw [updateEdge_source, updateEdge_target]
      exact g.ends e he }

/-- **Add an edge** between nodes of the graph, and give back its key. Under a key that is taken,
the attributes of the edge that has it are changed instead. -/
def addKeyedEdge [Labelled ν] (g : Graph ν) (source target : Option ν) (key : Value)
    (attributes : Attributes) : Except Fault (Graph ν × Value) :=
  match source, target with
  | some s, some t =>
    if h : s ∈ g.nodes ∧ t ∈ g.nodes then do
      let beside := g.between s t
      let key ← match key with
        | .none => .ok (freeKey beside)
        | k => k.hashed
      if beside.any fun e => e.key == key then
        return (g.setAttributes s t key attributes, key)
      else
        return (g.appendEdge { source := s, target := t, key, attributes } h.1 h.2, key)
    else .error (.strayEdge (Labelled.shown s) (Labelled.shown t) g.name)
  | s, t => .error (.strayEdge (Labelled.shown s) (Labelled.shown t) g.name)

/-- Add an edge under a key of its own: `addKeyedEdge` without a key. -/
def addEdge [Labelled ν] (g : Graph ν) (source target : ν) (attributes : Attributes) :
    Except Fault (Graph ν) :=
  return (← g.addKeyedEdge (some source) (some target) .none attributes).1

end Graph

end Dependence
