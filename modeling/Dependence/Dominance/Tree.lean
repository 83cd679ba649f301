import Dependence.Digraph.Crawl
import Dependence.Dominance.Table

/-!
# Dominators

A node `d` dominates a node `n` when every path from the head to `n` passes through `d`. The
immediate dominator of `n` is the nearest of those other than `n`.

* `Digraph.dominators` — immediate dominators and their tree, for all nodes; the head is taken to
  lead to the extra roots of the crawl;
* `Digraph.postDominators` — the same on the transposed graph;
* `ancestors`, `dominates` — the way up the tree from a node.
-/

namespace Dependence

variable {ν : Type} [BEq ν]

/-- Immediate dominators, with their tree. -/
structure Dominators (ν : Type) [BEq ν] where
  /-- The nodes that each dominator dominates immediately. -/
  tree : OrderedMap ν (List ν)
  /-- The immediate dominator of every node but the head. -/
  idoms : OrderedMap ν ν

namespace Dominators

/-- No dominators known. -/
def empty : Dominators ν := ⟨.empty, .empty⟩

/-- Note `child` in the row of its immediate dominator. -/
def noteChild (child : ν) : Option (List ν) → List ν
  | none => [child]
  | some children => children ++ [child]

/-- The tree of the immediate dominators `idoms`: each node under its dominator, in the order of the
map (`noteChild`). -/
def treeOf (idoms : OrderedMap ν ν) : OrderedMap ν (List ν) :=
  idoms.entries.foldl (fun tree e => tree.upsert e.2 (noteChild e.1)) .empty

/-- The way up from `n` through `idoms`, in at most the given number of steps. -/
def ascend (idoms : OrderedMap ν ν) : Nat → ν → List ν
  | 0, n => [n]
  | steps + 1, n =>
    match idoms.find? n with
    | none => [n]
    | some d => n :: ascend idoms steps d

/-- A node, its immediate dominator, the dominator of that, and so on. A way up that ends visits
no key twice. -/
def ancestors (idoms : OrderedMap ν ν) (n : ν) : List ν := ascend idoms idoms.size n

/-- Whether `a` dominates `b`: it is on the way up from `b`. -/
def dominates (idoms : OrderedMap ν ν) (a b : ν) : Bool := (ancestors idoms b).any (· == a)

end Dominators

namespace Digraph

/-- The place of `n` in `order`. -/
def number (order : List ν) (n : ν) : Nat := order.findIdx (· == n)

/-- The edges between numbered nodes, those from a node to itself left out; the head leads to each
extra root. -/
def numberedEdges (g : Digraph ν) (c : Crawl ν) : List (Nat × Nat) :=
  let edges := g.entries.flatMap fun row =>
    row.2.map fun next => (number c.order row.1, number c.order next)
  (edges.filter fun e => e.1 != e.2) ++ c.extraRoots.map fun r => (0, number c.order r)

/-- The predecessors of each number, in the order of the edges (`numberedEdges`). -/
def numberedPredecessors (g : Digraph ν) (c : Crawl ν) : List (List Nat) :=
  let edges := g.numberedEdges c
  (List.range c.order.length).map fun i => (edges.filter (·.2 == i)).map (·.1)

/-- The immediate dominators that `t` names, as nodes of `order`. -/
def idomsOf (order : List ν) (t : Table) : OrderedMap ν ν :=
  .ofList <| ((order.zip t.toList).drop 1).filterMap fun e =>
    (e.2.bind fun d => order[d.toNat]?).map (e.1, ·)

variable [EquivBEq ν]

/-- **Immediate dominators** of every node, seen from `head`: the nodes are numbered by `crawl`, and
`Table.ofPredecessors` finds the dominator of each number. -/
def dominators (g : Digraph ν) (head : ν) : Except Fault (Dominators ν) := do
  let c := g.crawl head
  let table ← Table.ofPredecessors (g.numberedPredecessors c)
  let idoms := idomsOf c.order table
  return { tree := Dominators.treeOf idoms, idoms }

/-- Immediate post-dominators: the `dominators` of `g.transpose`, seen from `exit`. -/
def postDominators (g : Digraph ν) (exit : ν) : Except Fault (Dominators ν) :=
  g.transpose.dominators exit

end Digraph

end Dependence
