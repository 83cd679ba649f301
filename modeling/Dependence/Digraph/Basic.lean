import Dependence.OrderedMap

/-!
# Directed graphs as successor maps

A `Digraph` maps each of its key nodes to a list of successors. A successor need not be a key; it
then has no successors of its own. A list may repeat a successor, and a node may be its own
successor.

* `Digraph.successors` — the successors of any node;
* `Digraph.transpose` — every edge turned round, in a fixed order.
-/

namespace Dependence

/-- A directed graph, given by the successors of each key node. -/
abbrev Digraph (ν : Type) [BEq ν] := OrderedMap ν (List ν)

namespace Digraph

variable {ν : Type} [BEq ν]

/-- The successors of `n`, in order; a node that is not a key of `g` has none. -/
def successors (g : Digraph ν) (n : ν) : List ν := (g.find? n).getD []

/-- Note in the row of `n` that `m` leads to it: at the end, once. -/
def notePredecessor (m : ν) : Option (List ν) → List ν
  | none => [m]
  | some row => if row.contains m then row else row ++ [m]

/-- The graph with every edge turned round. The keys are the keys of `g`, followed by the successors
that are no keys in order of first occurrence; each row lists the predecessors of its node once, in
the order of the keys of `g`. -/
def transpose (g : Digraph ν) : Digraph ν :=
  g.entries.foldl
    (fun out row => row.2.foldl (fun out next => out.upsert next (notePredecessor row.1)) out)
    (g.mapValues fun _ => [])

end Digraph

end Dependence
