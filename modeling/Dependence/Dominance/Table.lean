import Dependence.Fault

/-!
# Dominator tables

A `Table` holds, for each node number, the number of its immediate dominator as far as it is known.
Nodes are numbered in reverse post-order, so a dominator has a smaller number than the nodes it
dominates, and number `0` is the head, its own dominator.

* `Table.intersect` — the nearest common dominator of two nodes: two fingers climb the table, always
  the one at the larger number, until they meet;
* `Table.refine` — one pass over the nodes, each taking the nearest common dominator of those of its
  predecessors that have an entry;
* `Table.settle` — passes until nothing changes.

A table that does not come from a numbering may break the rules. A number below zero then counts
from the end, and a finger that leaves the table or meets a missing entry is a fault.
-/

namespace Dependence

/-- Immediate dominators by number; `none` where none is known yet. -/
abbrev Table := Array (Option Int)

namespace Table

/-- The entry of `t` at `i`; a number below zero counts from the end. -/
def entry? (t : Table) (i : Int) : Option (Option Int) :=
  if 0 ≤ i then t[i.toNat]?
  else if 0 ≤ i + t.size then t[(i + t.size).toNat]?
  else none

/-- The dominator that a finger at number `i` moves to. -/
def climb (t : Table) (i : Int) : Except Fault Int :=
  match t.entry? i with
  | none => .error .indexOutOfRange
  | some none => .error (.notComparable ">" "NoneType" "int")
  | some (some d) => .ok d

/-- Move the finger at the larger number until both are at the same one, in at most the given number
of moves. -/
def meet (t : Table) : Nat → Int → Int → Except Fault Int
  | 0, a, _ => .ok a
  | moves + 1, a, b =>
    if a = b then .ok a
    else if b < a then do t.meet moves (← t.climb a) b
    else do t.meet moves a (← t.climb b)

/-- **Nearest common dominator** of `a` and `b` (`meet`). A walk of two fingers that ends does so
before any pair of places repeats, and after its first move a finger stands at an entry of the
table. -/
def intersect (t : Table) (a b : Int) : Except Fault Int :=
  t.meet ((t.size + 1) * (t.size + 1) + 1) a b

/-- Whether node `i` has an entry. -/
def known (t : Table) (i : Nat) : Bool := (t[i]?.getD none).isSome

/-- The nearest common dominator (`intersect`) of those of `predecessors` that are `known`; there
has to be one. -/
def nearest (t : Table) (predecessors : List Nat) : Except Fault Int :=
  match predecessors.filter t.known with
  | [] => .error .indexOutOfRange
  | first :: rest => rest.foldlM (fun d (p : Nat) => t.intersect d p) (first : Int)

/-- Compute the entry of one node anew from its predecessors (`nearest`). -/
def update (t : Table) (node : List Nat × Nat) : Except Fault Table := do
  return t.setIfInBounds node.2 (some (← t.nearest node.1))

/-- One pass over all nodes but the head, given the predecessors of each number. -/
def refine (predecessors : List (List Nat)) (t : Table) : Except Fault Table :=
  (predecessors.zipIdx.drop 1).foldlM update t

/-- Passes (`refine`) until the table stays as it is, at most the given number. -/
def settle (predecessors : List (List Nat)) : Nat → Table → Except Fault Table
  | 0, t => .ok t
  | passes + 1, t => do
    let t' ← t.refine predecessors
    if t' = t then return t else settle predecessors passes t'

/-- The table before the first pass: only the head has an entry. -/
def start (count : Nat) : Table := (Array.replicate count none).setIfInBounds 0 (some 0)

/-- **The settled table**, from `start`. An entry is set once and then only gets smaller, so the
passes that change something are fewer than the square of the number of nodes. -/
def ofPredecessors (predecessors : List (List Nat)) : Except Fault Table :=
  settle predecessors (predecessors.length * predecessors.length + 1) (start predecessors.length)

end Table

end Dependence
