import Dependence.Graph.Reach
import Dependence.Log.Record

/-!
# Backward slices

The slice of a node holds what the node depends on: directly, the definitions that it uses; and
transitively, everything from which dependence leads to it.
-/

namespace Dependence

/-- A backward slice. -/
structure Slice (ν : Type) where
  /-- The node that the slice is about. -/
  criterion : ν
  /-- The definitions that the node uses. -/
  nodes : List ν
  /-- Everything that the node depends on. -/
  transitive : List ν
deriving DecidableEq

namespace Slice

variable {ν μ : Type}

/-- The slice of what `f` makes of the members of `s`. -/
def map (f : ν → μ) (s : Slice ν) : Slice μ :=
  { criterion := f s.criterion, nodes := s.nodes.map f, transitive := s.transitive.map f }

/-- The slice as shown, with `criterion` as the label of its criterion. -/
def shownWith (criterion : String) (s : Slice ν) : String :=
  s!"SliceResult({criterion}, slice={s.nodes.length}, transitive={s.transitive.length})"

/-- The slice as shown. -/
def shown [Labelled ν] (s : Slice ν) : String := s.shownWith (Labelled.label s.criterion)

/-- The error for a criterion `r` that is not a node of the graphs. -/
def notANode [Labelled ν] (r : Option ν) (unit : Value) : AnalysisError where
  sort := .general
  message := Labelled.shown r ++ " is not a node of this analysis"
  unit := unit
  stage := some .slicing
  cause := none

variable [DecidableEq ν]

/-- The slice of `nodes` and `transitive`, each member counted once. -/
def ofLists (criterion : ν) (nodes transitive : List ν) : Slice ν :=
  { criterion, nodes := nodes.eraseDups, transitive := transitive.eraseDups }

/-- Whether `n` is a direct member. -/
def contains (s : Slice ν) (n : ν) : Bool := s.nodes.contains n

/-- Whether `r` leads to a direct member of `s`, if there is a slice. -/
def membership (s : Option (Slice ν)) (r : Option ν) : Except Fault Bool :=
  match s with
  | some s => .ok (r.elim false s.contains)
  | none => .error (.notContainer Value.none.kind)

/-- **The backward slice** of `r`: its direct members are the predecessors of `r` in `data`, the
`transitive` ones are what `r` can be reached from in `combined` (`Graph.transitivePredecessors`).
-/
def backward [Labelled ν] (combined data : Graph ν) (r : Option ν) (unit : Value) :
    Outcome (Slice ν) :=
  match r with
  | none => .fail (.analysis (notANode r unit))
  | some n => do
    if data.contains r && combined.contains r then
      let nodes ← data.predecessorsOf r
      let transitive ← combined.transitivePredecessors r
      Outcome.write .debug .slicing
        (s!"{unit.plain}: slice of {Labelled.label n} has {nodes.length} nodes, " ++
          s!"{transitive.length} transitive")
      return { criterion := n, nodes, transitive }
    else Outcome.fail (.analysis (notANode r unit))

end Slice

/-- Order by `index`. -/
def Node.indexLe (a b : Node) : Bool := decide (a.index ≤ b.index)

/-- The output nodes of a data dependence graph, in order of their numbers: its `sinks`, which use
what others define and define nothing that others use. -/
def Graph.outputs (data : Graph Node) : List Node := data.sinks.mergeSort Node.indexLe

end Dependence
