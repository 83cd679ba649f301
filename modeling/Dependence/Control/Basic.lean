import Dependence.Dominance.Tree
import Dependence.Flow.Basic
import Dependence.Log.Record

/-!
# Control dependence

A node depends on a controller when the controller decides whether it is reached: the controller
has a way on which the node is sure to come, and one on which it is not. Post-dominators tell:
from each successor of the controller, the dependents are met going up the tree of
post-dominators, until the controller's own immediate post-dominator is reached.

* `FlowGraph.postDominators` — the post-dominators of a flow graph;
* `FlowGraph.dependents` — the nodes that a controller decides about;
* `FlowGraph.controlDependence` — the graph of these pairs.
-/

namespace Dependence.FlowGraph

/-- The post-dominators of `f`, seen from Exit (`Digraph.postDominators`). -/
def postDominators (f : FlowGraph) : Except Fault (Dominators Node) :=
  f.successorMap.postDominators f.exit

/-- Whether the first node is on the way up from the second (`Dominators.dominates`); a reference
that leads nowhere is on no way. -/
def postDominates (d : Dominators Node) : Option Node → Option Node → Bool
  | some a, some b => Dominators.dominates d.idoms a b
  | _, _ => false

/-- The immediate post-dominator of what `r` leads to. -/
def immediatePostDominator? (d : Dominators Node) (r : Option Node) : Option Node :=
  r.bind d.idoms.find?

/-- The nodes met from the successor `s` up to, but not including, `stop`. -/
def climbTo (d : Dominators Node) (stop : Option Node) (s : Node) : List Node :=
  (Dominators.ancestors d.idoms s).takeWhile fun r => some r != stop

/-- **The nodes that `controller` decides about**, each once, in the order in which they are met
(`climbTo`). A successor that post-dominates `controller` is reached either way and adds none. -/
def dependents (f : FlowGraph) (d : Dominators Node) (controller : Node) : List Node :=
  let successors := f.successors controller
  if successors.length < 2 then []
  else
    let undecided := successors.filter fun s => !Dominators.dominates d.idoms s controller
    (undecided.flatMap (climbTo d (d.idoms.find? controller))).eraseDups

/-- The `dependents` of what `r` leads to. -/
def dependentsOf (f : FlowGraph) (d : Dominators Node) (r : Option Node) :
    Except Fault (List Node) :=
  return f.dependents d (← f.member r)

/-- The nodes in the order in which they are asked about: Entry, the positions, Exit. -/
def controllers (f : FlowGraph) : List Node := f.entry :: f.places ++ [f.exit]

/-- Add the `dependents` of `controller` to `g`, and note their number. -/
def addDependents (f : FlowGraph) (d : Dominators Node) (g : Graph Node) (controller : Node) :
    Outcome (Graph Node) := do
  match ← f.dependentsOf d (some controller) with
  | [] => return g
  | found =>
    Outcome.write .debug .control
      (s!"{f.unit.plain}: {controller.label} controls {found.length} nodes")
    found.foldlM (fun g n => (liftM (g.addEdge controller n .empty) : Outcome (Graph Node))) g

/-- The control dependence graph of `f` for the post-dominators `d`: `addDependents` for each of the
`controllers`. -/
def controlDependenceWith (f : FlowGraph) (d : Dominators Node) : Outcome (Graph Node) :=
  f.controllers.foldlM (f.addDependents d) (.ofNodes (.text "cdg") f.nodes)

/-- The post-dominators of `f`, and the control dependence graph that they give. -/
def analyseControl (f : FlowGraph) : Outcome (Dominators Node × Graph Node) := do
  let d ← f.postDominators
  return (d, ← f.controlDependenceWith d)

/-- **The control dependence graph** of `f`. -/
def controlDependence (f : FlowGraph) : Outcome (Graph Node) :=
  return (← f.analyseControl).2

end Dependence.FlowGraph
