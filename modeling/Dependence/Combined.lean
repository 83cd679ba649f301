import Dependence.Flow.Basic
import Dependence.Log.Record

/-!
# Combined dependence

The combined graph has the edges of a control dependence graph and those of a data dependence graph,
side by side. Each edge says under the attribute `kind` which of the two it is; an edge of data
dependence keeps its attributes.
-/

namespace Dependence

namespace Graph

variable {ν : Type} [DecidableEq ν] [Labelled ν]

/-- The attribute that tells the two kinds of edge apart. -/
def ofKind (kind : String) : Attributes := .ofList [("kind", .value (.text kind))]

/-- Add the edge `e` of control dependence. -/
def addControl (g : Graph ν) (e : Edge ν) : Except Fault (Graph ν) :=
  g.addEdge e.source e.target (ofKind "control")

/-- Add the edge `e` of data dependence, which must not have a `kind` already. -/
def addData (g : Graph ν) (e : Edge ν) : Except Fault (Graph ν) :=
  if e.attributes.contains "kind" then .error .repeatedKind
  else g.addEdge e.source e.target ((ofKind "data").merge e.attributes)

/-- **The combined graph** over `nodes`: the edges of `control` first, then those of `data`, each in
the order of `listing`. -/
def union (nodes : List ν) (control data : Graph ν) : Except Fault (Graph ν) := do
  let g ← control.listing.foldlM addControl (.ofNodes (.text "pdg") nodes)
  data.listing.foldlM addData g

/-- Note the size of `g`, the combined graph of `unit`. -/
def noteCombined (g : Graph ν) (unit : Value) : Outcome Unit :=
  Outcome.write .debug .combined
    (s!"{unit.plain}: PDG with {g.nodes.length} nodes, {g.edges.length} edges")

end Graph

/-- The combined graph of `f`, given its control and its data dependence (`Graph.union`). -/
def FlowGraph.combine (f : FlowGraph) (control data : Graph Node) : Outcome (Graph Node) := do
  let g ← Graph.union f.nodes control data
  g.noteCombined f.unit
  return g

end Dependence
