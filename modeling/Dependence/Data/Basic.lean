import Dependence.Flow.Basic
import Dependence.Graph.Reach
import Dependence.Method.Basic

/-!
# Data dependence

A node that uses a variable depends on the definitions that reach it: those from which some way
leads to the node without another definition in between. They are found going backward from the
node, depth-first; the way ends at a definition, and at a node without an instruction.

* `FlowGraph.reachingFrom` — the search;
* `FlowGraph.nearestDefinitions` — the definitions of a variable that reach a node;
* `FlowGraph.dataDependence` — the graph of definitions and uses, each edge labelled with the
  variables that it is about.

Definitions and uses are asked for as the search goes. When the answer is a fault of look-up, the
analysis fails at this stage; other errors are passed on.
-/

namespace Dependence

/-- Whether a fault means that an instruction could not be looked up. Other faults are passed on. -/
def Fault.Kind.spoilsLookup : Fault.Kind → Bool
  | .missingKey | .wrongType | .badValue | .badText => true
  | _ => false

namespace FlowGraph

/-- The failure that the fault `cause` in looking up `n` amounts to. -/
def lookupFailed (f : FlowGraph) (n : Node) (cause : Fault) : AnalysisError where
  sort := .general
  message := s!"def/use lookup failed for {n.label}: {cause.message}"
  unit := f.unit
  stage := some .data
  cause := some cause

/-- Ask for the variables of `n`; a node without an instruction has none. -/
def variablesOf (f : FlowGraph) (ask : Option Instruction → Except Error ValueSet) (n : Node) :
    Except Error ValueSet :=
  match n.instruction? with
  | none => .ok .empty
  | some i =>
    match ask (some i) with
    | .error (.fault cause) =>
      if cause.kind.spoilsLookup then .error (.analysis (f.lookupFailed n cause))
      else .error (.fault cause)
    | answer => answer

/-- The variables that `n` defines according to `p`. -/
def definedBy (f : FlowGraph) (p : DefUse) (n : Node) : Except Error ValueSet :=
  f.variablesOf p.definitions n

/-- The variables that `n` uses according to `p`. -/
def usedBy (f : FlowGraph) (p : DefUse) (n : Node) : Except Error ValueSet :=
  f.variablesOf p.uses n

/-- Whether `n` defines `x`, which has to be a value that a set can hold. -/
def defines (f : FlowGraph) (p : DefUse) (x : Value) (n : Node) : Except Error Bool := do
  let defined ← f.definedBy p n
  let x ← x.hashed
  return defined.contains x

/-- **Search backward** for definitions of `x`, first node first. -/
def reachingFrom (f : FlowGraph) (p : DefUse) (x : Value) (visited : List Node) :
    List Node → Except Error (List Node)
  | [] => .ok []
  | n :: pending =>
    if visited.contains n then reachingFrom f p x visited pending
    else if n.instruction? = none then reachingFrom f p x (n :: visited) pending
    else do
      if ← f.defines p x n then
        return n :: (← reachingFrom f p x (n :: visited) pending)
      else reachingFrom f p x (n :: visited) (f.predecessors n ++ pending)
termination_by pending => f.toGraph.unvisitedWork visited f.nodes + pending.length
decreasing_by
  · simp only [List.length_cons]; omega
  all_goals
    have hle := f.toGraph.work_visit_le (eq_false_of_ne_true ‹¬ visited.contains n = true›)
    simp only [List.length_append, List.length_cons]
    omega

/-- **The definitions of `x` that reach `r`**, in the order in which `reachingFrom` finds them. -/
def nearestDefinitions (f : FlowGraph) (p : DefUse) (r : Option Node) (x : Value) :
    Except Error (List Node) := do
  f.reachingFrom p x [] (← f.predecessorsOf r)

/-! ### The graph -/

/-- Definitions that supply a node, each with the variables it supplies. -/
abbrev Supply := OrderedMap Node ValueSet

/-- Note that `definition` supplies `x`. -/
def Supply.note (x : Element) (s : Supply) (definition : Node) : Supply :=
  s.upsert definition fun known => (known.getD .empty).insert x

/-- A record of this stage. -/
def noteData (f : FlowGraph) (message : String) : Outcome Unit :=
  Outcome.write .debug .data (f.unit.plain ++ ": " ++ message)

/-- Add the definitions that supply the use of `x` at `n` (`nearestDefinitions`). A node does not
supply itself. -/
def supplyOne (f : FlowGraph) (p : DefUse) (n : Node) (s : Supply) (x : Element) :
    Outcome Supply := do
  let found ← f.nearestDefinitions p (some n) x.val
  f.noteData s!"{n.label} uses {x.val.quoted}, {found.length} reaching definitions"
  return (found.filter (· != n)).foldl (Supply.note x) s

/-- Everything that supplies `n`: `supplyOne` for its uses, in the order of their texts. -/
def supply (f : FlowGraph) (p : DefUse) (n : Node) : Outcome Supply := do
  let used ← f.usedBy p n
  used.sorted.foldlM (f.supplyOne p n) .empty

/-- The attributes of a data dependence about the variables `s`. -/
def aboutVariables (s : ValueSet) : Attributes := .ofList [("variables", .names s)]

/-- Add the dependences of `n` (`supply`) to `g`. -/
def addSupply (f : FlowGraph) (p : DefUse) (g : Graph Node) (n : Node) :
    Outcome (Graph Node) := do
  let s ← f.supply p n
  s.entries.foldlM
    (fun g e => (liftM (g.addEdge e.1 n (aboutVariables e.2)) : Outcome (Graph Node))) g

/-- **The data dependence graph** of `f`, by the variables that `p` gives: `addSupply` for each of
`places`. -/
def dataDependence (f : FlowGraph) (p : DefUse) : Outcome (Graph Node) := do
  let g ← f.places.foldlM (f.addSupply p) (.ofNodes (.text "ddg") f.nodes)
  f.noteData s!"{g.edges.length} data dependences"
  return g

end FlowGraph

end Dependence
