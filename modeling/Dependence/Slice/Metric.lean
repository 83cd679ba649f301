import Dependence.Options
import Dependence.Slice.Basic

/-!
# Metrics of slices

Two measures of how much the slices of a method have in common. Both are undefined for a method
without output nodes, and both have two modes.

* From the last slice: tightness is its size divided by the number of outputs, overlap the root of
  its size of that degree.
* From the slices of all outputs, each with its output and without markers: what they all share,
  as a part of all instructions (tightness), or as a part of each slice, on average (overlap).

The whole numbers that are divided are collected first (`Shared`), so that the quotients can be
taken exactly or in floating point.
-/

namespace Dependence

/-- The two metrics. -/
inductive Metric where
  | tightness
  | overlap
deriving DecidableEq, Inhabited

/-- What a metric is called. -/
def Metric.name : Metric → String
  | tightness => "tightness"
  | overlap => "overlap"

instance natCastFloat : NatCast Float := ⟨Nat.toFloat⟩

section Numbers

-- floating point numbers where a metric is computed, and rational ones where it is exact
variable {α : Type} [NatCast α] [Add α] [Div α]

/-- The part `a` of `b`; there are no parts of nothing. -/
def quotient (a b : Nat) : Except Fault α :=
  if b = 0 then .error .divisionByZero else .ok (Nat.cast a / Nat.cast b)

/-- The average of `xs`, summed up in order; there is none of no numbers. -/
def average (xs : List α) : Except Fault α :=
  if xs.isEmpty then .error .divisionByZero
  else .ok (xs.foldl (fun sum x => sum + x) (Nat.cast 0) / Nat.cast xs.length)

end Numbers

/-- What the slices of several outputs share, in numbers. -/
structure Shared where
  /-- Nodes that are in all slices. -/
  common : Nat
  /-- Nodes in each slice. -/
  sizes : List Nat
  /-- Instructions in the graph. -/
  instructions : Nat
deriving DecidableEq, Inhabited

namespace Shared

/-- The slice of `output`, given what it depends on (`behind`): with `output` itself and without
markers. -/
def withOutput (output : Node) (behind : List Node) : List Node :=
  let statements := behind.filter fun n => !n.isMarker
  if statements.contains output then statements else statements ++ [output]

/-- The nodes that are in every one of the slices. -/
def commonNodes : List (List Node) → List Node
  | [] => []
  | first :: rest => first.filter fun n => rest.all fun s => s.contains n

/-- The numbers of `slices`, in a graph with `instructions` instructions. -/
def ofSlices (instructions : Nat) (slices : List (List Node)) : Shared where
  common := (commonNodes slices).length
  sizes := slices.map List.length
  instructions := instructions

/-- Number of instructions among `nodes`. -/
def instructionCount (nodes : List Node) : Nat := (nodes.filter fun n => !n.isMarker).length

/-- The numbers of the slices of all `outputs` (`withOutput`). -/
def ofOutputs (combined : Graph Node) (outputs : List Node) : Except Fault Shared := do
  let slices ← outputs.mapM fun o =>
    return withOutput o (← combined.transitivePredecessors (some o))
  return ofSlices (instructionCount combined.nodes) slices

variable {α : Type} [NatCast α] [Add α] [Div α]

/-- The part of all instructions that is `common` to the slices. -/
def tightness (s : Shared) : Except Fault α := quotient s.common s.instructions

/-- The part of each slice that is `common` to all, on average. -/
def overlap (s : Shared) : Except Fault α := do
  let parts : List α ← s.sizes.mapM (quotient s.common)
  average parts

end Shared

namespace Metric

/-- The error for the metric `m` of a method without output nodes. -/
def undefined (m : Metric) (unit : Value) : AnalysisError :=
  .of .undefinedMetric (m.name ++ " is undefined: the method has no output nodes") unit

/-- The error for the metric `m` where it is asked for without a slice. -/
def needsSlice (m : Metric) (unit : Value) : AnalysisError :=
  { AnalysisError.of .general (m.name ++ " needs a slice result in last-slice mode") unit with
    stage := some .metrics }

/-- The metric `m` from the `size` of the last slice. -/
def ofLastSlice (m : Metric) (size outputs : Nat) : Except Fault Float :=
  match m with
  | tightness => quotient size outputs
  | overlap => return Float.pow size.toFloat (← quotient 1 outputs)

/-- The metric `m` from the slices of all outputs. -/
def ofShared {α : Type} [NatCast α] [Add α] [Div α] (m : Metric) (s : Shared) : Except Fault α :=
  match m with
  | tightness => s.tightness
  | overlap => s.overlap

/-- The metric `m` is undefined without output nodes (`undefined`). -/
def needsOutputs (m : Metric) (outputs : Nat) (unit : Value) : Outcome Unit := do
  if outputs = 0 then
    Outcome.write .warning .slicing
      (s!"{unit.plain}: {m.name} is undefined without output nodes")
    Outcome.fail (.analysis (m.undefined unit))

/-- The metric `m` from the `size` of the last slice, if there is one (`ofLastSlice`). -/
def ofLast (m : Metric) (size : Option Nat) (outputs : Nat) (unit : Value) : Outcome Float :=
  match size with
  | some size => m.ofLastSlice size outputs
  | none => .fail (.analysis (m.needsSlice unit))

/-- **The value of the metric `m`**, given the graph of all dependences, that of data dependence,
and the slice taken `last`: from that slice or from those of all outputs, as `mode` says. -/
def compute (m : Metric) (combined data : Graph Node) (last : Option (Slice Node))
    (mode : MetricMode) (unit : Value) : Outcome Float := do
  let outputs := data.outputs
  m.needsOutputs outputs.length unit
  match mode with
  | .lastSlice => m.ofLast (last.map (·.transitive.length)) outputs.length unit
  | .allOutputs =>
    let shared ← Shared.ofOutputs combined outputs
    (m.ofShared shared : Except Fault Float)

end Metric

end Dependence
