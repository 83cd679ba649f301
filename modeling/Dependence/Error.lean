import Dependence.Fault

/-!
# Errors of an analysis

An `Error` is either a plain `Fault`, or an `AnalysisError`: a failure of one stage of the
analysis of one unit, with the fault that caused it if there was one. `AnalysisError.text` puts
stage and unit in front of the message.
-/

namespace Dependence

/-- The stages of an analysis. -/
inductive Stage where
  | flow
  | control
  | data
  | slicing
  | metrics
deriving DecidableEq, Inhabited

/-- What a stage is called in a message. -/
def Stage.text : Stage → String
  | flow => "CFG construction"
  | control => "control dependence"
  | data => "data dependence"
  | slicing => "slicing"
  | metrics => "metric computation"

/-- The sorts of analysis error. -/
inductive AnalysisError.Sort where
  | general
  /-- The method could not be turned into a flow graph. -/
  | failure
  /-- The metric has no value for this method. -/
  | undefinedMetric
deriving DecidableEq, Inhabited

/-- The stage that an error of a sort belongs to, unless another is given (`AnalysisError.stage`).
-/
def AnalysisError.Sort.stage? : AnalysisError.Sort → Option Stage
  | general => none
  | failure => some .flow
  | undefinedMetric => some .metrics

/-- A failed stage of an analysis. -/
structure AnalysisError where
  sort : AnalysisError.Sort
  message : String
  /-- The unit under analysis; no value if there is none. -/
  unit : Value
  stage : Option Stage
  cause : Option Fault
deriving Inhabited

namespace AnalysisError

/-- An error of the given `sort`, at its own stage (`Sort.stage?`) and without a cause. -/
def of (sort : AnalysisError.Sort) (message : String) (unit : Value) : AnalysisError :=
  { sort, message, unit, stage := sort.stage?, cause := none }

/-- Where the error happened: the stage, then the unit. -/
def place (e : AnalysisError) : List String :=
  (e.stage.map Stage.text).toList ++
    match e.unit with
    | .none => []
    | unit => ["in " ++ unit.plain]

/-- The text of the error `e`, with its `place` in front if it is known. -/
def text (e : AnalysisError) : String :=
  match e.place with
  | [] => e.message
  | place => " ".intercalate place ++ " failed: " ++ e.message

end AnalysisError

/-- Why an operation failed. -/
inductive Error where
  | fault (f : Fault)
  | analysis (e : AnalysisError)
deriving Inhabited

/-- The text of an error. -/
def Error.text : Error → String
  | fault f => f.message
  | analysis e => e.text

instance : Coe Fault Error := ⟨.fault⟩

instance : MonadLift (Except Fault) (Except Error) where
  monadLift
    | .ok a => .ok a
    | .error f => .error (.fault f)

end Dependence
