import Dependence.Log.Level
import Dependence.Value.Access

/-!
# Options of an analysis

Two options: how the metrics are computed, and the log level. `Options.ofEntries` takes them one by
one under their names; `Options.ofValue` takes them from a single value that should be a dictionary.
-/

namespace Dependence

/-- How the metrics are computed. -/
inductive MetricMode where
  /-- From the slice that was taken last. -/
  | lastSlice
  /-- From the slices of all output nodes. -/
  | allOutputs
deriving DecidableEq, Inhabited

namespace MetricMode

/-- The name under which a mode is chosen. -/
def name : MetricMode → String
  | lastSlice => "last-slice"
  | allOutputs => "all-outputs"

/-- The mode in capitals, as it is shown. -/
def constant : MetricMode → String
  | lastSlice => "LAST_SLICE"
  | allOutputs => "ALL_OUTPUTS"

/-- The mode that a value names, if it names one. -/
def ofValue? : Value → Option MetricMode
  | .text "last-slice" => some lastSlice
  | .text "all-outputs" => some allOutputs
  | _ => none

/-- The mode that the option value `v` chooses (`ofValue?`). -/
def ofValue (v : Value) : Except Fault MetricMode :=
  match ofValue? v with
  | some m => .ok m
  | none => .error (.unknownMode v)

/-- The mode that is asked for by the name `v` (`ofValue?`). -/
def named (v : Value) : Except Fault MetricMode :=
  match ofValue? v with
  | some m => .ok m
  | none => .error (.notAMode v)

end MetricMode

/-- The level of `v`: a level name in any case (`Level.ofName?`). -/
def Level.ofValue (v : Value) : Except Fault Level :=
  match Level.ofName? v.plain with
  | some l => .ok l
  | none => .error (.unknownLevel v)

/-- The options of an analysis. -/
structure Options where
  metricMode : MetricMode := .lastSlice
  logLevel : Level := .warning
deriving DecidableEq, Inhabited

namespace Options

/-- The names of the options. -/
def names : List String := ["metric_mode", "log_level"]

/-- The options as shown. -/
def text (o : Options) : String :=
  s!"AnalysisOptions(metric_mode=<MetricMode.{o.metricMode.constant}: " ++
    Text.quoted o.metricMode.name ++ ">, log_level=" ++ Text.quoted o.logLevel.name ++ ")"

/-- Check the values of both options: `mode` first, then `level`. -/
def check (mode level : Option Value) : Except Fault Options := do
  let metricMode ← mode.elim (.ok .lastSlice) MetricMode.ofValue
  let logLevel ← level.elim (.ok .warning) Level.ofValue
  return { metricMode, logLevel }

/-- The name under which the options themselves are passed. -/
def receiver : String := "self"

/-- The fault for a `name` that is none of an option. -/
def refused (name : String) : Fault :=
  if name = receiver then .givenTwice "AnalysisOptions.__init__" name else .unexpectedOption name

/-- Options given under their `names`; the first name that is none of an option is `refused`. -/
def ofEntries (entries : List (String × Value)) : Except Fault Options :=
  match entries.find? fun e => !names.contains e.1 with
  | some e => .error (refused e.1)
  | none => check (entries.lookup "metric_mode") (entries.lookup "log_level")

/-- Options given under their names by a value (`ofEntries`). -/
def ofKeywords : Value → Except Fault Options
  | .dict entries => ofEntries entries
  | v => .error (.optionsNotMapping v.kind)

/-! ### Options from a mapping -/

/-- Order of two option names; names of different kinds have none. -/
def nameLe (a b : Value) : Except Fault Bool :=
  match a, b with
  | .text a, .text b => .ok !(b < a)
  | .number a, .number b => .ok (a.le b)
  | a, b => .error (.notComparable "<" b.kind a.kind)

/-- Put `name` in its place among sorted names. -/
def insertName (name : Value) : List Value → Except Fault (List Value)
  | [] => .ok [name]
  | other :: rest => do
    if ← nameLe other name then return other :: (← insertName name rest)
    else return name :: other :: rest

/-- The names `ns` in order (`insertName`). -/
def sortNames (ns : List Value) : Except Fault (List Value) :=
  ns.foldlM (fun sorted n => insertName n sorted) []

/-- A name of an option has to be text. -/
def textName (item : Value × Nat) : Except Fault String :=
  match item.1 with
  | .text s => .ok s
  | v => .error (.optionNameNotText item.2 v.kind)

/-- The entries of a value that holds option names only: those of a dictionary. Another value with
parts would have to hold pairs, and a name is none. -/
def entriesOf : Value → Except Fault (List (String × Value))
  | .dict entries => .ok entries
  | v => do
    match ← v.parts with
    | [] => return []
    | first :: _ => .error (.optionPairLength (first.parts?.getD []).length)

/-- **Options from the mapping `v`.** All unknown names are reported together, in order
(`sortNames`). -/
def ofValue (v : Value) : Except Fault Options := do
  let given ← v.toSet
  let unknown := given.items.filter fun n => !(names.any fun known => n == .text known)
  if unknown.isEmpty then
    ofEntries (← entriesOf v)
  else
    .error (.unknownOptions (← (← sortNames unknown).zipIdx.mapM textName))

end Options

end Dependence
