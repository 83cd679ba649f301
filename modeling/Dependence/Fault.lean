import Dependence.Value.Print

/-!
# Faults

A `Fault` says what went wrong in a single operation: a value of the wrong shape, a node that is not
in the graph, an instruction that belongs to another method. Each fault has a `Fault.Kind`, which
decides who handles it, and a wording, `Fault.message`.

A method or a source of definitions and uses is supplied from outside and may report faults of its
own. A fault of one of the kinds, raised with a text, is `Fault.reported`. A fault of any other
class is `Fault.foreign`: it counts as the kind that its class belongs to, as `Fault.Kind.runtime`
if it belongs to none of them, and its text stands as it is.
-/

namespace Dependence

/-- The kinds of fault. -/
inductive Fault.Kind where
  /-- Code that cannot be decoded into a flow of control. -/
  | malformedCode
  /-- A rule of the data structures was broken. -/
  | brokenRule
  | badIndex
  | missingKey
  | wrongType
  | badValue
  /-- A text that cannot be read; one kind of bad value. -/
  | badText
  /-- A look-up that failed for another reason than a bad index or a missing key. -/
  | lookup
  | missingAttribute
  /-- A fault that belongs to none of the other kinds. No stage handles it. -/
  | runtime
  | divisionByZero
  /-- A change to something that can only be read. -/
  | readOnly
deriving DecidableEq, Inhabited

/-- What went wrong. Nodes and instructions appear as they are shown. -/
inductive Fault where
  /-- A fault that was reported from outside, with the text that it was raised with. -/
  | reported (kind : Fault.Kind) (text : String)
  /-- A fault of a class of its own that was reported from outside, with its text in full. -/
  | foreign (kind : Fault.Kind) (text : String)
  | notIterable (kind : String)
  | notContainer (kind : String)
  | lengthless (kind : String)
  | notUnpackable (kind : String)
  | tooFewParts (found : Nat)
  | tooManyParts
  | unhashable (kind : String)
  | notNumeric (kind : String)
  | infinitePosition
  | undefinedPosition
  | notComparable (operator left right : String)
  | notIndex (kind : String)
  | indexOutOfRange
  | divisionByZero
  | noNode
  | readOnly
  /-- Something of a kind that does not have what it was asked for. -/
  | lacks (kind member : String)
  | repeatedKind
  | notMember (node : String) (graph : Value)
  | strayEdge (source target : String) (graph : Value)
  | repeatedInstruction (instruction : String) (first second : Nat) (method : Value)
  | foreignInstruction (instruction : String) (method : Value)
  | notCode (value : Value)
  | unknownJump (method : Value) (operation : String) (offset : Int) (target : Value)
  | unknownMode (value : Value)
  | notAMode (value : Value)
  | unknownLevel (value : Value)
  | unknownOptions (names : List String)
  | unexpectedOption (name : String)
  /-- An argument that was given already. -/
  | givenTwice (operation argument : String)
  | optionsNotMapping (kind : String)
  | optionNameNotText (position : Nat) (kind : String)
  | optionPairLength (length : Nat)
deriving Inhabited

namespace Fault

/-- The kind of a fault. -/
def kind : Fault → Kind
  | reported k _ | foreign k _ => k
  | infinitePosition => .runtime
  | undefinedPosition | tooFewParts _ | tooManyParts | noNode | repeatedInstruction ..
  | unknownMode _ | notAMode _ | unknownLevel _ | unknownOptions _ | optionPairLength _ => .badValue
  | notIterable _ | notContainer _ | lengthless _ | notUnpackable _ | unhashable _
  | notIndex _ | notNumeric _ | notComparable .. | repeatedKind | notCode _ | unexpectedOption _
  | givenTwice .. | optionsNotMapping _ | optionNameNotText .. => .wrongType
  | indexOutOfRange => .badIndex
  | divisionByZero => .divisionByZero
  | readOnly => .readOnly
  | lacks .. => .missingAttribute
  | notMember .. | strayEdge .. => .brokenRule
  | foreignInstruction .. => .missingKey
  | unknownJump .. => .malformedCode

/-- The wording of a fault, before `message` puts it into its final form. -/
def wording : Fault → String
  | reported _ text | foreign _ text => text
  | notIterable k => s!"'{k}' object is not iterable"
  | notContainer k => s!"argument of type '{k}' is not iterable"
  | lengthless k => s!"object of type '{k}' has no len()"
  | notUnpackable k => s!"cannot unpack non-iterable {k} object"
  | tooFewParts n => s!"not enough values to unpack (expected 2, got {n})"
  | tooManyParts => "too many values to unpack (expected 2)"
  | unhashable k => s!"unhashable type: '{k}'"
  | notNumeric k => s!"%d format: a real number is required, not {k}"
  | infinitePosition => "cannot convert float infinity to integer"
  | undefinedPosition => "cannot convert float NaN to integer"
  | notComparable op a b => s!"'{op}' not supported between instances of '{a}' and '{b}'"
  | notIndex k => s!"list indices must be integers or slices, not {k}"
  | indexOutOfRange => "list index out of range"
  | divisionByZero => "division by zero"
  | noNode => "None cannot be a node"
  | readOnly => "Frozen graph can't be modified"
  | lacks k member => s!"'{k}' object has no attribute '{member}'"
  | repeatedKind =>
    "pyslicer.analysis.graph.Graph.add_edge() got multiple values for keyword argument 'kind'"
  | notMember node graph => s!"{node} is not a node of graph {graph.quoted}"
  | strayEdge source target graph =>
    s!"Edge {source} -> {target} has an endpoint outside graph {graph.quoted}"
  | repeatedInstruction insn first second method =>
    s!"{insn} appears at positions {first} and {second} of {method.plain}; wrap it in Statement"
  | foreignInstruction insn method => s!"{insn} is not an instruction of {method.plain}"
  | notCode v => s!"Expected a function or code object, got {v.quoted}"
  | unknownJump method operation offset target =>
    s!"{method.plain}: {operation} at offset {Number.decimal offset} jumps to unknown offset " ++
      target.quoted
  | unknownMode v => s!"Unknown metric mode: {v.quoted}"
  | notAMode v => s!"{v.quoted} is not a valid MetricMode"
  | unknownLevel v => s!"Unknown log level: {v.quoted}"
  | unknownOptions names => "Unknown analysis options: " ++ Value.commaSeparated names
  | unexpectedOption name =>
    s!"AnalysisOptions.__init__() got an unexpected keyword argument '{name}'"
  | givenTwice operation argument =>
    s!"{operation}() got multiple values for argument '{argument}'"
  | optionsNotMapping k =>
    s!"pyslicer.application.config.AnalysisOptions() argument after ** must be a mapping, not {k}"
  | optionNameNotText i k => s!"sequence item {i}: expected str instance, {k} found"
  | optionPairLength n =>
    s!"dictionary update sequence element #0 has length {n}; 2 is required"

/-- The text of a fault. A missing key is shown in quotes, unless the fault has a text of its own
(`Fault.foreign`). -/
def message : Fault → String
  | foreign _ text => text
  | f => if f.kind = .missingKey then Text.quoted f.wording else f.wording

end Fault

end Dependence
