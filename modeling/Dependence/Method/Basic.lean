import Dependence.Graph.Node
import Dependence.Log.Record

/-!
# Methods

A `Method` is what an analysis is given: a name, a stream of instructions, the transitions between
positions of the stream, and the variables that each instruction defines and uses. It comes from
outside, so each part may fail, and a transition may be a value of any shape.

`Method.discover` reads stream and transitions; the first fault on the way ends it.
-/

namespace Dependence

/-- A source of the variables that instructions define and use. -/
structure DefUse where
  definitions : Option Instruction → Except Error ValueSet
  uses : Option Instruction → Except Error ValueSet

/-- The transitions of a method, as they are handed out one by one. -/
structure Transitions where
  /-- What is logged before the first one. -/
  log : List Record
  items : List Value
  /-- What happens after the last one: nothing, or an error. -/
  failure : Option Error

/-- A method to analyse. -/
structure Method extends DefUse where
  name : Value
  stream : Except Error (List (Option Instruction))
  transitions : Transitions

namespace Transitions

/-- The transitions `items`, without an error at the end. -/
def ofList (items : List Value) : Transitions := { log := [], items, failure := none }

/-- The transitions as pairs: each has to have two parts (`Value.pair`), in order, before what
happens at the end. -/
def pairs (t : Transitions) : Outcome (List (Value × Value)) where
  log := t.log
  result := do
    let found ← t.items.mapM fun v => (liftM v.pair : Except Error (Value × Value))
    match t.failure with
    | some e => .error e
    | none => .ok found

end Transitions

/-- The stream and the transitions of `m`. -/
def Method.discover (m : Method) : Outcome (List (Option Instruction) × List (Value × Value)) := do
  let stream ← m.stream
  return (stream, ← m.transitions.pairs)

end Dependence
