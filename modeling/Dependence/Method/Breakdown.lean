import Dependence.Method.Basic

/-!
# Broken methods

A method with one part that fails: the stream, the transitions after some of them have been handed
out, or the look-up of definitions or uses, for all instructions or for one of them.
-/

namespace Dependence

/-- The part of a method that fails. -/
inductive Breakdown where
  | stream
  | transitions (after : Nat)
  /-- Definitions, at a given position or at all. -/
  | definitions (position : Option Value)
  /-- Uses, at a given position or at all. -/
  | uses (position : Option Value)
deriving Inhabited

namespace Method

/-- Whether `i` is the instruction of `m` at `position`; a value that is no position of the stream
is that of no instruction. -/
def standsAt (m : Method) (i : Option Instruction) (position : Value) : Bool :=
  match m.stream with
  | .ok stream => (stream.findIdx? (· == i)).any fun (p : Nat) => Value.int p == position
  | .error _ => false

/-- The look-up `ask`, failing with `e` for the instruction at `position`, or for all. -/
def failingAt (m : Method) (position : Option Value) (e : Error)
    (ask : Option Instruction → Except Error ValueSet) (i : Option Instruction) :
    Except Error ValueSet :=
  match position with
  | none => .error e
  | some p => if m.standsAt i p then .error e else ask i

/-- The method `m` with the part `b` broken: it fails with `e`. -/
def broken (m : Method) (b : Breakdown) (e : Error) : Method :=
  match b with
  | .stream => { m with stream := .error e }
  | .transitions after =>
    { m with transitions := { m.transitions with
        items := m.transitions.items.take after, failure := some e } }
  | .definitions p => { m with definitions := m.failingAt p e m.definitions }
  | .uses p => { m with uses := m.failingAt p e m.uses }

end Method

end Dependence
