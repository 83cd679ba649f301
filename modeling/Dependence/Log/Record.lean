import Dependence.Error

/-!
# Log records and outcomes

What an operation logs is part of its result. An `Outcome` holds the records that were written, in
order, and the value or the error that the operation ended with; a record that was written before an
error stays written.
-/

namespace Dependence

/-- Levels of the records that an analysis writes. -/
inductive Severity where
  | debug
  | warning
deriving DecidableEq, Inhabited

/-- The part of the program that writes a record. -/
inductive Component where
  | flow
  | control
  | data
  | combined
  | slicing
  | bytecode
deriving DecidableEq, Inhabited

/-- One record of the log. -/
structure Record where
  severity : Severity
  component : Component
  message : String
deriving DecidableEq, Inhabited

/-- The result of an operation that writes records and may fail. -/
structure Outcome (α : Type) where
  log : List Record
  result : Except Error α

namespace Outcome

variable {α β : Type}

/-- Continue with `f` after a success of `x`; the records of both stay. -/
def bind (x : Outcome α) (f : α → Outcome β) : Outcome β :=
  match x.result with
  | .ok a =>
    let y := f a
    { log := x.log ++ y.log, result := y.result }
  | .error e => { log := x.log, result := .error e }

instance : Monad Outcome where
  pure a := ⟨[], .ok a⟩
  bind := bind

instance : MonadLift (Except Error) Outcome := ⟨fun r => ⟨[], r⟩⟩

instance : MonadLift (Except Fault) Outcome := ⟨fun r => ⟨[], liftM r⟩⟩

/-- Write a record of `severity` for `component`. -/
def write (severity : Severity) (component : Component) (message : String) : Outcome Unit :=
  ⟨[{ severity, component, message }], .ok ()⟩

/-- Fail with `e`, writing no record. -/
def fail (e : Error) : Outcome α := ⟨[], .error e⟩

end Outcome

end Dependence
