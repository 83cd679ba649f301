import Dependence.Log.Record

/-!
# Actions

An `Action` works on a state: it may change the state, write to the log, and fail. What it changed
before it failed stays changed.
-/

namespace Dependence

/-- An operation on a state: the state afterwards, and the outcome. -/
def Action (σ α : Type) := σ → σ × Outcome α

namespace Action

variable {σ α β : Type}

/-- Go on with `f` after a success of `x`; a failure leaves the state that `x` left. -/
def bind (x : Action σ α) (f : α → Action σ β) : Action σ β := fun s =>
  let (s, out) := x s
  match out.result with
  | .ok v =>
    let (s, rest) := f v s
    (s, { log := out.log ++ rest.log, result := rest.result })
  | .error e => (s, { log := out.log, result := .error e })

instance : Monad (Action σ) where
  pure v s := (s, pure v)
  bind := bind

instance : MonadLift Outcome (Action σ) := ⟨fun x s => (s, x)⟩

/-- Read `f` off the state, which stays as it is. -/
def reads (f : σ → α) : Action σ α := fun s => (s, pure (f s))

/-- Something that is built once: what the state keeps (`get`), or what `build` makes, which is then
`put` there. When `build` fails nothing is put. -/
def kept (get : σ → Option α) (put : α → σ → σ) (build : Action σ α) : Action σ α := fun s =>
  match get s with
  | some v => (s, pure v)
  | none =>
    let (s, x) := build s
    match x.result with
    | .ok v => (put v s, x)
    | .error _ => (s, x)

/-- Change the state by `f`; where `f` fails the state stays as it is. -/
def change (f : σ → Except Fault (σ × α)) : Action σ α := fun s =>
  match f s with
  | .ok (s, v) => (s, pure v)
  | .error e => (s, .fail (.fault e))

end Action

end Dependence
