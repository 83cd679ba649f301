import Dependence.Method.Basic

/-!
# Bytecode

A method given as decoded bytecode: a list of operations, each with a name, a number, an argument
and an offset. Transitions are found by following control from the first operation, so those of
operations that are never reached are left out.

* `Bytecode.successors` — where control goes from one operation;
* `Bytecode.explore` — all transitions out of reachable operations;
* `Operation.defined`, `Operation.used` — the variables of an operation. Some operations name two
  variables at once.
-/

namespace Dependence

/-- A decoded operation. -/
structure Operation where
  name : String
  /-- The number that tells whether it jumps. -/
  code : Int
  argument : Value
  offset : Int
deriving Inhabited

namespace Operation

/-! ### Kinds of operation -/

/-- The numbers of operations that jump to the offset in their argument, unless the decoder has
others (`Bytecode.jumpCodes`). -/
def usualJumpCodes : List Int :=
  [93, 110, 111, 112, 114, 115, 123, 128, 129, 134, 140, 173, 174, 175, 176]

/-- Operations that always jump. -/
def unconditionalJumps : List String :=
  ["JUMP_FORWARD", "JUMP_ABSOLUTE", "JUMP_BACKWARD", "JUMP_BACKWARD_NO_INTERRUPT", "JUMP",
    "JUMP_NO_INTERRUPT"]

/-- Operations that leave the method. -/
def frameExits : List String := ["RETURN_VALUE", "RETURN_CONST", "RAISE_VARARGS", "RERAISE"]

/-- Operations that define the variable in their argument. -/
def definers : List String :=
  ["STORE_FAST", "STORE_FAST_MAYBE_NULL", "STORE_NAME", "STORE_DEREF", "STORE_GLOBAL",
    "DELETE_FAST", "DELETE_NAME", "DELETE_DEREF", "DELETE_GLOBAL"]

/-- Operations that use the variable in their argument. -/
def users : List String :=
  ["LOAD_FAST", "LOAD_FAST_CHECK", "LOAD_FAST_AND_CLEAR", "LOAD_FAST_BORROW", "LOAD_NAME",
    "LOAD_DEREF", "LOAD_CLOSURE", "LOAD_GLOBAL", "LOAD_FROM_DICT_OR_DEREF",
    "LOAD_FROM_DICT_OR_GLOBALS"]

/-- Operations on two variables, with whether each of the two is defined. -/
def paired : List (String × List Bool) :=
  [("STORE_FAST_STORE_FAST", [true, true]), ("STORE_FAST_LOAD_FAST", [true, false]),
    ("LOAD_FAST_LOAD_FAST", [false, false]), ("LOAD_FAST_BORROW_LOAD_FAST_BORROW", [false, false])]

/-- Whether `o` jumps, given the numbers `jumpCodes` of operations that do. -/
def jumps (o : Operation) (jumpCodes : List Int) : Bool := jumpCodes.contains o.code

/-- Whether control can pass from `o` to the operation after it. -/
def fallsThrough (o : Operation) : Bool :=
  !unconditionalJumps.contains o.name && !frameExits.contains o.name

/-! ### Variables -/

/-- Of the two variables of a `paired` operation, those that have the given `role`: defined or not.
-/
def half (o : Operation) (roles : List Bool) (role : Bool) : Except Fault ValueSet := do
  let named := (← o.argument.parts).zip roles
  ValueSet.ofList ((named.filter fun x => x.2 == role).map (·.1))

/-- The variables of `o` in one `role`: that of its argument alone if it is one of `single`, or the
`half` of its pair that has the role. -/
def inRole (o : Operation) (single : List String) (role : Bool) : Except Fault ValueSet :=
  if single.contains o.name then ValueSet.ofList [o.argument]
  else
    match paired.lookup o.name with
    | some roles => o.half roles role
    | none => .ok .empty

/-- The variables that `o` defines. -/
def defined (o : Operation) : Except Fault ValueSet := o.inRole definers true

/-- The variables that `o` uses. -/
def used (o : Operation) : Except Fault ValueSet := o.inRole users false

/-- The operation as an instruction: its name and offset. -/
def instruction (o : Operation) (ident : Nat) : Instruction :=
  let text := o.name ++ "@" ++ Number.decimal o.offset
  { ident, text, shown := text }

end Operation

/-- A method as decoded bytecode. -/
structure Bytecode where
  name : Value
  operations : List Operation
  /-- The identity of the first instruction; the others follow. -/
  firstIdent : Nat
  /-- The numbers of operations that jump, as the decoder has them. -/
  jumpCodes : List Int := Operation.usualJumpCodes

namespace Bytecode

/-- The last position at `offset`. -/
def positionAt? (b : Bytecode) (offset : Value) : Option Nat :=
  ((b.operations.zipIdx.filter fun o => Value.int o.1.offset == offset).map (·.2)).getLast?

/-- The position that the jump `o` leads to (`positionAt?`). -/
def jumpTarget (b : Bytecode) (o : Operation) : Except Fault Nat := do
  match b.positionAt? (← o.argument.hashed) with
  | some p => .ok p
  | none => .error (.unknownJump b.name o.name o.offset o.argument)

/-- **Where control goes from the position `i`**: to the next one, then to the target of the jump
(`jumpTarget`). -/
def successors (b : Bytecode) (i : Nat) : Except Fault (List Nat) := do
  match b.operations[i]? with
  | none => .ok []
  | some o =>
    let next := if o.fallsThrough && i + 1 < b.operations.length then [i + 1] else []
    let target ← if o.jumps b.jumpCodes then List.singleton <$> b.jumpTarget o else .ok []
    return next ++ target

/-- Positions not found yet, and positions found but not followed yet, the latest first. -/
abbrev Frontier := List Nat × List Nat

/-- Take note of the position `i` that control leads to. -/
def Frontier.find (f : Frontier) (i : Nat) : Frontier :=
  if f.1.contains i then (f.1.erase i, i :: f.2) else f

theorem Frontier.length_find (f : Frontier) (i : Nat) :
    (f.find i).1.length + (f.find i).2.length = f.1.length + f.2.length := by
  unfold Frontier.find
  split
  · rename_i h
    have hmem : i ∈ f.1 := List.contains_iff_mem.1 h
    have hpos := List.length_pos_of_mem hmem
    simp only [List.length_erase_of_mem hmem, List.length_cons]
    omega
  · rfl

theorem Frontier.length_foldl_find (is : List Nat) (f : Frontier) :
    (is.foldl Frontier.find f).1.length + (is.foldl Frontier.find f).2.length
      = f.1.length + f.2.length := by
  induction is generalizing f with
  | nil => rfl
  | cons i rest ih => rw [List.foldl_cons, ih, Frontier.length_find]

/-- **Follow control** from the positions of a frontier. Gives back the transitions, and the
number of positions that were never found. -/
def explore (b : Bytecode) (unseen : List Nat) :
    List Nat → Except Fault (List (Nat × Nat) × Nat)
  | [] => .ok ([], unseen.length)
  | i :: pending => do
    let next ← b.successors i
    let rest ← explore b (next.foldl Frontier.find (unseen, pending)).1
      (next.foldl Frontier.find (unseen, pending)).2
    return (next.map (i, ·) ++ rest.1, rest.2)
termination_by pending => unseen.length + pending.length
decreasing_by
  have h := Frontier.length_foldl_find next (unseen, pending)
  simp only [List.length_cons] at h ⊢
  omega

/-- Order of transitions: by source, then by target. -/
def transitionLe (a b : Nat × Nat) : Bool := a.1 < b.1 || (a.1 == b.1 && a.2 ≤ b.2)

/-- The reachable transitions in order, and the number of reachable positions (`explore`). -/
def reachable (b : Bytecode) : Except Fault (List (Nat × Nat) × Nat) := do
  let count := b.operations.length
  let (found, unseen) ← b.explore ((List.range count).erase 0) [0]
  return (found.mergeSort transitionLe, count - unseen)

/-- A transition as it is handed out. -/
def transitionValue (t : Nat × Nat) : Value := .tuple [.int t.1, .int t.2]

/-- What is logged about the transitions that were found. -/
def record (b : Bytecode) (positions transitions : Nat) : Record where
  severity := .debug
  component := .bytecode
  message := s!"{b.name.plain}: {positions} reachable instructions, {transitions} edges"

/-- The transitions of the method: the `reachable` ones, as they are handed out. -/
def transitions (b : Bytecode) : Transitions :=
  if b.operations.isEmpty then .ofList []
  else
    match b.reachable with
    | .error f => { log := [], items := [], failure := some (.fault f) }
    | .ok (found, count) =>
      { log := [b.record count found.length], items := found.map transitionValue, failure := none }

/-- The instructions of the method. -/
def instructions (b : Bytecode) : List Instruction :=
  b.operations.zipIdx.map fun o => o.1.instruction (b.firstIdent + o.2)

/-- The operation that `i` stands for in the method `name` with the given `code`. -/
def operationOf (name : Value) (code : List (Instruction × Operation)) (i : Option Instruction) :
    Except Fault Operation :=
  match code.find? fun x => some x.1 == i with
  | some x => .ok x.2
  | none => .error (.foreignInstruction (Instruction.shownOf i) name)

/-- The method that `b` describes. -/
def method (b : Bytecode) : Method :=
  let instructions := b.instructions
  let operation := operationOf b.name (instructions.zip b.operations)
  { name := b.name
    stream := .ok (instructions.map some)
    transitions := b.transitions
    definitions := fun i => liftM (operation i >>= Operation.defined)
    uses := fun i => liftM (operation i >>= Operation.used) }

end Bytecode

end Dependence
