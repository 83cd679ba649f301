import Dependence.Method.Basic

/-!
# Listings

A `Listing` is a method written down in full: its instructions, its transitions, and the variables
that are defined and used at each position. Every instruction stands at one position only.

`Listing.fallThrough` gives the transitions of a listing in which control passes from each
instruction to the next, unless the instruction is terminal, and to the targets of its branches.
-/

namespace Dependence

/-- A method written down in full. -/
structure Listing where
  name : Value
  instructions : List (Option Instruction)
  transitions : List Value
  /-- The variables defined at each position. -/
  definitions : OrderedMap Value ValueSet
  /-- The variables used at each position. -/
  uses : OrderedMap Value ValueSet

namespace Listing

/-- The first item of a list that stands there already, with both places; counting starts at a given
number, and the items before are given. -/
def repeatedFrom (before : List (Option Instruction)) :
    List (Option Instruction) → Option (Option Instruction × Nat × Nat)
  | [] => none
  | i :: rest =>
    match before.findIdx? (· == i) with
    | some first => some (i, first, before.length)
    | none => repeatedFrom (before ++ [i]) rest

/-- The first instruction that stands at two positions, with both (`repeatedFrom`). -/
def repeated? (instructions : List (Option Instruction)) :
    Option (Option Instruction × Nat × Nat) :=
  repeatedFrom [] instructions

/-- The sets of variables of `table` by position, read in order (`Value.toSet`). -/
def readSets (table : OrderedMap Value Value) : Except Fault (OrderedMap Value ValueSet) := do
  return .ofList (← table.entries.mapM fun e => return (e.1, ← e.2.toSet))

/-- **A listing**, from transitions and sets of variables of any shape. -/
def make (instructions : List (Option Instruction)) (transitions : Value)
    (definitions uses : OrderedMap Value Value) (name : Value) : Except Fault Listing := do
  let transitions ← transitions.parts
  let definitions ← readSets definitions
  let uses ← readSets uses
  match repeated? instructions with
  | some (i, first, second) =>
    .error (.repeatedInstruction (Instruction.shownOf i) first second name)
  | none => .ok { name, instructions, transitions, definitions, uses }

/-- The transitions out of one position: to the next one, unless the position is terminal or the
last, then to the targets of its branches. -/
def transitionsFrom (length : Nat) (branches : OrderedMap Value Value) (terminals : ValueSet)
    (i : Nat) : Except Fault (List Value) := do
  let transition (target : Value) : Value := .tuple [.int i, target]
  let next :=
    if !terminals.contains (.int i) && i + 1 < length then [transition (.int (i + 1 : Nat))] else []
  let targets ← match branches.find? (.int i) with
    | some v => v.parts
    | none => .ok []
  return next ++ targets.map transition

/-- The transitions of a listing in which control falls through (`transitionsFrom`). -/
def fallThrough (length : Nat) (branches : OrderedMap Value Value) (terminals : Value) :
    Except Fault (List Value) := do
  let terminals ← terminals.toSet
  return (← (List.range length).mapM (transitionsFrom length branches terminals)).flatten

/-- The position of the instruction `i`, which has to be one of `l`. -/
def positionOf (l : Listing) (i : Option Instruction) : Except Fault Nat :=
  match l.instructions.findIdx? (· == i) with
  | some p => .ok p
  | none => .error (.foreignInstruction (Instruction.shownOf i) l.name)

/-- The variables that `table` gives for the instruction `i`; none if it says nothing. -/
def lookup (l : Listing) (table : OrderedMap Value ValueSet) (i : Option Instruction) :
    Except Fault ValueSet :=
  return (table.find? (.int (← l.positionOf i))).getD .empty

/-- The method that `l` describes. -/
def method (l : Listing) : Method where
  name := l.name
  stream := .ok l.instructions
  transitions := .ofList l.transitions
  definitions i := liftM (l.lookup l.definitions i)
  uses i := liftM (l.lookup l.uses i)

end Listing

end Dependence
