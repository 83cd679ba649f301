import Dependence.Value.Access

/-!
# Nodes

A node stands for one instruction of a method, or is one of the two markers Entry and Exit. Nodes
are made by a `NodeTable`, which makes one node per instruction and numbers them in the order in
which they are asked for; the markers have the numbers `0` and `1`.

Two instructions are the same only if they are the same object, whatever their texts. An
`Instruction` therefore carries an identity, and so does a table: nodes of different tables are
different. A place of a method may hold no instruction at all; such a place still has a node.
-/

namespace Dependence

/-- An instruction of a method. -/
structure Instruction where
  /-- What tells it from other instructions. -/
  ident : Nat
  /-- Its text. -/
  text : String
  /-- Its text with the kind of instruction visible. -/
  shown : String
deriving DecidableEq, Inhabited

namespace Instruction

/-- An instruction that is known by its text alone. -/
def statement (ident : Nat) (text : String) : Instruction :=
  { ident, text, shown := "Statement(" ++ Text.quoted text ++ ")" }

/-- The text at a place that may hold no instruction. -/
def textOf : Option Instruction → String
  | some i => i.text
  | none => "None"

/-- The same as `textOf`, with the kind of instruction visible. -/
def shownOf : Option Instruction → String
  | some i => i.shown
  | none => "None"

end Instruction

/-- What a node stands for. -/
inductive Node.Content where
  | entry
  | exit
  /-- The place at a position of a method, and the instruction there. -/
  | place (instruction : Option Instruction) (position : Number)
deriving DecidableEq, Inhabited

/-- A node of some table. -/
structure Node where
  /-- Its number in the table. -/
  index : Nat
  /-- The identity of the table. -/
  table : Nat
  content : Node.Content
deriving DecidableEq, Inhabited

namespace Node

/-- Whether the node is a marker: Entry or Exit. -/
def isMarker (n : Node) : Bool :=
  match n.content with
  | .entry | .exit => true
  | .place .. => false

/-- The instruction of the node, if it has one. -/
def instruction? (n : Node) : Option Instruction :=
  match n.content with
  | .place i _ => i
  | _ => none

/-- The position of the node in its method, if it is no marker. -/
def position? (n : Node) : Option Number :=
  match n.content with
  | .place _ p => some p
  | _ => none

/-- The label: the position, cut to a whole number, and the text of the instruction. -/
def label (n : Node) : String :=
  match n.content with
  | .entry => "Entry"
  | .exit => "Exit"
  | .place i p => Number.decimal p.truncate ++ ": " ++ Instruction.textOf i

/-- The node with its number visible. -/
def shown (n : Node) : String := s!"Node({n.index}, {n.label})"

/-- What the node stands for, as shown. -/
def contentShown (n : Node) : String :=
  match n.content with
  | .entry => "ENTRY"
  | .exit => "EXIT"
  | .place i p => s!"Instruction({Number.decimal p.truncate}, {Instruction.shownOf i})"

/-- Order by `position?`; a marker is before everything. -/
def positionLe (a b : Node) : Bool :=
  match a.position?, b.position? with
  | some p, some q => p.le q
  | none, _ => true
  | some _, none => false

/-- Whether `n` stands at `position`; a marker stands nowhere. -/
def isAt (n : Node) (position : Value) : Bool :=
  match n.position? with
  | some p => Value.number p == position
  | none => Value.none == position

end Node

/-- The nodes made for one method. -/
structure NodeTable where
  /-- What tells the table from others. -/
  ident : Nat
  /-- The nodes, in order of their numbers. -/
  nodes : List Node
deriving DecidableEq, Inhabited

namespace NodeTable

/-- The node at which every method starts. -/
def entry (t : NodeTable) : Node := { index := 0, table := t.ident, content := .entry }

/-- The node at which every method ends. -/
def exit (t : NodeTable) : Node := { index := 1, table := t.ident, content := .exit }

/-- The table `ident` with its `entry` and `exit` only. -/
def new (ident : Nat) : NodeTable :=
  let bare : NodeTable := { ident, nodes := [] }
  { ident, nodes := [bare.entry, bare.exit] }

/-- Whether `n` was made for the instruction `i`. -/
def standsFor (i : Option Instruction) (n : Node) : Bool :=
  match n.content with
  | .place j _ => j == i
  | _ => false

/-- The node of `t` made for the instruction `i`, if there is one. -/
def lookup? (t : NodeTable) (i : Option Instruction) : Option Node :=
  t.nodes.find? (standsFor i)

/-- Make a node for `i` at `position`, with the next number. -/
def append (t : NodeTable) (i : Option Instruction) (position : Number) : NodeTable × Node :=
  let n : Node := { index := t.nodes.length, table := t.ident, content := .place i position }
  ({ t with nodes := t.nodes ++ [n] }, n)

/-- The node of `i`: the one made before (`lookup?`), or a new one at `position` (`append`). -/
def nodeFor (t : NodeTable) (i : Option Instruction) (position : Number) : NodeTable × Node :=
  match t.lookup? i with
  | some n => (t, n)
  | none => t.append i position

/-- The same as `nodeFor`, for a position of any shape: a node is only made at a number. -/
def nodeAt (t : NodeTable) (i : Option Instruction) (position : Value) :
    Except Fault (NodeTable × Node) :=
  match t.lookup? i with
  | some n => .ok (t, n)
  | none => return t.append i (← position.numeric)

end NodeTable

end Dependence
