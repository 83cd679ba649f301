import Dependence.Flow.Basic

/-!
# References to nodes

The ways to name a node of an analysis from outside. A reference may lead nowhere, or to a node
that is not in the flow graph.
-/

namespace Dependence

/-- A name for a node. -/
inductive Reference where
  | entry
  | exit
  /-- The node at a position of the flow graph. -/
  | position (v : Value)
  /-- The node with a number in the table. -/
  | number (v : Value)
  /-- A node of another table, for a statement that no method has. -/
  | foreign (text : String) (position : Value)
  | nowhere
deriving Inhabited

/-- What a reference leads to in `f`. The two numbers are identities that nothing else has: `table`
of a further table, and `ident` of a further instruction. -/
def FlowGraph.resolve (f : FlowGraph) (table ident : Nat) : Reference → Except Fault (Option Node)
  | .entry => .ok (some f.entry)
  | .exit => .ok (some f.exit)
  | .position v => .ok (f.nodeAt? v)
  | .number v => some <$> itemAt f.table.nodes v
  | .foreign text position => do
    let (_, n) ← (NodeTable.new table).nodeAt (some (.statement ident text)) position
    return some n
  | .nowhere => .ok none

/-- The node that a reference was found to lead to, where one is needed. -/
def FlowGraph.existing : Option Node → Except Fault Node
  | some n => .ok n
  | none => .error (.lacks Value.none.kind "instruction")

end Dependence
