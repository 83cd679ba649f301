import Dependence.OrderedMap
import Dependence.Value.Number

/-!
# Values

A `Value` is a datum whose shape is known only when the program runs: an edge endpoint, a variable,
an option, the argument of an operation.

Values compare by `Value.tokens`, a flat spelling in which numbers stand for their exact value and
the entries of a dictionary are sorted. So `true`, `1` and `1.0` are the same value, a list is never
a tuple, and the order of a dictionary does not matter. The comparison is an equivalence
(`Value.beq_iff`), but not equality of spellings.

Lists and dictionaries cannot be put into a set or be keys of a map; `Value.unhashable?` finds the
part of a value that forbids it.
-/

namespace Dependence

/-- A datum of dynamic shape. -/
inductive Value where
  | none
  | number (n : Number)
  | text (s : String)
  | list (items : List Value)
  | tuple (items : List Value)
  | dict (entries : List (String × Value))
deriving Inhabited

namespace Value

/-- The truth value `b`. -/
@[match_pattern] abbrev bool (b : Bool) : Value := .number (.bool b)

/-- The whole number `i`. -/
@[match_pattern] abbrev int (i : Int) : Value := .number (.int i)

/-- A letter of the flat spelling of a value. -/
inductive Token where
  | none
  | number (exact : Exact)
  | text (s : String)
  | list (length : Nat)
  | tuple (length : Nat)
  | dict (size : Nat)
deriving DecidableEq

mutual

/-- The flat spelling of a value: each container is announced with its length. -/
def tokens : Value → List Token
  | .none => [.none]
  | .number n => [.number n.exact]
  | .text s => [.text s]
  | .list items => .list items.length :: itemTokens items
  | .tuple items => .tuple items.length :: itemTokens items
  | .dict entries =>
    .dict entries.length ::
      ((entryTokens entries).mergeSort fun a b => !(b.1 < a.1)).flatMap fun e => .text e.1 :: e.2

/-- The spellings (`tokens`) of several values in a row. -/
def itemTokens : List Value → List Token
  | [] => []
  | v :: rest => v.tokens ++ itemTokens rest

/-- The spellings of the values of a dictionary, by key. -/
def entryTokens : List (String × Value) → List (String × List Token)
  | [] => []
  | (k, v) :: rest => (k, v.tokens) :: entryTokens rest

end

/-- Whether two values are the same: numbers by their exact value, texts as they are, and all else
by the flat spelling, which agrees with both. -/
def same : Value → Value → Bool
  | .number a, .number b => decide (a.exact = b.exact)
  | .text a, .text b => decide (a = b)
  | a, b => decide (a.tokens = b.tokens)

instance : BEq Value := ⟨same⟩

/-- Two values are the same when their `tokens` are. -/
theorem beq_iff {a b : Value} : a == b ↔ a.tokens = b.tokens := by
  change same a b = true ↔ _
  unfold same
  split <;> simp [tokens]

instance : EquivBEq Value where
  rfl := beq_iff.2 rfl
  symm h := beq_iff.2 (beq_iff.1 h).symm
  trans h h' := beq_iff.2 ((beq_iff.1 h).trans (beq_iff.1 h'))

/-- The word for the kind of value. -/
def kind : Value → String
  | .none => "NoneType"
  | .number n => n.kind
  | .text _ => "str"
  | .list _ => "list"
  | .tuple _ => "tuple"
  | .dict _ => "dict"

/-- Whether the value counts as present where a default stands by: zero, nothing and what is empty
do not. -/
def isTruthy : Value → Bool
  | .none => false
  | .number n => n != .int 0
  | .text s => s != ""
  | .list items => !items.isEmpty
  | .tuple items => !items.isEmpty
  | .dict entries => !entries.isEmpty

mutual

/-- The kind of the first part that cannot be an element of a set. -/
def unhashable? : Value → Option String
  | .list _ => some "list"
  | .dict _ => some "dict"
  | .tuple items => unhashableItem? items
  | _ => Option.none

/-- The first `unhashable?` part among several values. -/
def unhashableItem? : List Value → Option String
  | [] => Option.none
  | v :: rest => v.unhashable?.or (unhashableItem? rest)

end

/-- The parts that a loop over the value meets: the characters of a text, the items of a list or
tuple, the keys of a dictionary. -/
def parts? : Value → Option (List Value)
  | .text s => some (s.toList.map fun c => .text c.toString)
  | .list items => some items
  | .tuple items => some items
  | .dict entries => some (entries.map fun e => .text e.1)
  | _ => Option.none

end Value

end Dependence
