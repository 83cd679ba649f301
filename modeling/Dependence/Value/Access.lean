import Dependence.Fault

/-!
# Reading values

Access to the parts of a value, with the fault that tells why a value of another shape will not do.

* `Value.parts` — what a loop over the value meets;
* `Value.pair` — a value taken apart into two;
* `Value.hashed` — a value that may be an element of a set;
* `Element`, `ValueSet` — such a value, and a set of them in order of first insertion;
* `itemAt` — an item of a list by its number.
-/

namespace Dependence

namespace Value

/-- The parts that a loop over `v` meets (`parts?`). -/
def parts (v : Value) : Except Fault (List Value) :=
  match v.parts? with
  | some items => .ok items
  | Option.none => .error (.notIterable v.kind)

/-- The two parts of `v`, which has to have exactly two. -/
def pair (v : Value) : Except Fault (Value × Value) :=
  match v.parts? with
  | some [a, b] => .ok (a, b)
  | some (_ :: _ :: _ :: _) => .error .tooManyParts
  | some items => .error (.tooFewParts items.length)
  | Option.none => .error (.notUnpackable v.kind)

/-- The value `v` itself, if it may be an element of a set or a key of a map (`unhashable?`). -/
def hashed (v : Value) : Except Fault Value :=
  match v.unhashable? with
  | some k => .error (.unhashable k)
  | Option.none => .ok v

/-- The number that a position has to be: one that has a whole part. -/
def numeric : Value → Except Fault Number
  | .number n =>
    match n.exact with
    | .fraction .. => .ok n
    | .infinite _ => .error .infinitePosition
    | .notANumber _ => .error .undefinedPosition
  | v => .error (.notNumeric v.kind)

/-- The map of `entries` with values as keys; each key has to be `hashed`. -/
def mapOfList {β : Type} (entries : List (Value × β)) : Except Fault (OrderedMap Value β) :=
  entries.foldlM (fun m e => return m.insert (← e.1.hashed) e.2) .empty

end Value

/-- A value that a set can hold. -/
abbrev Element := { v : Value // v.unhashable? = none }

/-- The value `v` as an element of a set. -/
def Value.element (v : Value) : Except Fault Element :=
  match h : v.unhashable? with
  | some k => .error (.unhashable k)
  | Option.none => .ok ⟨v, h⟩

/-- A set of values, in order of first insertion. Of several spellings of one value it keeps the
first. -/
@[ext]
structure ValueSet where
  items : List Value
  distinct : items.Pairwise fun a b => (a == b) = false
  /-- Every item is one that a set can hold. -/
  hashable : ∀ v ∈ items, v.unhashable? = none

namespace ValueSet

/-- The set without elements. -/
def empty : ValueSet := ⟨[], .nil, nofun⟩

instance : Inhabited ValueSet := ⟨empty⟩

/-- Whether `v` is an element, in some spelling. -/
def contains (s : ValueSet) (v : Value) : Bool := s.items.any (· == v)

/-- Number of elements. -/
def size (s : ValueSet) : Nat := s.items.length

/-- Add `v`, unless the set `contains` it. -/
def insert (s : ValueSet) (v : Element) : ValueSet :=
  if h : s.contains v then s
  else
    { items := s.items ++ [v.val]
      distinct := by
        simp only [contains, List.any_eq_true, not_exists, not_and] at h
        refine List.pairwise_append.2 ⟨s.distinct, List.pairwise_singleton _ _, ?_⟩
        intro a ha b hb
        rw [List.mem_singleton.1 hb]
        exact eq_false_of_ne_true (h a ha)
      hashable := fun a ha => (List.mem_append.1 ha).elim (s.hashable a) fun ha =>
        List.mem_singleton.1 ha ▸ v.property }

/-- The set of the values `vs`, if each of them may be an element (`Value.element`). -/
def ofList (vs : List Value) : Except Fault ValueSet :=
  vs.foldlM (fun s v => return s.insert (← v.element)) empty

/-- The items, as elements of a set. -/
def elements (s : ValueSet) : List Element := s.items.attachWith _ s.hashable

/-- The elements as shown, in the order of their texts. -/
def shown (s : ValueSet) : List String :=
  (s.items.map Value.quoted).mergeSort fun a b => !(b < a)

/-- The elements, in the order of the texts by which they are shown. -/
def sorted (s : ValueSet) : List Element :=
  ((s.elements.map fun v => (v.val.quoted, v)).mergeSort fun a b => !(b.1 < a.1)).map (·.2)

end ValueSet

/-- The whole number that `v` is, where one is needed to find an item of a list. -/
def Value.index (v : Value) : Except Fault Int :=
  let i? : Option Int := match v with
    | .number n => n.index?
    | _ => Option.none
  i?.elim (.error (.notIndex v.kind)) .ok

/-- The item of `items` at `number`; a number below zero counts from the end. -/
def itemAt {α : Type} (items : List α) (number : Value) : Except Fault α := do
  let i ← number.index
  let place := if i < 0 then i + items.length else i
  match if place < 0 then none else items[place.toNat]? with
  | some a => .ok a
  | none => .error .indexOutOfRange

/-- The set of the `parts` of `v`. -/
def Value.toSet (v : Value) : Except Fault ValueSet := do
  ValueSet.ofList (← v.parts)

end Dependence
