import Dependence.Decimal.Shortest

/-!
# Numbers

A number is a truth value, a whole number or a binary floating-point number. The three kinds are
spelled differently and compare by value: `true`, `1` and `1.0` are one number.
-/

namespace Dependence

/-- A number, in one of three spellings. -/
inductive Number where
  | bool (b : Bool)
  | int (i : Int)
  | real (x : Binary64)
deriving DecidableEq, Inhabited

namespace Number

/-- The exact value. -/
def exact : Number → Exact
  | bool b => .fraction (if b then 1 else 0) 0
  | int i => .fraction i 0
  | real x => x.exact

/-- Two numbers are the same when their `exact` values are. -/
instance : BEq Number := ⟨fun a b => decide (a.exact = b.exact)⟩

theorem beq_iff {a b : Number} : a == b ↔ a.exact = b.exact := decide_eq_true_iff

instance : EquivBEq Number where
  rfl := beq_iff.2 rfl
  symm h := beq_iff.2 (beq_iff.1 h).symm
  trans h h' := beq_iff.2 ((beq_iff.1 h).trans (beq_iff.1 h'))

/-- Order by `exact` value: `b` is not below `a`. -/
def le (a b : Number) : Bool := !b.exact.lt a.exact

/-- The whole number, if the spelling is not the floating-point one. -/
def index? : Number → Option Int
  | bool b => some (if b then 1 else 0)
  | int i => some i
  | real _ => none

/-- The value without its fraction, rounded toward zero. -/
def truncate (n : Number) : Int := n.exact.truncate

/-- A whole number in decimal. -/
def decimal (i : Int) : String :=
  (if i < 0 then "-" else "") ++ String.ofList (Nat.toDigits 10 i.natAbs)

/-- The number in its own spelling. -/
def text : Number → String
  | bool true => "True"
  | bool false => "False"
  | int i => decimal i
  | real x => x.text

/-- The word for the kind of number. -/
def kind : Number → String
  | bool _ => "bool"
  | int _ => "int"
  | real _ => "float"

end Number

end Dependence
