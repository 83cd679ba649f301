/-!
# Shortest decimals of binary floating-point numbers

A `Binary64` is a 64-bit floating-point number, held as its bit pattern. All arithmetic here is
exact arithmetic on natural numbers.

* `Binary64.exact` — the value: a reduced fraction `m / 2 ^ k`, or none of a number (`Exact`);
* `Binary64.shortest` — the decimal with the fewest digits that rounds back to the number, and of
  those the nearest to it;
* `Binary64.text` — that decimal, laid out.
-/

namespace Dependence

/-- A 64-bit binary floating-point number, by its bit pattern. -/
structure Binary64 where
  bits : UInt64
deriving DecidableEq, Inhabited

/-- The exact value of a number, in one spelling: equal values are equal. -/
inductive Exact where
  /-- The reduced fraction `m / 2 ^ k`. -/
  | fraction (m : Int) (k : Nat)
  | infinite (negative : Bool)
  /-- What is not a number; it is the same as itself only. -/
  | notANumber (bits : UInt64)
deriving DecidableEq

namespace Exact

/-- Whether a value is below another. What is not a number is below nothing and above nothing. -/
def lt : Exact → Exact → Bool
  | fraction m k, fraction n l => m * (Nat.pow 2 l : Nat) < n * (Nat.pow 2 k : Nat)
  | infinite negative, fraction .. => negative
  | fraction .., infinite negative => !negative
  | infinite negative, infinite negative' => negative && !negative'
  | _, _ => false

/-- The value without its fraction, rounded toward zero; zero if it is not finite. -/
def truncate : Exact → Int
  | fraction m k => Int.tdiv m (Nat.pow 2 k : Nat)
  | _ => 0

end Exact

namespace Binary64

/-- Whether the sign bit is set. -/
def negative (x : Binary64) : Bool := x.bits >>> 63 == 1

/-- The eleven exponent bits. -/
def exponentField (x : Binary64) : Nat := ((x.bits >>> 52) &&& 0x7ff).toNat

/-- The fifty-two fraction bits. -/
def fraction (x : Binary64) : Nat := (x.bits &&& 0xfffffffffffff).toNat

/-- The integer significand: a normal number has the hidden bit. -/
def significand (x : Binary64) : Nat :=
  if x.exponentField = 0 then x.fraction else x.fraction + Nat.pow 2 52

/-- The magnitude is `significand * 2 ^ scale` in units of the least positive number. -/
def scale (x : Binary64) : Nat := max x.exponentField 1 - 1

/-- Cancel factors of two: `m / 2 ^ k` with `k` as small as possible. -/
def reduce (m : Int) : Nat → Exact
  | 0 => .fraction m 0
  | k + 1 => if m % 2 = 0 then reduce (m / 2) k else .fraction m (k + 1)

/-- The exact value. The greatest exponent field is that of no finite number: without a fraction it
is that of an infinity. -/
def exact (x : Binary64) : Exact :=
  let m : Int := if x.negative then -x.significand else x.significand
  if x.exponentField = 0x7ff then
    if x.fraction = 0 then .infinite x.negative else .notANumber x.bits
  else if 1074 ≤ x.scale then .fraction (m * (Nat.pow 2 (x.scale - 1074) : Nat)) 0
  else reduce m (1074 - x.scale)

/-! ### The rounding interval

Lengths are counted in units of `2 ^ (-1076)`, a quarter of the least positive number, so that the
midpoints between neighbouring numbers are whole. -/

/-- The magnitude of `x` in units. -/
def magnitude (x : Binary64) : Nat := 4 * x.significand * Nat.pow 2 x.scale

/-- The least real that rounds to the magnitude. Below a power of two the spacing is half. -/
def lower (x : Binary64) : Nat :=
  (4 * x.significand - if x.fraction = 0 ∧ 1 < x.exponentField then 1 else 2) * Nat.pow 2 x.scale

/-- The greatest real that rounds to the magnitude. -/
def upper (x : Binary64) : Nat := (4 * x.significand + 2) * Nat.pow 2 x.scale

/-- The power of ten that a negative exponent stands for, as a factor on the other side. -/
def denominator (e : Int) : Nat := Nat.pow 10 (-e).toNat

/-- The decimal `c * 10 ^ e` in units, times `denominator e`. -/
def decimalUnits (c : Nat) (e : Int) : Nat := c * Nat.pow 10 e.toNat * Nat.pow 2 1076

/-- Whether the decimal `c * 10 ^ e` rounds to the magnitude of `x`: it lies in the rounding
interval, whose ends belong to it when the significand is even. -/
def roundsTo (x : Binary64) (c : Nat) (e : Int) : Bool :=
  let d := decimalUnits c e
  let low := x.lower * denominator e
  let high := x.upper * denominator e
  if x.significand % 2 = 0 then low ≤ d && d ≤ high else low < d && d < high

/-- The decimal logarithm of the magnitude, rounded down and off by one at most: the number of
binary digits times the decimal logarithm of two. -/
def logarithm (x : Binary64) : Int :=
  Int.fdiv (((x.magnitude.log2 : Nat) - 1076 : Int) * 30103) 100000

/-- The least `k` with magnitude below `10 ^ k`. -/
def place (x : Binary64) : Int :=
  let below (k : Int) : Bool := x.magnitude * denominator k < decimalUnits 1 k
  (((List.range 6).map fun (i : Nat) => x.logarithm - 1 + i).find? below).getD 0

/-- The decimal with `n` digits that rounds to the magnitude below `10 ^ place`: of the two
neighbours on the grid of `n` digits the nearer, and of two equally near the even one. The upper
neighbour may be a power of ten, which has a single digit. -/
def withDigits? (x : Binary64) (place : Int) (n : Nat) : Option (Nat × Int) :=
  let e := place - n
  let value := x.magnitude * denominator e
  let c := value / decimalUnits 1 e
  let above := 2 * value > decimalUnits (2 * c + 1) e ∨
    (2 * value = decimalUnits (2 * c + 1) e ∧ c % 2 = 1)
  let order := if above then [c + 1, c] else [c, c + 1]
  (order.find? fun c => x.roundsTo c e).map fun c =>
    if c = Nat.pow 10 n then (1, e + n) else (c, e)

/-- The shortest decimal `c * 10 ^ e` that rounds to the magnitude; seventeen digits always do. -/
def shortest (x : Binary64) : Nat × Int :=
  (((List.range 17).map (· + 1)).findSome? (x.withDigits? x.place)).getD (0, 0)

/-! ### Layout -/

/-- Put a point after the first `k` digits; a whole number keeps one zero after the point. -/
def positional (digits : List Char) (k : Int) : List Char :=
  if k ≤ 0 then '0' :: '.' :: (List.replicate (-k).toNat '0' ++ digits)
  else
    let padded := digits ++ List.replicate (k.toNat - digits.length) '0'
    match padded.drop k.toNat with
    | [] => padded ++ ['.', '0']
    | rest => padded.take k.toNat ++ '.' :: rest

/-- Scientific notation: a signed exponent of at least two digits. -/
def scientific (digits : List Char) (exponent : Int) : List Char :=
  let mantissa := match digits with
    | d :: d' :: rest => d :: '.' :: d' :: rest
    | ds => ds
  let e := Nat.toDigits 10 exponent.natAbs
  mantissa ++ 'e' :: (if exponent < 0 then '-' else '+') :: (List.replicate (2 - e.length) '0' ++ e)

/-- The number as text: the shortest decimal that reads back. Magnitudes from `10 ^ (-4)` up to
`10 ^ 16` are written positionally, others in scientific notation. -/
def text (x : Binary64) : String :=
  let sign := if x.negative then "-" else ""
  if x.exponentField = 0x7ff then
    if x.fraction = 0 then sign ++ "inf" else "nan"
  else if x.significand = 0 then sign ++ "0.0"
  else
    let (c, e) := x.shortest
    let digits := Nat.toDigits 10 c
    let point : Int := digits.length + e
    sign ++ String.ofList
      (if -4 < point ∧ point ≤ 16 then positional digits point else scientific digits (point - 1))

end Binary64

end Dependence
