import Mathlib.Data.Rat.Floor

/-!
# Double precision numbers

The numbers of the IEEE 754 format binary64 by their exact values, with arithmetic that rounds the
exact result to the nearest number of the format, ties to even. Comparisons look at the exact
values, so an integer is compared through the number that it would be if the format had it.
-/

namespace Csc512

/-- The integer nearest to a rational, the even one of two. -/
def roundHalfEven (q : ℚ) : ℤ :=
  let rest := q - ⌊q⌋
  if rest < 1 / 2 then ⌊q⌋
  else if 1 / 2 < rest then ⌊q⌋ + 1
  else if ⌊q⌋ % 2 = 0 then ⌊q⌋ else ⌊q⌋ + 1

/-- The power `2 ^ k`. -/
def powTwo (k : ℤ) : ℚ := if 0 ≤ k then ((2 ^ k.toNat : ℕ) : ℚ) else mkRat 1 (2 ^ (-k).toNat)

/-- The exponent of the last place of the doubles next to a rational. -/
def lastPlace (q : ℚ) : ℤ :=
  let k := (Nat.log2 q.num.natAbs : ℤ) - Nat.log2 q.den
  let exponent := if powTwo k ≤ |q| then k else k - 1
  max (exponent - 52) (-1074)

/-- Double precision numbers. -/
inductive Double where
  | nan
  | inf (neg : Bool)
  | negZero
  | rat (q : ℚ)
deriving DecidableEq, Repr

namespace Double

/-- The zero with a given sign. -/
def zero (neg : Bool) : Double := if neg then negZero else rat 0

/-- The double nearest to a rational. -/
def round (q : ℚ) : Double :=
  let place := powTwo (lastPlace q)
  let r := roundHalfEven (q / place) * place
  if r = 0 then zero (q < 0)
  else if powTwo 1024 ≤ |r| then inf (q < 0)
  else rat r

/-- The exact value of a finite number. -/
def value? : Double → Option ℚ
  | negZero => some 0
  | rat q => some q
  | _ => none

/-- Does a number have a minus sign? -/
def isNeg : Double → Bool
  | nan => false
  | inf neg => neg
  | negZero => true
  | rat q => q < 0

/-- Change the sign. -/
def neg : Double → Double
  | nan => nan
  | inf neg => inf !neg
  | negZero => rat 0
  | rat q => if q = 0 then negZero else rat (-q)

/-- Drop the sign. -/
def abs (x : Double) : Double := if x.isNeg then x.neg else x

/-- Addition. -/
def add : Double → Double → Double
  | nan, _ => nan
  | _, nan => nan
  | inf neg, inf neg' => if neg = neg' then inf neg else nan
  | inf neg, _ => inf neg
  | _, inf neg => inf neg
  | negZero, negZero => negZero
  | x, y => round ((x.value?.getD 0) + (y.value?.getD 0))

/-- Subtraction. -/
def sub (x y : Double) : Double := x.add y.neg

/-- The result of a multiplication or division with the exact result `q`. -/
def roundSigned (neg : Bool) (q : ℚ) : Double := if q = 0 then zero neg else round q

/-- Multiplication. -/
def mul (x y : Double) : Double :=
  let neg := x.isNeg != y.isNeg
  match x, y with
  | nan, _ => nan
  | _, nan => nan
  | inf _, inf _ => inf neg
  | inf _, y => if y.value? = some 0 then nan else inf neg
  | x, inf _ => if x.value? = some 0 then nan else inf neg
  | x, y => roundSigned neg ((x.value?.getD 0) * (y.value?.getD 0))

/-- Division by a number other than zero. -/
def div (x y : Double) : Double :=
  let neg := x.isNeg != y.isNeg
  match x, y with
  | nan, _ => nan
  | _, nan => nan
  | inf _, inf _ => nan
  | inf _, _ => inf neg
  | _, inf _ => zero neg
  | x, y => roundSigned neg ((x.value?.getD 0) / (y.value?.getD 0))

/-- The remainder of two numbers without signs, the second one not zero. -/
def mod : Double → Double → Double
  | nan, _ => nan
  | _, nan => nan
  | inf _, _ => nan
  | x, inf _ => x
  | x, y =>
    let p := x.value?.getD 0
    let q := y.value?.getD 0
    rat (p - q * ⌊p / q⌋)

/-- `x < y`. -/
def lt : Double → Double → Bool
  | nan, _ => false
  | _, nan => false
  | inf neg, inf neg' => neg && !neg'
  | inf neg, _ => neg
  | _, inf neg => !neg
  | x, y => x.value?.getD 0 < y.value?.getD 0

/-- `x == y`. -/
def eq : Double → Double → Bool
  | nan, _ => false
  | _, nan => false
  | inf neg, inf neg' => neg = neg'
  | x, y => x.value?.isSome && x.value? = y.value?

/-- Every number but the zeros counts as true. -/
def truthy (x : Double) : Bool := x.value? ≠ some 0

/-- A rational without its fractional part. -/
def truncate (q : ℚ) : ℤ := q.num.tdiv q.den

end Double

/-! ### Tests -/

-- `0.1 + 0.2` and the rounding of large integers
example : ((Double.round (1 / 10)).add (Double.round (2 / 10))).eq (Double.round (3 / 10)) = false ∧
    Double.round (2 ^ 53 + 1) = .rat (2 ^ 53) ∧ Double.round (2 ^ 53 + 3) = .rat (2 ^ 53 + 4) := by
  decide +kernel

end Csc512
