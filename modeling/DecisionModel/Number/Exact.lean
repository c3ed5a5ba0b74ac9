import DecisionModel.Fault

/-!
# Extended rationals

`Exact` is the number a scalar stands for: a rational, one of the two infinities, or no number.
Order, rounding to integers and the test for integrality are defined here, once for every scalar
type, on exact values; the order is the one of numbers, so nothing compares with `nan`.
-/

namespace DecisionModel

/-- A rational, an infinity, or no number. -/
inductive Exact where
  | nan
  | negInf
  | posInf
  | finite (q : Rat)
deriving DecidableEq, Repr, Inhabited

/-- The integer nearest to `q`; of two nearest integers the even one. -/
def roundHalfEven (q : Rat) : Int :=
  let low := q.floor
  let rest := q - low
  if rest < 1 / 2 then low
  else if 1 / 2 < rest then low + 1
  else if low % 2 = 0 then low else low + 1

namespace Exact

/-- Strictly less; false if either side is no number. -/
def lt : Exact → Exact → Bool
  | nan, _ | _, nan => false
  | _, negInf => false
  | negInf, _ => true
  | posInf, _ => false
  | finite _, posInf => true
  | finite p, finite q => decide (p < q)

/-- Equal as numbers; false if either side is no number. -/
def eq : Exact → Exact → Bool
  | negInf, negInf => true
  | posInf, posInf => true
  | finite p, finite q => decide (p = q)
  | _, _ => false

/-- Less or equal; false if either side is no number. -/
def le (x y : Exact) : Bool := x.lt y || x.eq y

def isFinite : Exact → Bool
  | finite _ => true
  | _ => false

/-- A finite value without a fractional part. -/
def isInteger : Exact → Bool
  | finite q => decide (q.den = 1)
  | _ => false

/-- Turns a finite value into an integer by `f`; the other values have none. -/
def toIntBy (f : Rat → Int) : Exact → Except Fault Int
  | finite q => .ok (f q)
  | nan => .error .nanToInteger
  | _ => .error .infinityToInteger

/-- The nearest integer, a half going to the even one. -/
def round : Exact → Except Fault Int := toIntBy roundHalfEven

def floor : Exact → Except Fault Int := toIntBy Rat.floor

def ceil : Exact → Except Fault Int := toIntBy Rat.ceil

/-- The integer part: the fraction is dropped toward zero. -/
def truncate : Exact → Except Fault Int := toIntBy fun q => q.num.tdiv q.den

/-- The finite value as a quotient of integers. -/
def toRat : Exact → Except Fault Rat
  | finite q => .ok q
  | nan => .error .nanToRatio
  | _ => .error .infinityToRatio

def neg : Exact → Exact
  | nan => nan
  | negInf => posInf
  | posInf => negInf
  | finite q => finite (-q)

def abs : Exact → Exact
  | nan => nan
  | finite q => finite q.abs
  | _ => posInf

def add : Exact → Exact → Exact
  | nan, _ | _, nan => nan
  | finite p, finite q => finite (p + q)
  | posInf, negInf | negInf, posInf => nan
  | posInf, _ | _, posInf => posInf
  | negInf, _ | _, negInf => negInf

def sub (x y : Exact) : Exact := x.add y.neg

/-- Below zero: a negative rational or the lower infinity. -/
def isNegative (x : Exact) : Bool := x.lt (finite 0)

/-- The infinity with the sign of a product whose factors have the given signs. -/
def infinityOf (negative : Bool) : Exact := if negative then negInf else posInf

def mul : Exact → Exact → Exact
  | nan, _ | _, nan => nan
  | finite p, finite q => finite (p * q)
  | x, y =>
    if x.eq (finite 0) || y.eq (finite 0) then nan
    else infinityOf (x.isNegative != y.isNegative)

/-- Quotient; a zero divisor gives the infinity of the dividend's sign, and `0 / 0` no number. -/
def div : Exact → Exact → Exact
  | nan, _ | _, nan => nan
  | finite p, finite q =>
    if q = 0 then (if p = 0 then nan else infinityOf (decide (p < 0))) else finite (p / q)
  | finite _, _ => finite 0
  | x, finite q => infinityOf (x.isNegative != decide (q < 0))
  | _, _ => nan

end Exact

end DecisionModel
