import DecisionModel.Number.Double
import DecisionModel.Number.Scalar

/-!
# Doubles as scalars

Arithmetic on doubles rounds to the nearest double; `Double.power` adds to it the conventions for
powers: `x ^ 0` and `1 ^ y` are one for every `x` and `y`, infinite operands follow their limits,
a negative base with a fractional exponent and a zero base with a negative finite one have no
power, and a finite power beyond the range is a fault.
-/

namespace DecisionModel

namespace Double

/-- An odd integer. -/
def isOdd : Exact → Bool
  | .finite q => decide (q.den = 1 ∧ q.num % 2 ≠ 0)
  | _ => false

/-- Power where at least one operand is infinite or no number. -/
def limitPower (x y : Float) : Float :=
  match exact x, exact y with
  | .nan, e => if e.eq (.finite 0) then 1.0 else x
  | e, .nan => if e.eq (.finite 1) then 1.0 else y
  | .finite q, e =>
    let up := e.eq .posInf
    if q.abs = 1 then 1.0
    else if up && decide (1 < q.abs) then y
    else if !up && decide (q.abs < 1) then y.neg
    else 0.0
  | _, e =>
    if (Exact.finite 0).lt e then (if isOdd e then x else x.abs)
    else if e.eq (.finite 0) then 1.0
    else if isOdd e && (fields x).negative then -0.0
    else 0.0

/-- Power of a zero base and a finite exponent other than zero. A zero stands for itself raised to an
odd exponent. -/
def zeroPower (x y : Float) : Except PowerFault Float :=
  if (exact y).isNegative then .error .domain
  else .ok (if isOdd (exact y) then x else 0.0)

def power (x y : Float) : Except PowerFault Float :=
  if (exact x).isFinite && (exact y).isFinite then
    if (exact y).eq (.finite 0) then .ok 1.0
    else if (exact x).eq (.finite 0) then zeroPower x y
    else
      let r := Float.pow x y
      match exact r with
      | .finite _ => .ok r
      | .nan => .error .domain
      | _ => .error .range
  else .ok (limitPower x y)

end Double

instance : Scalar Float where
  exact := Double.exact
  nearest := Double.nearest
  posInf := Double.posInf
  negInf := Double.negInf
  nan := Double.nan
  isSigned x := (Double.fields x).negative
  neg := Float.neg
  abs := Float.abs
  add := Float.add
  sub := Float.sub
  mul := Float.mul
  div := Float.div
  power := Double.power
  text := Double.text

end DecisionModel
