/-!
# Simple fractions

`closestFraction limit x` is the rational nearest to `x` among those whose denominator is at most
`limit`. It is one of two: the last convergent of the continued fraction of `x` within the limit,
or the fraction that adds to the one before it as many copies of the last as the limit allows.
-/

namespace DecisionModel

/-- The two candidates for the fraction closest to a number: `p / q` is the current convergent,
`p' / q'` the one before it, and `n / d` is what remains to be expanded. -/
def fractionCandidates (limit : Nat) (p' q' p q n : Int) : Nat → Rat × Rat
  | 0 => (mkRat p q.toNat, mkRat p' q'.toNat)
  | d + 1 =>
    let quotient := n / ((d + 1 : Nat) : Int)
    let nextDenominator := q' + quotient * q
    if (limit : Int) < nextDenominator then
      let copies := ((limit : Int) - q') / q
      (mkRat p q.toNat, mkRat (p' + copies * p) (q' + copies * q).toNat)
    else
      fractionCandidates limit p q (p' + quotient * p) nextDenominator ((d + 1 : Nat) : Int)
        (n % ((d + 1 : Nat) : Int)).toNat
termination_by d => d
decreasing_by
  have := Int.emod_lt_of_pos n (b := ((d + 1 : Nat) : Int)) (by omega)
  omega

/-- The rational nearest to `x` with a denominator of at most `limit`. -/
def closestFraction (limit : Nat) (x : Rat) : Rat :=
  if x.den ≤ limit then x
  else
    let (convergent, other) := fractionCandidates limit 0 1 1 0 x.num x.den
    if (convergent - x).abs ≤ (other - x).abs then convergent else other

end DecisionModel
