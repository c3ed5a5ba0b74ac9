import DecisionModel.Number.Exact

/-!
# Decimal notation

Three ways to write a number in decimals, each from its exact value:

* `Decimal.shortest`: the fewest significant digits that still lie in a given interval around the
  value (the interval of the reals that round to it), and of those the nearest;
* `Decimal.fixed`: a given number of places after the point, a half going to the even neighbour;
* `Decimal.general`: a given number of significant digits, trailing zeros dropped.

`Layout` holds where positional notation gives way to an exponent.
-/

namespace DecisionModel

/-- The number `coefficient · 10 ^ exponent`. -/
structure Decimal where
  coefficient : Nat
  exponent : Int
deriving DecidableEq, Repr, Inhabited

namespace Decimal

/-- `10 ^ e` for an exponent of either sign. -/
def tenPow (e : Int) : Rat :=
  if 0 ≤ e then mkRat (Nat.pow 10 e.toNat) 1 else mkRat 1 (Nat.pow 10 (-e).toNat)

def toRat (d : Decimal) : Rat := (d.coefficient : Rat) * tenPow d.exponent

/-- The decimal digits of a natural number. -/
def digits (n : Nat) : List Char := (Nat.repr n).toList

/-- The exponent of the leading digit of a positive rational: `10 ^ e ≤ q < 10 ^ (e + 1)`. The
lengths of numerator and denominator leave two candidates. -/
def leadingExponent (q : Rat) : Int :=
  let guess := ((digits q.num.natAbs).length : Int) - (digits q.den).length
  if tenPow guess ≤ q then guess else guess - 1

/-- Moves the trailing zeros of the coefficient into the exponent, at most `fuel` of them. -/
def dropZeros : Nat → Decimal → Decimal
  | 0, d => d
  | fuel + 1, d =>
    if d.coefficient ≠ 0 ∧ d.coefficient % 10 = 0 then
      dropZeros fuel ⟨d.coefficient / 10, d.exponent + 1⟩
    else d

/-- The same number with no trailing zero in the coefficient. -/
def normalize (d : Decimal) : Decimal := dropZeros (digits d.coefficient).length d

/-- The candidate nearest to `q` among those that lie in the interval. -/
def nearestWithin (inside : Rat → Bool) (q : Rat) (low high : Decimal) : Option Decimal :=
  match inside low.toRat, inside high.toRat with
  | false, false => none
  | true, false => some low
  | false, true => some high
  | true, true =>
    let below := q - low.toRat
    let above := high.toRat - q
    if below < above then some low
    else if above < below then some high
    else if low.coefficient % 2 = 0 then some low else some high

/-- The two neighbours of `q` with the last digit at `10 ^ e`, as far as they lie inside. -/
def onGrid (inside : Rat → Bool) (q : Rat) (e : Int) : Option Decimal :=
  let low := (q / tenPow e).floor.toNat
  nearestWithin inside q ⟨low, e⟩ ⟨low + 1, e⟩

/-- The shortest decimal for a positive rational that `inside` accepts: grids of one, two, …
significant digits are tried until one has a neighbour of `q` inside; seventeen digits are enough
for the interval of a double. -/
def shortest (inside : Rat → Bool) (q : Rat) : Decimal :=
  let lead := leadingExponent q
  let grids := (List.range 17).map fun (n : Nat) => lead - (n : Int)
  normalize ((grids.findSome? (onGrid inside q)).getD
    ⟨(q / tenPow (lead - 17)).floor.toNat, lead - 17⟩)

/-- Digits with `places` of them after the point, without the point if there are none. -/
def pointed (n places : Nat) : String :=
  let ds := digits n
  let ds := List.replicate (places + 1 - ds.length) '0' ++ ds
  let whole := ds.take (ds.length - places)
  let rest := ds.drop (ds.length - places)
  String.ofList (if places = 0 then whole else whole ++ '.' :: rest)

/-- A non-negative rational with a fixed number of places. -/
def fixed (places : Nat) (q : Rat) : String :=
  pointed (roundHalfEven (q * tenPow places)).toNat places

/-- Where positional notation ends: the exponents of the leading digit from which on the number
is written with an exponent, and whether an integral number keeps a `.0`. -/
structure Layout where
  firstPositional : Int := -4
  firstScientific : Int
  keepsPoint : Bool

/-- An exponent with its sign and at least two digits. -/
def exponentText (e : Int) : String :=
  let ds := digits e.natAbs
  let ds := if ds.length < 2 then '0' :: ds else ds
  String.ofList ('e' :: (if e < 0 then '-' else '+') :: ds)

/-- Scientific notation: one digit, the point if more follow, the exponent. -/
def scientific (d : Decimal) : String :=
  let ds := digits d.coefficient
  let lead := d.exponent + ds.length - 1
  let mantissa := match ds with
    | first :: second :: rest => first :: '.' :: second :: rest
    | short => short
  String.ofList mantissa ++ exponentText lead

/-- Positional notation. -/
def positional (keepsPoint : Bool) (d : Decimal) : String :=
  if 0 ≤ d.exponent then
    String.ofList (digits (d.coefficient * Nat.pow 10 d.exponent.toNat)) ++
      (if keepsPoint then ".0" else "")
  else pointed d.coefficient (-d.exponent).toNat

/-- The text of a positive decimal in a layout. -/
def Layout.write (l : Layout) (d : Decimal) : String :=
  let lead := d.exponent + (digits d.coefficient).length - 1
  if l.firstPositional ≤ lead ∧ lead < l.firstScientific then positional l.keepsPoint d
  else scientific d

/-- Text that reads back: the exponent begins at `10 ^ 16`, and a point is always kept. -/
def Layout.readable : Layout := { firstScientific := 16, keepsPoint := true }

/-- Text for people, with six significant digits. -/
def Layout.brief : Layout := { firstScientific := 6, keepsPoint := false }

/-- A positive rational rounded to `places` significant digits. -/
def significant (places : Nat) (q : Rat) : Decimal :=
  let e := leadingExponent q - places + 1
  normalize ⟨(roundHalfEven (q / tenPow e)).toNat, e⟩

/-- A non-negative rational with six significant digits, trailing zeros dropped. -/
def general (q : Rat) : String :=
  if q = 0 then "0" else Layout.brief.write (significant 6 q)

end Decimal

end DecisionModel
