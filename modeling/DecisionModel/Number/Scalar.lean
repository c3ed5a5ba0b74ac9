import DecisionModel.Number.Decimal

/-!
# Scalars

A model's constants, bounds and values are scalars. `Scalar` says what a scalar type has to
offer: the exact number behind each scalar, the scalar nearest to a rational, and the arithmetic
of the type, which may round. Everything else (order, rounding, closeness, texts) is derived from
the exact value, so two scalar types differ only in how their arithmetic rounds. `Exact` itself
is the scalar type whose arithmetic never rounds.
-/

namespace DecisionModel

/-- Why a power has no value: none exists, or it leaves the finite range. -/
inductive PowerFault where
  | domain
  | range
deriving DecidableEq, Repr

def PowerFault.message : PowerFault → String
  | domain => "math domain error"
  | range => "math range error"

/-- A type of numbers to compute with. -/
class Scalar (α : Type) where
  /-- The number meant. -/
  exact : α → Exact
  /-- The scalar nearest to a rational. -/
  nearest : Rat → α
  posInf : α
  negInf : α
  nan : α
  /-- Whether the scalar is written with a minus sign; this tells a negative zero. -/
  isSigned : α → Bool
  neg : α → α
  abs : α → α
  add : α → α → α
  sub : α → α → α
  mul : α → α → α
  div : α → α → α
  power : α → α → Except PowerFault α
  /-- Text that reads back as the same scalar. -/
  text : α → String

/-- Power of exact numbers, for integral exponents only. -/
def Exact.power : Exact → Exact → Except PowerFault Exact
  | .finite p, .finite q =>
    if q.den = 1 then
      if p = 0 ∧ q < 0 then .error .domain else .ok (.finite (p.zpow q.num))
    else .error .domain
  | _, _ => .error .domain

/-- The text of an exact number as a quotient. -/
def Exact.text : Exact → String
  | .nan => "nan"
  | .posInf => "inf"
  | .negInf => "-inf"
  | .finite q => if q.den = 1 then toString q.num ++ ".0" else toString q.num ++ "/" ++ toString q.den

instance : Scalar Exact where
  exact := id
  nearest := .finite
  posInf := .posInf
  negInf := .negInf
  nan := .nan
  isSigned := Exact.isNegative
  neg := Exact.neg
  abs := Exact.abs
  add := Exact.add
  sub := Exact.sub
  mul := Exact.mul
  div := Exact.div
  power := Exact.power
  text := Exact.text

namespace Scalar

variable {α : Type} [Scalar α]

def lt (x y : α) : Bool := (exact x).lt (exact y)

def le (x y : α) : Bool := (exact x).le (exact y)

def eq (x y : α) : Bool := (exact x).eq (exact y)

def ofInt (n : Int) : α := nearest n

def zero : α := nearest 0

def one : α := nearest 1

def isZero (x : α) : Bool := (exact x).eq (.finite 0)

def isFinite (x : α) : Bool := (exact x).isFinite

def isInteger (x : α) : Bool := (exact x).isInteger

/-- One for a condition that holds and zero for one that does not. -/
def ofBool (b : Bool) : α := if b then one else zero

/-- The scalar of an integer, if it is within the finite range. -/
def ofInt? (n : Int) : Except Fault α :=
  let x : α := ofInt n
  if isFinite x then .ok x else .error .integerTooLarge

/-- The first element that no later one undercuts; `x` heads the list. -/
def least (x : α) (xs : List α) : α := xs.foldl (fun m y => if lt y m then y else m) x

/-- The first element that no later one exceeds; `x` heads the list. -/
def greatest (x : α) (xs : List α) : α := xs.foldl (fun m y => if lt m y then y else m) x

/-- Membership by equality of numbers. -/
def isMember (x : α) (xs : List α) : Bool := xs.any (eq x)

/-- Product from left to right. -/
def product (xs : List α) : α := xs.foldl mul one

/-- Absolute tolerance for comparing stored and recomputed values. -/
def tolerance : α := nearest (1 / 1000000)

/-- Relative tolerance for comparing stored and recomputed values. -/
def relativeTolerance : α := nearest (1 / 1000000000)

/-- Equal, or at a distance within the relative tolerance of either side or within the absolute
one; an infinity is close only to itself. -/
def isClose (x y : α) : Bool :=
  if eq x y then true
  else if !isFinite x || !isFinite y then false
  else
    let gap := abs (sub y x)
    le gap (abs (mul relativeTolerance y)) || le gap (abs (mul relativeTolerance x)) ||
      le gap tolerance

/-- Texts of the numbers that are not finite; a finite one is written by `f`, after its sign. -/
def writeBy (f : Rat → String) (x : α) : String :=
  match exact x with
  | .nan => "nan"
  | .posInf => "inf"
  | .negInf => "-inf"
  | .finite q => (if isSigned x then "-" else "") ++ f q.abs

/-- Text with a fixed number of places after the point. -/
def fixedText (places : Nat) (x : α) : String := writeBy (Decimal.fixed places) x

/-- Text with six significant digits. -/
def briefText (x : α) : String := writeBy Decimal.general x

/-- The scalar rounded to `places` decimal places, a half going to the even neighbour; negative
places round to tens, hundreds and so on, and a zero comes out unsigned. Beyond the places a
double can show nothing changes, and below its range everything rounds to zero. -/
def roundTo (places : Int) (x : α) : Except Fault α :=
  match exact x with
  | .finite q =>
    if 323 < places then .ok (if q = 0 then zero else x)
    else if places < -308 then .ok zero
    else
      let y : α := nearest ((roundHalfEven (q * Decimal.tenPow places) : Rat) *
        Decimal.tenPow (-places))
      if isFinite y then .ok y else .error .roundingTooLarge
  | _ => .ok x

/-- The quotient of two integers, rounded once. -/
def ofQuotient (p : Int) (q : Nat) : Except Fault α :=
  let x : α := nearest (mkRat p q)
  if isFinite x then .ok x else .error .quotientTooLarge

end Scalar

/-- A number, or what stands in its place, as it was written: an integer, a scalar, a truth value
or nothing. Error texts quote it in this form. -/
inductive Literal (α : Type) where
  | int (n : Int)
  | real (x : α)
  | truth (b : Bool)
  | absent
deriving Repr, Inhabited

namespace Literal

variable {α : Type} [Scalar α]

/-- The literal as error texts quote it. -/
def text : Literal α → String
  | int n => toString n
  | real x => Scalar.text x
  | truth b => if b then "True" else "False"
  | absent => "None"

/-- The scalar meant; an absent literal means none. -/
def toScalar? : Literal α → Except Fault (Option α)
  | int n => some <$> Scalar.ofInt? n
  | real x => .ok (some x)
  | truth b => .ok (some (Scalar.ofBool b))
  | absent => .ok none

/-- The scalar meant, where there has to be one. -/
def toScalar (l : Literal α) : Except Fault α := do
  match ← l.toScalar? with
  | some x => return x
  | none => throw .absentNumber

end Literal

end DecisionModel
