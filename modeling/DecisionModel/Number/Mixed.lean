import DecisionModel.Term.Operator

/-!
# Numbers handed to solvers

A solver is given integers, scalars and truth values and tells them apart, so `Number` keeps them
apart. Arithmetic on integers stays integral, a truth value counting as one or zero there, and an
integer beside a scalar is converted. `Numeral` gathers what lowering needs of the numbers of a
back-end: folding of arithmetic and comparisons, truth, rounding and text. Plain integers are the
numerals of an integral back-end.
-/

namespace DecisionModel

/-- An integer, a scalar or a truth value. -/
inductive Number (α : Type) where
  | int (n : Int)
  | real (x : α)
  | truth (b : Bool)
deriving Repr, Inhabited, DecidableEq

namespace Number

variable {α : Type} [Scalar α]

/-- The integer that a number is without a conversion. -/
def integer? : Number α → Option Int
  | int n => some n
  | real _ => none
  | truth b => some (if b then 1 else 0)

def toScalar : Number α → α
  | int n => Scalar.ofInt n
  | real x => x
  | truth b => Scalar.ofBool b

/-- The scalar of a number, if it is within the finite range. -/
def toScalar? : Number α → Except Fault α
  | int n => Scalar.ofInt? n
  | real x => .ok x
  | truth b => .ok (Scalar.ofBool b)

def exact : Number α → Exact
  | int n => .finite n
  | real x => Scalar.exact x
  | truth b => .finite (if b then 1 else 0)

/-- The number as solvers are shown it. -/
def text : Number α → String
  | int n => toString n
  | real x => Scalar.text x
  | truth b => if b then "true" else "false"

/-- The literal that is written for a number. -/
def toLiteral : Number α → Literal α
  | int n => .int n
  | real x => .real x
  | truth b => .truth b

/-- The number as error texts quote it. -/
def quoted (x : Number α) : String := x.toLiteral.text

/-- Two integers by `f`, anything else as scalars by `g`. -/
def combine (f : Int → Int → Int) (g : α → α → α) (x y : Number α) : Number α :=
  match x.integer?, y.integer? with
  | some m, some n => int (f m n)
  | _, _ => real (g x.toScalar y.toScalar)

def add : Number α → Number α → Number α := combine (· + ·) Scalar.add

def sub : Number α → Number α → Number α := combine (· - ·) Scalar.sub

def mul : Number α → Number α → Number α := combine (· * ·) Scalar.mul

/-- The quotient as a scalar, of integers too. -/
def div (x y : Number α) : Number α := real (Scalar.div x.toScalar y.toScalar)

/-- An integer by `f`, a scalar by `g`. -/
def transform (f : Int → Int) (g : α → α) (x : Number α) : Number α :=
  match x.integer? with
  | some n => int (f n)
  | none => real (g x.toScalar)

def neg : Number α → Number α := transform (- ·) Scalar.neg

def abs : Number α → Number α := transform (fun n => n.natAbs) Scalar.abs

def isZero (x : Number α) : Bool := x.exact.eq (.finite 0)

/-- An integer rounded to `places` decimal places, which changes it only if they are negative; a
half goes to the even neighbour. -/
def roundInteger (places n : Int) : Int :=
  if places < 0 then
    let unit : Nat := Nat.pow 10 (-places).toNat
    roundHalfEven (mkRat n unit) * unit
  else n

/-- The scalar that a number rounded to `places` decimal places is. An integer is rounded before it
is converted. -/
def roundTo (places : Int) (x : Number α) : Except Fault α :=
  match x.integer? with
  | some n => Scalar.ofInt? (roundInteger places n)
  | none => Scalar.roundTo places x.toScalar

end Number

/-- The number that a literal is, if it is one. -/
def Literal.number? {α : Type} : Literal α → Option (Number α)
  | .int n => some (.int n)
  | .real x => some (.real x)
  | .truth b => some (.truth b)
  | .absent => none

/-- The numbers that a back-end folds while lowering. -/
class Numeral (ν : Type) where
  ofInt : Int → ν
  text : ν → String
  isZero : ν → Bool
  holds : Comparison → ν → ν → Bool
  /-- The nearest integer, a half going to the even one. -/
  round : ν → Except Fault Int
  neg : ν → ν
  add : ν → ν → ν
  sub : ν → ν → ν
  mul : ν → ν → ν

instance : Numeral Int where
  ofInt n := n
  text n := toString n
  isZero n := decide (n = 0)
  holds c m n := c.holdsExactly (.finite m) (.finite n)
  round n := .ok n
  neg n := -n
  add m n := m + n
  sub m n := m - n
  mul m n := m * n

instance {α : Type} [Scalar α] : Numeral (Number α) where
  ofInt := .int
  text := Number.text
  isZero := Number.isZero
  holds c x y := c.holdsExactly x.exact y.exact
  round x := x.exact.round
  neg := Number.neg
  add := Number.add
  sub := Number.sub
  mul := Number.mul

end DecisionModel
