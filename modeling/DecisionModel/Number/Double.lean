import DecisionModel.Number.Decimal

/-!
# Doubles and the numbers they stand for

`Double.exact` decodes a double into the rational `m · 2^q` it denotes; `Double.nearest` is the
other direction, the double nearest to a rational, of two nearest the one with the even mantissa.
Both work on the bits in integer arithmetic.
`Double.text` is the shortest decimal that reads back.
-/

namespace DecisionModel.Double

/-- Sign, biased exponent and stored fraction of a double. -/
structure Fields where
  negative : Bool
  exponent : Nat
  fraction : Nat
deriving DecidableEq, Repr

def fields (x : Float) : Fields :=
  let bits := x.toBits.toNat
  ⟨decide (Nat.pow 2 63 ≤ bits), bits / Nat.pow 2 52 % Nat.pow 2 11, bits % Nat.pow 2 52⟩

/-- `2 ^ e` for an exponent of either sign. -/
def twoPow (e : Int) : Rat :=
  if 0 ≤ e then mkRat (Nat.pow 2 e.toNat) 1 else mkRat 1 (Nat.pow 2 (-e).toNat)

/-- The mantissa and the exponent of two of a finite double's magnitude. -/
def Fields.magnitude (f : Fields) : Nat × Int :=
  if f.exponent = 0 then (f.fraction, -1074)
  else (Nat.pow 2 52 + f.fraction, (f.exponent : Int) - 1075)

/-- The number a double stands for. -/
def exact (x : Float) : Exact :=
  let f := fields x
  if f.exponent = Nat.pow 2 11 - 1 then
    if f.fraction = 0 then (if f.negative then .negInf else .posInf) else .nan
  else
    let (m, e) := f.magnitude
    let size := (m : Rat) * twoPow e
    .finite (if f.negative then -size else size)

def posInf : Float := Float.ofBits 0x7FF0000000000000

def negInf : Float := Float.ofBits 0xFFF0000000000000

def nan : Float := Float.ofBits 0x7FF8000000000000

/-- The bits of the double nearest to the non-negative rational `q`, the sign bit left out. The
exponent is chosen so that the scaled value has 53 binary digits, or the least exponent there is;
a mantissa that rounds up to `2 ^ 53` carries into the exponent field as it should. -/
def nearestBits (q : Rat) : Nat :=
  if q.num = 0 then 0
  else
    let guess := (q.num.natAbs.log2 : Int) - q.den.log2 - 52
    let guess := if q / twoPow guess < Nat.pow 2 52 then guess - 1 else guess
    let e := max guess (-1074)
    let m := (roundHalfEven (q / twoPow e)).toNat
    min ((e + 1074).toNat * Nat.pow 2 52 + m) 0x7FF0000000000000

/-- The double nearest to a rational; beyond the finite range it is an infinity. -/
def nearest (q : Rat) : Float :=
  let bits := nearestBits q.abs
  Float.ofBits (UInt64.ofNat (if q < 0 then Nat.pow 2 63 + bits else bits))

/-- The reals that round to the finite positive double with these fields: half a unit of the last
place to either side, a quarter below a power of two, the ends included if the mantissa is even. -/
def Fields.roundsTo (f : Fields) (q : Rat) : Bool :=
  let (m, e) := f.magnitude
  let unit := twoPow (e - 2)
  let below := if f.fraction = 0 ∧ 1 < f.exponent then 1 else 2
  let low := ((4 * m : Nat) - (below : Rat)) * unit
  let high := ((4 * m : Nat) + (2 : Rat)) * unit
  if m % 2 = 0 then decide (low ≤ q ∧ q ≤ high) else decide (low < q ∧ q < high)

/-- The shortest decimal that reads back as the same double. -/
def text (x : Float) : String :=
  let f := fields x
  let sign := if f.negative then "-" else ""
  match exact x with
  | .nan => "nan"
  | .posInf => "inf"
  | .negInf => "-inf"
  | .finite q =>
    if q = 0 then sign ++ "0.0"
    else sign ++ Decimal.Layout.readable.write (Decimal.shortest f.roundsTo q.abs)

end DecisionModel.Double
