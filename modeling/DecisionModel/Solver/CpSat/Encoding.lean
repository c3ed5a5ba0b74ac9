import DecisionModel.Solver.CpSat.Basic

/-!
# CP-SAT: encoding

Arithmetic, logic and selection over integers. Numbers fold; a product of terms, an extremum, a
conditional or a lookup becomes a new variable and a constraint of the solver; truth is a literal,
and a number counts as true unless it is zero. What is not integral is refused: real variables,
fractional constants, and quotients other than exact ones of constants.
-/

namespace DecisionModel.CpSat

variable {α : Type} [Scalar α]

/-- The name that the back-end goes by. -/
def backendName : String := "ortools"

/-! ### Constants and variables -/

def constant? (x : α) : CpSatM α (Option Expr) := do
  match Scalar.exact x with
  | .finite q => if q.den = 1 then return some (.const q.num) else return none
  | _ => return none

def constant (x : α) : CpSatM α Expr := do
  match ← constant? x with
  | some h => return h
  | none => .fail (.fractionalConstant backendName x)

/-- The integers within a variable's bounds; a side without a bound is cut off. -/
def domainOf (v : Variable α) : Except Fault Bounds := do
  let lower ← if (Scalar.exact v.lower).eq .negInf then pure (-unboundedLimit)
    else max (-unboundedLimit) <$> (Scalar.exact v.lower).ceil
  let upper ← if (Scalar.exact v.upper).eq .posInf then pure unboundedLimit
    else min unboundedLimit <$> (Scalar.exact v.upper).floor
  return ⟨lower, upper⟩

/-- A truth value; bounds that leave one value only fix it. -/
def createBoolean (v : Variable α) : CpSatM α Expr := do
  let h ← LowerM.leaf v.name true
  call (.newBoolean h)
  LowerM.modifySolver fun s => { s with literals := h.id?.toList ++ s.literals }
  let lower ← LowerM.lift (Scalar.exact v.lower).ceil
  let upper ← LowerM.lift (Scalar.exact v.upper).floor
  if lower = upper then require (linear .eq h (.const lower))
  track h ⟨0, 1⟩

def createVariable (v : Variable α) : CpSatM α Expr := do
  match v.kind with
  | .real => .fail (.realVariable backendName v.name)
  | .boolean => createBoolean v
  | .integer =>
    let b ← LowerM.lift (domainOf v)
    if b.upper < b.lower then .fail (.noIntegerValue v.name)
    let h ← LowerM.leaf v.name true
    call (.newInteger b.lower b.upper h)
    track h b

/-- Positions that count from zero and all differ; each member is one more than its position. -/
def createSequence (members : List String) : CpSatM α (List Expr) := do
  let n : Int := members.length
  let positions ← members.mapM fun member => do
    let h ← LowerM.leaf (member ++ ".pos") true
    call (.newInteger 0 (n - 1) h)
    return h
  require (.allDifferent positions)
  positions.mapM fun position => do track (← LowerM.add position (.const 1)) ⟨1, n⟩

/-! ### Arithmetic -/

def negate (h : Expr) : CpSatM α Expr := do
  let b ← boundsOf h
  track (← LowerM.neg h) b.neg

def add (x y : Expr) : CpSatM α Expr := do
  let b := (← boundsOf x).add (← boundsOf y)
  trackConfined (← LowerM.add x y) b

def subtract (x y : Expr) : CpSatM α Expr := do
  let b := (← boundsOf x).sub (← boundsOf y)
  trackConfined (← LowerM.sub x y) b

/-- A product with a number is a term; one of two terms needs a variable. -/
def multiply (x y : Expr) : CpSatM α Expr := do
  let b := (← boundsOf x).mul (← boundsOf y)
  if x.isNumber || y.isNumber then trackConfined (← LowerM.mul x y) b
  else
    let result ← newInteger b "product"
    let x ← asVariable x
    let y ← asVariable y
    require (.product result [x, y])
    return result

/-- Quotients of two numbers only, and exact ones only. -/
def divide (x y : Expr) : CpSatM α Expr := do
  match x.number?, y.number? with
  | _, some 0 => .fail .divisionByZero
  | some a, some b =>
    if a % b = 0 then return .const (a / b) else .fail (.inexactQuotient a b)
  | _, _ => .fail (.nonConstantQuotient backendName)

/-- The product of `n` copies, from one on. -/
def repeatedProduct (base : Expr) : Nat → CpSatM α Expr
  | 0 => return .const 1
  | n + 1 => do multiply (← repeatedProduct base n) base

def power (base exponent : Expr) : CpSatM α Expr := do
  match base.number?, exponent.number? with
  | some b, some (.ofNat n) => return .const (Int.pow b n)
  | none, some (.ofNat n) => repeatedProduct base n
  | _, _ => .fail (.negativeExponent backendName)

def absolute (h : Expr) : CpSatM α Expr := do
  match h.number? with
  | some n => return .const n.natAbs
  | none =>
    let result ← newInteger (← boundsOf h).abs "abs"
    require (.absolute result h)
    return result

def minimum (hs : List Expr) : CpSatM α Expr := do
  match hs, hs.mapM Handle.number? with
  | [], _ => .fail (.fault .leastOfNone)
  | _, some (n :: ns) => return .const (ns.foldl min n)
  | h :: rest, _ =>
    let result ← newInteger (← combinedBounds Bounds.least h rest) "min"
    require (.minimum result hs)
    return result

def maximum (hs : List Expr) : CpSatM α Expr := do
  match hs, hs.mapM Handle.number? with
  | [], _ => .fail (.fault .greatestOfNone)
  | _, some (n :: ns) => return .const (ns.foldl max n)
  | h :: rest, _ =>
    let result ← newInteger (← combinedBounds Bounds.greatest h rest) "max"
    require (.maximum result hs)
    return result

/-! ### Logic -/

/-- A literal that is true exactly where the comparison holds. -/
def reify (c : Comparison) (x y : Expr) : CpSatM α Expr := do
  let literal ← newLiteral "cmp"
  requireIf literal (linear c x y)
  requireIf (← negation literal) (linear c.negate x y)
  return literal

/-- The truth value of a handle: zero or one for a number, else a literal. -/
def truth (h : Expr) : CpSatM α Expr := do
  match h.number?, h.id? with
  | some n, _ => return .const (if n = 0 then 0 else 1)
  | none, none => return h
  | none, some id =>
    if (← LowerM.getSolver).literals.contains id then return h
    else reify .ne h (.const 0)

def complement (h : Expr) : CpSatM α Expr := do
  let literal ← truth h
  match literal.number? with
  | some n => return .const (1 - n)
  | none => trackLiteral (← negation literal)

/-- The literals among the truth values of handles, or nothing if one of them is the number
`absorbing`. -/
def openLiterals (absorbing : Int) : List Expr → CpSatM α (Option (List Expr))
  | [] => return some []
  | h :: hs => do
    let literal ← truth h
    match literal.number? with
    | some n => if n = absorbing then return none else openLiterals absorbing hs
    | none => return (← openLiterals absorbing hs).map (literal :: ·)

def conjoin (hs : List Expr) : CpSatM α Expr := do
  match ← openLiterals 0 hs with
  | none => return .const 0
  | some [] => return .const 1
  | some [literal] => return literal
  | some literals =>
    let result ← newLiteral "and"
    requireIf result (.conjunction literals)
    let negations ← literals.mapM negation
    requireIf (← negation result) (.disjunction negations)
    return result

def disjoin (hs : List Expr) : CpSatM α Expr := do
  match ← openLiterals 1 hs with
  | none => return .const 1
  | some [] => return .const 0
  | some [literal] => return literal
  | some literals =>
    let result ← newLiteral "or"
    requireIf result (.disjunction literals)
    let negations ← literals.mapM negation
    requireIf (← negation result) (.conjunction negations)
    return result

/-- Inserts a number into an ascending list, unless it is there. -/
def insertAscending (n : Int) : List Int → List Int
  | [] => [n]
  | m :: ms =>
    if n < m then n :: m :: ms else if n = m then m :: ms else m :: insertAscending n ms

/-- The numbers of a list in ascending order, each once. -/
def ascending (ns : List Int) : List Int := ns.foldr insertAscending []

/-- Whether a handle equals one of several: an equality for each term and one domain for all
numbers. -/
def membership (value : Expr) (candidates : List (Option Expr)) : CpSatM α Expr := do
  let candidates := candidates.filterMap id
  let numbers := ascending (candidates.filterMap Handle.number?)
  let terms := candidates.filter fun h => !h.isNumber
  if value.number?.any (numbers.contains ·) then return .const 1
  let tests ← terms.mapM (reify .eq value)
  if numbers.isEmpty || value.isNumber then disjoin tests
  else
    let literal ← newLiteral "in"
    requireIf literal (.inDomain value numbers false)
    requireIf (← negation literal) (.inDomain value numbers true)
    disjoin (tests ++ [literal])

/-! ### Selection -/

def conditional (c t e : Expr) : CpSatM α Expr := do
  let literal ← truth c
  match literal.number? with
  | some n => return if n = 0 then e else t
  | none =>
    let result ← newInteger ((← boundsOf t).hull (← boundsOf e)) "ite"
    requireIf literal (linear .eq result t)
    requireIf (← negation literal) (linear .eq result e)
    return result

/-- The least and the greatest position of a lookup. -/
def positionRange (first : Int) (rest : List Int) : Int × Int :=
  (rest.foldl min first, rest.foldl max first)

/-- The value at a position. Positions may have gaps: the index is kept out of them, and they are
filled with the first value. -/
def lookup (index : Expr) (entries : List (Int × Expr)) : CpSatM α Expr := do
  match entries with
  | [] => .fail (.fault .leastOfNone)
  | (position, filler) :: rest =>
    let (first, last) := positionRange position (rest.map (·.1))
    require (.inDomain index (ascending (entries.map (·.1))) false)
    let values ← (Backend.keyRange first last).mapM fun p =>
      asVariable (((entries.reverse.find? (·.1 = p)).map (·.2)).getD filler)
    let offset ← newInteger ⟨0, last - first⟩ "offset"
    let difference ← LowerM.sub index (.const first)
    require (linear .eq offset difference)
    let bounds ← match values with
      | [] => pure Bounds.all
      | v :: vs => combinedBounds Bounds.hull v vs
    let result ← newInteger bounds "element"
    require (.element offset values result)
    return result

/-! ### Posting -/

/-- A handle that has to be true: a literal is required as such, a term has to differ from zero. -/
def postTrue (h : Expr) : CpSatM α Unit := do
  let s ← LowerM.getSolver
  if h.id?.any (s.literals.contains ·) then require (.conjunction [h])
  else require (linear .ne h (.const 0))

def postObjective (sense : Sense) (h : Expr) : CpSatM α Unit := do
  call (.optimize sense h)
  LowerM.modifySolver fun s => { s with hasObjective := true }

/-- The back-end of the integral solver. -/
def backend : Backend α Int Solver where
  name := backendName
  constant := constant
  constant? := constant?
  negate := negate
  add := add
  subtract := subtract
  multiply := multiply
  divide := divide
  power := power
  absolute := absolute
  minimum := minimum
  maximum := maximum
  reify := reify
  complement := complement
  conjoin := conjoin
  disjoin := disjoin
  conditional := conditional
  firstMatch := Backend.nestedConditionals conditional
  membership := membership
  lookup := lookup
  keyedMembership? _ _ _ _ := none
  createVariable := createVariable
  createSequence _ := createSequence
  newInteger lower upper := newInteger ⟨lower, upper⟩
  postEqual x y := require (linear .eq x y)
  postComparison c x y := require (linear c x y)
  postTrue := postTrue
  postDefinition _ x h := require (linear .eq x h)
  postObjective := postObjective

/-- Lowers the model. -/
def lowerModel (c : Context α) : CpSatM α Unit := Backend.lowerModel backend c

end DecisionModel.CpSat
