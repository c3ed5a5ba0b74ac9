import DecisionModel.Lowering.Readout

/-!
# Tolerant lowering: variables and ranges

Algebraic solvers offer bounded variables, ranges `lower ≤ e ≤ upper`, and arithmetic with
products, powers and absolute values, and they accept a constraint as satisfied within a small
tolerance. Lowering for them encodes truth with binary variables and two thresholds, `ε` and
`1.1 · ε`, so that the numbers that count as true and those that count as false stay apart.

`Primitives` is what such a solver offers. The state records every variable created and every
range posted, and which handles are known to be zero or one.
-/

namespace DecisionModel.Tolerant

variable {α σ : Type} [Scalar α]

/-- What values a solver variable can take within its bounds. -/
inductive Kind where
  | continuous
  | integer
  | binary
deriving DecidableEq, Repr, Inhabited

def Kind.ofVariable : VariableKind → Kind
  | .boolean => binary
  | .integer => integer
  | .real => continuous

/-- A solver variable as it was created. -/
structure Created (α : Type) where
  handle : Handle (Number α)
  kind : Kind
  lower : α
  upper : α
  name : String
deriving Repr

/-- The constraint `lower ≤ expression ≤ upper`. -/
structure Range (α : Type) where
  expression : Handle (Number α)
  lower : Number α
  upper : Number α
  name : String
deriving Repr

/-- What the lowering remembers; `σ` is the solver's own part. -/
structure Encoding (α σ : Type) where
  epsilon : Number α
  created : Array (Created α) := #[]
  posted : Array (Range α) := #[]
  /-- The variable that stands for the objective. -/
  objective : Option (Handle (Number α)) := none
  /-- Handles known to be zero or one. -/
  binaries : List HandleId := []
  /-- The truth values of handles that are not. -/
  booleans : List (HandleId × Handle (Number α)) := []
  solver : σ

abbrev TolerantM (α σ β : Type) : Type := LowerM α (Number α) (Encoding α σ) β

/-- What an algebraic solver offers. -/
structure Primitives (α σ : Type) where
  name : String
  newVariable : Kind → α → α → String → TolerantM α σ (Handle (Number α))
  addRange : Handle (Number α) → Number α → Number α → String → TolerantM α σ Unit
  absolute : Handle (Number α) → TolerantM α σ (Handle (Number α))
  /-- A term raised to a constant exponent other than zero and one. -/
  power : Handle (Number α) → α → TolerantM α σ (Handle (Number α))
  /-- The product of a term that is zero or one and another term. -/
  gate : Handle (Number α) → Handle (Number α) → TolerantM α σ (Handle (Number α))
  /-- A quotient whose divisor is a term. -/
  quotient : Handle (Number α) → Handle (Number α) → TolerantM α σ (Handle (Number α))
  total : List (Handle (Number α)) → TolerantM α σ (Handle (Number α))
  tolerance : TolerantM α σ (Number α)
  setObjective : Handle (Number α) → Sense → TolerantM α σ Unit

def modifyEncoding (f : Encoding α σ → Encoding α σ) : TolerantM α σ Unit :=
  LowerM.modifySolver f

def getEncoding : TolerantM α σ (Encoding α σ) := LowerM.getSolver

/-- Changes the solver's own part of the state. -/
def modifyOwn (f : σ → σ) : TolerantM α σ Unit :=
  modifyEncoding fun e => { e with solver := f e.solver }

/-- A scalar as a handle. -/
def scalar (x : α) : Handle (Number α) := .const (.real x)

/-- An integer as a handle. -/
def integer (n : Int) : Handle (Number α) := .const (.int n)

def zero : Handle (Number α) := scalar Scalar.zero

def one : Handle (Number α) := scalar Scalar.one

def noLower : Number α := .real Scalar.negInf

def noUpper : Number α := .real Scalar.posInf

def realZero : Number α := .real Scalar.zero

def realOne : Number α := .real Scalar.one

/-- The first threshold, `ε`. -/
def epsilon : TolerantM α σ (Number α) := return (← getEncoding).epsilon

/-- The second threshold, `1.1 · ε`. -/
def threshold : TolerantM α σ (Number α) :=
  return .real (Scalar.mul (Scalar.nearest (11 / 10)) (← epsilon).toScalar)

/-- The second threshold below zero. -/
def negatedThreshold : TolerantM α σ (Number α) :=
  return .real (Scalar.mul (Scalar.nearest (-11 / 10)) (← epsilon).toScalar)

/-- Creates a solver variable. -/
def createVariable (P : Primitives α σ) (kind : Kind) (lower upper : α) (name : String) :
    TolerantM α σ (Handle (Number α)) := do
  let handle ← P.newVariable kind lower upper name
  modifyEncoding fun e =>
    { e with
      created := e.created.push { handle, kind, lower, upper, name }
      binaries := if kind = .binary then handle.id?.toList ++ e.binaries else e.binaries }
  return handle

/-- A new variable that is zero or one. -/
def newBinary (P : Primitives α σ) (hint : String) : TolerantM α σ (Handle (Number α)) := do
  createVariable P .binary Scalar.zero Scalar.one (← LowerM.auxiliaryName hint)

/-- A new integer variable between two bounds. -/
def newInteger (P : Primitives α σ) (lower upper : Int) (hint : String) :
    TolerantM α σ (Handle (Number α)) := do
  let lower ← LowerM.lift (Scalar.ofInt? lower)
  let upper ← LowerM.lift (Scalar.ofInt? upper)
  createVariable P .integer lower upper (← LowerM.auxiliaryName hint)

/-- Notes that a handle is always zero or one. -/
def markBinary (h : Handle (Number α)) : TolerantM α σ (Handle (Number α)) := do
  modifyEncoding fun e => { e with binaries := h.id?.toList ++ e.binaries }
  return h

/-- Whether a number lies in a range widened by the tolerance. -/
def isWithin (epsilon x lower upper : Number α) : Bool :=
  Numeral.holds .le (lower.sub epsilon) x && Numeral.holds .le x (upper.add epsilon)

/-- Requires `lower ≤ h ≤ upper`. A number is checked at once. -/
def constrain (P : Primitives α σ) (h : Handle (Number α)) (lower upper : Number α) :
    TolerantM α σ Unit := do
  match h.number? with
  | some x =>
    if !isWithin (← epsilon) x lower upper then
      LowerM.recordViolated
        (x.quoted ++ " not in [" ++ lower.quoted ++ ", " ++ upper.quoted ++ "]")
  | none =>
    let name ← LowerM.auxiliaryName "c"
    modifyEncoding fun e => { e with posted := e.posted.push ⟨h, lower, upper, name⟩ }
    P.addRange h lower upper name

/-- `b · h` for a `b` that is zero or one, with numbers folded. -/
def gated (P : Primitives α σ) (b h : Handle (Number α)) : TolerantM α σ (Handle (Number α)) :=
  match b.number?, h.number? with
  | some x, _ => return if x.isZero then zero else h
  | none, some y => if y.isZero then return zero else LowerM.mul b h
  | none, none => P.gate b h

/-- A sum by repeated addition; zero if there is nothing to add. -/
def chainedSum : List (Handle (Number α)) → TolerantM α σ (Handle (Number α))
  | [] => return zero
  | h :: hs => hs.foldlM LowerM.add h

end DecisionModel.Tolerant
