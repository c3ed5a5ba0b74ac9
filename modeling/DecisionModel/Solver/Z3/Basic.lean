import DecisionModel.Number.Fraction
import DecisionModel.Tolerant.Encoding

/-!
# Z3: constraints over exact arithmetic

Z3 is exact, so the tolerance only has to keep the two thresholds apart. Its terms have a sort:
`Handle.isIntegral` says which are integers, and those are converted where a quotient or a root is
taken. Absolute values and gated terms become choices. The constraints, bounds of variables among
them, are collected while lowering and handed to the solver when it is asked to solve.
-/

namespace DecisionModel

/- Whether a term is of the sort of the integers. -/
mutual

/-- A term is real if one of its arguments is, or if it is a conversion to a real number. -/
def Handle.isIntegral {α : Type} : Handle (Number α) → Bool
  | .const (.int _) | .const (.truth _) => true
  | .const (.real _) => false
  | .leaf _ _ integral => integral
  | .node _ .toReal _ => false
  | .node _ (.quotient _) _ => false
  | .node _ _ args => areIntegral args

def Handle.areIntegral {α : Type} : List (Handle (Number α)) → Bool
  | [] => true
  | h :: hs => h.isIntegral && areIntegral hs

end

namespace Z3

open Tolerant

variable {α : Type} [Scalar α]

/-- A call into the solver. -/
inductive Call (α : Type) where
  | newReal (name : String)
  | newInteger (name : String)
  /-- A solver that optimises. -/
  | newOptimizer
  | newSolver
  | add (r : Relation (Number α))
  | setOption (name : String) (value : Setting α)
  | optimize (sense : Sense) (h : Handle (Number α))
  /-- Sets an option of all solvers. -/
  | setGlobal (name : String) (value : Int)
  | check
deriving Repr

def Call.texts : Call α → List String
  | .newReal name => ["Real", name]
  | .newInteger name => ["Int", name]
  | .newOptimizer => ["Optimize"]
  | .newSolver => ["Solver"]
  | .add r => ["add", r.text]
  | .setOption name value => ["set", name, value.write]
  | .optimize sense h => [sense.tag, h.text]
  | .setGlobal name value => ["set_param", name, toString value]
  | .check => ["check"]

/-- The solver as it has been called, and the constraints collected for it. -/
structure Solver (α : Type) where
  calls : Array (Call α) := #[]
  constraints : Array (Relation (Number α)) := #[]
  /-- The sense of the objective, if there is one. -/
  sense : Option Sense := none
deriving Repr

abbrev Z3M (α β : Type) : Type := TolerantM α (Solver α) β

abbrev Z3State (α : Type) : Type := LoweringState (Number α) (Encoding α (Solver α))

def Solver.call (s : Solver α) (c : Call α) : Solver α := { s with calls := s.calls.push c }

def call (c : Call α) : Z3M α Unit := modifyOwn (·.call c)

/-- Nothing lowered yet. -/
def initial : Z3State α := { solver := { epsilon := realZero, solver := {} } }

/-- Collects a constraint. -/
def require (c : Comparison) (lhs rhs : Handle (Number α)) : Z3M α Unit :=
  modifyOwn fun s => { s with constraints := s.constraints.push ⟨c, lhs, rhs⟩ }

/-- A number as an exact term: an integer, or a quotient in lowest terms. -/
def exactTerm (x : Number α) : Z3M α (Handle (Number α)) := do
  let q ← LowerM.lift x.exact.toRat
  if q.den = 1 then return integer q.num else LowerM.node (.quotient q) []

/-- A term as a real one. -/
def realTerm (h : Handle (Number α)) : Z3M α (Handle (Number α)) :=
  if h.isIntegral then LowerM.node .toReal [h] else pure h

/-- Bounds a term on each side that is finite. -/
def requireBounds (h : Handle (Number α)) (lower upper : Number α) : Z3M α Unit := do
  if !lower.exact.eq .negInf then require .ge h (← exactTerm lower)
  if !upper.exact.eq .posInf then require .le h (← exactTerm upper)

def newVariable (kind : Kind) (lower upper : α) (name : String) : Z3M α (Handle (Number α)) := do
  call (if kind = .continuous then .newReal name else .newInteger name)
  let h ← LowerM.leaf name (kind != .continuous)
  requireBounds h (.real lower) (.real upper)
  return h

def addRange (h : Handle (Number α)) (lower upper : Number α) (_ : String) : Z3M α Unit := do
  if Numeral.holds .eq lower upper then require .eq h (← exactTerm lower)
  else requireBounds h lower upper

/-- The term or its negative, whichever is not negative. -/
def absolute (h : Handle (Number α)) : Z3M α (Handle (Number α)) := do
  let negative ← LowerM.neg h
  LowerM.node (.choose .ge) [h, integer 0, h, negative]

/-- The second factor where the first is one, and zero elsewhere. -/
def gate (b h : Handle (Number α)) : Z3M α (Handle (Number α)) :=
  LowerM.node (.choose .eq) [b, integer 1, h, integer 0]

/-- The product of `n + 1` copies of a term. -/
def repeatedProduct (base : Handle (Number α)) : Nat → Z3M α (Handle (Number α))
  | 0 => pure base
  | n + 1 => do LowerM.mul (← repeatedProduct base n) base

/-- Denominators of fractional exponents are at most this large. -/
def denominatorLimit : Nat := Nat.pow 10 6

/-- Integral powers are products, or reciprocals of products; other exponents are approximated by
a simple fraction. -/
def power (base : Handle (Number α)) (exponent : α) : Z3M α (Handle (Number α)) := do
  if Scalar.isInteger exponent then
    let n ← LowerM.lift (Scalar.exact exponent).truncate
    let product ← repeatedProduct base (n.natAbs - 1)
    if n < 0 then LowerM.node .div [integer 1, ← realTerm product] else return product
  else
    let base ← realTerm base
    let q ← LowerM.lift (Scalar.exact exponent).toRat
    let fraction ← LowerM.node (.quotient (closestFraction denominatorLimit q)) []
    LowerM.node .pow [base, fraction]

def quotient (x y : Handle (Number α)) : Z3M α (Handle (Number α)) := do
  LowerM.node .div [x, ← realTerm y]

/-- The tolerance if none is given. -/
def defaultTolerance : Number α := .real (Scalar.nearest (1 / 1000000))

def primitives : Primitives α (Solver α) where
  name := "z3"
  newVariable := newVariable
  addRange := addRange
  absolute := absolute
  power := power
  gate := gate
  quotient := quotient
  total := chainedSum
  tolerance := return defaultTolerance
  setObjective _ sense := modifyOwn fun s => { s with sense := some sense }

/-- Lowers the model into constraints. -/
def lowerModel (c : Context α) : Z3M α Unit := Tolerant.lowerModel primitives c

end Z3

end DecisionModel
