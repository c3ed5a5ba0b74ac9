import DecisionModel.Lowering.Readout

/-!
# CP-SAT: constraints over bounded integers

CP-SAT works on integer variables with finite domains and on literals, which are variables that
are zero or one and their negations. `Constraint` lists the constraints it takes; a constraint may
be enforced by a literal, and then has to hold only where the literal is true. Lowering for it
tracks the bounds of every handle it makes, so that new variables get tight domains.
-/

namespace DecisionModel.CpSat

/-- Terms over integers. -/
abbrev Expr : Type := Handle Int

/-- What CP-SAT can require. -/
inductive Constraint where
  | linear (r : Relation Int)
  | allDifferent (hs : List Expr)
  | conjunction (literals : List Expr)
  | disjunction (literals : List Expr)
  | product (result : Expr) (factors : List Expr)
  | absolute (result h : Expr)
  | minimum (result : Expr) (hs : List Expr)
  | maximum (result : Expr) (hs : List Expr)
  /-- The value at a position that counts from zero. -/
  | element (position : Expr) (values : List Expr) (result : Expr)
  /-- Membership in a list of values, or in its complement. -/
  | inDomain (h : Expr) (values : List Int) (complemented : Bool)
deriving Repr

/-- A call into the solver while lowering. -/
inductive Call where
  | newInteger (lower upper : Int) (h : Expr)
  | newBoolean (h : Expr)
  | require (c : Constraint) (enforcedBy : Option Expr)
  | optimize (sense : Sense) (h : Expr)
  | parameter (name : String) (value : String)
  | solve
deriving Repr

/-- Texts of a list of terms in brackets. -/
def listText (hs : List Expr) : String := bracketed (hs.map Handle.text)

/-- The text of a domain: its values in braces, after a tilde if the complement is meant. -/
def domainText (values : List Int) (complemented : Bool) : String :=
  (if complemented then "~" else "") ++ "\x7b" ++ " ".intercalate (values.map toString) ++ "\x7d"

def Constraint.texts : Constraint → List String
  | linear r => ["Add", r.text]
  | allDifferent hs => ["AddAllDifferent", listText hs]
  | conjunction hs => ["AddBoolAnd", listText hs]
  | disjunction hs => ["AddBoolOr", listText hs]
  | product result hs => ["AddMultiplicationEquality", result.text, listText hs]
  | absolute result h => ["AddAbsEquality", result.text, h.text]
  | minimum result hs => ["AddMinEquality", result.text, listText hs]
  | maximum result hs => ["AddMaxEquality", result.text, listText hs]
  | element position values result =>
    ["AddElement", position.text, listText values, result.text]
  | inDomain h values complemented =>
    ["AddLinearExpressionInDomain", h.text, domainText values complemented]

/-- The name of the call that sets the objective. -/
def senseName : Sense → String
  | .minimize => "Minimize"
  | _ => "Maximize"

def Call.texts : Call → List String
  | newInteger lower upper h => ["NewIntVar", toString lower, toString upper, h.text]
  | newBoolean h => ["NewBoolVar", h.text]
  | require c none => c.texts
  | require c (some literal) => c.texts ++ ["if " ++ literal.text]
  | optimize sense h => [senseName sense, h.text]
  | parameter name value => ["parameter", name, value]
  | solve => ["Solve"]

/-- A closed interval of integers. -/
structure Bounds where
  lower : Int
  upper : Int
deriving DecidableEq, Repr

/-- The widest domain of a new variable reaches this far to both sides. -/
def widest : Int := Nat.pow 10 18

/-- The domain of a variable without bounds reaches this far to both sides. -/
def unboundedLimit : Int := Nat.pow 10 9

namespace Bounds

/-- Every number that a new variable can take. -/
def all : Bounds := ⟨-widest, widest⟩

def clamp (b : Bounds) : Bounds := ⟨max (-widest) b.lower, min widest b.upper⟩

def neg (b : Bounds) : Bounds := ⟨-b.upper, -b.lower⟩

def add (a b : Bounds) : Bounds := ⟨a.lower + b.lower, a.upper + b.upper⟩

def sub (a b : Bounds) : Bounds := ⟨a.lower - b.upper, a.upper - b.lower⟩

/-- The interval from the least to the greatest product of end points. -/
def mul (a b : Bounds) : Bounds :=
  let p := a.lower * b.lower
  let q := a.lower * b.upper
  let r := a.upper * b.lower
  let s := a.upper * b.upper
  ⟨min (min p q) (min r s), max (max p q) (max r s)⟩

/-- The interval of absolute values. -/
def abs (b : Bounds) : Bounds :=
  let low : Int := b.lower.natAbs
  let high : Int := b.upper.natAbs
  ⟨if b.lower ≤ 0 ∧ 0 ≤ b.upper then 0 else min low high, max low high⟩

/-- The least interval around two. -/
def hull (a b : Bounds) : Bounds := ⟨min a.lower b.lower, max a.upper b.upper⟩

/-- The interval of the lesser of two numbers. -/
def least (a b : Bounds) : Bounds := ⟨min a.lower b.lower, min a.upper b.upper⟩

/-- The interval of the greater of two numbers. -/
def greatest (a b : Bounds) : Bounds := ⟨max a.lower b.lower, max a.upper b.upper⟩

end Bounds

/-- The solver as it has been called, and what is known of the handles made for it. -/
structure Solver where
  calls : Array Call := #[]
  bounds : List (HandleId × Bounds) := []
  literals : List HandleId := []
  /-- The negations made so far, by the variable negated. -/
  negations : List (HandleId × Expr) := []
  /-- Whether an interval reached beyond the widest one and was cut off there. -/
  cut : Bool := false
  hasObjective : Bool := false
deriving Repr

abbrev CpSatM (α β : Type) : Type := LowerM α Int Solver β

abbrev CpSatState : Type := LoweringState Int Solver

variable {α : Type}

/-- Nothing lowered yet. -/
def initial : CpSatState := { solver := {} }

def call (c : Call) : CpSatM α Unit :=
  LowerM.modifySolver fun s => { s with calls := s.calls.push c }

def require (c : Constraint) : CpSatM α Unit := call (.require c none)

/-- Requires a constraint where a literal is true. -/
def requireIf (literal : Expr) (c : Constraint) : CpSatM α Unit := call (.require c (some literal))

/-- A comparison as a constraint. -/
def linear (c : Comparison) (x y : Expr) : Constraint := .linear (.of c x y)

/-- Notes the bounds of a term; numbers bound themselves. -/
def track (h : Expr) (b : Bounds) : CpSatM α Expr := do
  if let some id := h.id? then
    LowerM.modifySolver fun s => { s with bounds := (id, b) :: s.bounds }
  return h

/-- The part of an interval that is within the widest one; it is noted if something is cut off. -/
def confine (b : Bounds) : CpSatM α Bounds := do
  if b.clamp ≠ b then LowerM.modifySolver fun s => { s with cut := true }
  return b.clamp

/-- Notes the bounds of a term as far as they are within the widest ones. -/
def trackConfined (h : Expr) (b : Bounds) : CpSatM α Expr := do
  if h.isNumber then return h
  track h (← confine b)

/-- What is known of the bounds of a handle. -/
def Solver.boundsOf (s : Solver) : Expr → Bounds
  | .const n => ⟨n, n⟩
  | .leaf id _ _ | .node id _ _ => ((s.bounds.find? (·.1 = id)).map (·.2)).getD Bounds.all

def boundsOf (h : Expr) : CpSatM α Bounds := return (← LowerM.getSolver).boundsOf h

/-- The interval around the bounds of several handles, combined by `f`. -/
def combinedBounds (f : Bounds → Bounds → Bounds) (h : Expr) (hs : List Expr) :
    CpSatM α Bounds := do
  let s ← LowerM.getSolver
  return (hs.map s.boundsOf).foldl f (s.boundsOf h)

/-- A new variable with a domain no wider than the widest one. -/
def newInteger (b : Bounds) (hint : String) : CpSatM α Expr := do
  let b ← confine b
  let h ← LowerM.leaf (← LowerM.auxiliaryName hint) true
  call (.newInteger b.lower b.upper h)
  track h b

/-- Notes that a term is a literal, so zero or one. -/
def trackLiteral (h : Expr) : CpSatM α Expr := do
  LowerM.modifySolver fun s => { s with literals := h.id?.toList ++ s.literals }
  track h ⟨0, 1⟩

def newLiteral (hint : String) : CpSatM α Expr := do
  let h ← LowerM.leaf (← LowerM.auxiliaryName hint) true
  call (.newBoolean h)
  trackLiteral h

/-- The negation of a literal: made once for each variable, and its own inverse. -/
def negation (literal : Expr) : CpSatM α Expr := do
  match literal, literal.id? with
  | .node _ .not [h], _ => return h
  | _, none => return literal
  | _, some id =>
    match ((← LowerM.getSolver).negations.find? (·.1 = id)).map (·.2) with
    | some h => return h
    | none =>
      let h ← LowerM.node .not [literal]
      LowerM.modifySolver fun s => { s with negations := (id, h) :: s.negations }
      return h

/-- A number, or a variable that equals the term. -/
def asVariable (h : Expr) : CpSatM α Expr := do
  if h.isNumber || h.isLeaf then return h
  let v ← newInteger (← boundsOf h) "expr"
  require (linear .eq v h)
  return v

end DecisionModel.CpSat
