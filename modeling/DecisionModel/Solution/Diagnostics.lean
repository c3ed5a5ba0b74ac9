import DecisionModel.Solution.Basic

/-!
# Checking a solution against its model

A solution is checked without a solver: constraints that do not hold or have no value, stored
values of defined variables that differ from their definitions, and the reported objective.
-/

namespace DecisionModel

/-- Something wrong with a solution. -/
inductive Diagnostic (α : Type) where
  /-- The constraint has no value on this assignment. -/
  | undefined (constraint : String) (e : EvaluationError α)
  | missingValue (constraint : String)
  | infeasible (constraint : String)
  /-- A defined variable is stored with a value that its definition does not give. -/
  | inconsistent (name definition : String) (stored expected : α)
deriving Repr

def Diagnostic.message {α : Type} [Scalar α] : Diagnostic α → String
  | undefined constraint e => "undefined: " ++ constraint ++ " (" ++ e.message ++ ")"
  | missingValue constraint => "missing value: " ++ constraint
  | infeasible constraint => "infeasible: " ++ constraint
  | inconsistent name definition stored expected =>
    "inconsistent: " ++ name ++ " = " ++ Scalar.fixedText 6 stored ++ " but " ++ definition ++
      " = " ++ Scalar.fixedText 6 expected

namespace Solution

variable {α : Type} [Scalar α]

/-- What is wrong with a constraint, if anything. -/
def checkConstraint (s : Solution α) (w : Workspace α) (t : Term α) :
    Except Fault (Option (Diagnostic α)) := do
  let text ← w.termText t
  match s.evaluate w t with
  | .error (.fault f) => throw f
  | .error e => return some (.undefined text e)
  | .ok none => return some (.missingValue text)
  | .ok (some x) => return if Scalar.isZero x then some (.infeasible text) else none

/-- What is wrong with the stored value of a variable, if anything. A definition without a value
is not held against it. -/
def checkVariable (s : Solution α) (w : Workspace α) (v : VarId) :
    Except Fault (Option (Diagnostic α)) :=
  match w.definition? v, s.stored? v with
  | some t, some stored => do
    match ← (s.evaluate w t).ignoringUndefined with
    | none => return none
    | some expected =>
      if Scalar.isClose stored expected then return none
      let text ← w.termText t
      return some (.inconsistent (w.variableName v) text stored expected)
  | _, _ => return none

/-- Everything that is wrong: constraints in their order, then stored values of variables. -/
def diagnostics (s : Solution α) (w : Workspace α) : Except Fault (List (Diagnostic α)) := do
  let constraints := ((w.findModel s.model).map (·.constraints)).getD []
  let first ← constraints.mapM (s.checkConstraint w)
  let second ← (w.allVariables s.model).mapM (s.checkVariable w)
  return (first ++ second).filterMap id

/-- The texts of `diagnostics`. -/
def errors (s : Solution α) (w : Workspace α) : Except Fault (List String) := do
  let found ← s.diagnostics w
  return found.map Diagnostic.message

/-- The value of the model's objective on this assignment. -/
def evaluatedObjective (s : Solution α) (w : Workspace α) : Except Fault (Option α) :=
  match w.findModel s.model with
  | none => .ok none
  | some model => (s.evaluate w model.objective).ignoringUndefined

/-- The reported objective value, or else the evaluated one; none for a model without a sense. -/
def objectiveValue (s : Solution α) (w : Workspace α) : Except Fault (Option α) :=
  if ((w.findModel s.model).map (·.sense)).getD .feasible = .feasible then .ok none
  else
    match s.reported with
    | some x => .ok (some x)
    | none => s.evaluatedObjective w

/-- What the report says about the objective, given the value expected. -/
def objectiveLine (s : Solution α) (expected : Option α) : String :=
  match expected, s.reported with
  | none, _ => "objective: n/a"
  | some x, none => "missing objective, expected: " ++ Scalar.fixedText 6 x
  | some x, some reported =>
    (if Scalar.isClose reported x then "objective: " else "wrong objective, expected: ") ++
      Scalar.fixedText 6 x

/-- The violated constraints and a line on the objective, which is compared with the one expected
or else with the one evaluated. -/
def validate (s : Solution α) (w : Workspace α) (expected : Literal α) : Except Fault String := do
  let lines ← s.errors w
  let violated := lines.filter ("infeasible: ".isPrefixOf ·)
  let objective ← match ← expected.toScalar? with
    | some x => pure (some x)
    | none => s.evaluatedObjective w
  return "\n".intercalate (violated ++ [s.objectiveLine objective])

/-- A value with six places, or a mark that there is none. -/
def valueText (x : Option α) : String := (x.map (Scalar.fixedText 6)).getD "n/a"

/-- All variables with their values, then the objective. -/
def text (s : Solution α) (w : Workspace α) : Except Fault String := do
  let lines ← (w.allVariables s.model).mapM fun v => do
    let x ← (s.get w v).ignoringUndefined
    return w.variableName v ++ " = " ++ valueText x
  let objective ← s.objectiveValue w
  return "\n".intercalate (lines ++ ["objective: " ++ valueText objective])

end Solution

end DecisionModel
