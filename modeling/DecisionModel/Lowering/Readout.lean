import DecisionModel.Lowering.Walk
import DecisionModel.Solution.Basic

/-!
# Reading solutions back

After a solver has run, the values of the handles become a solution of the model. `SolveError`
says why there is none: the model is infeasible or unbounded, the solver rejected it, or one of
its answers cannot be read.
-/

namespace DecisionModel

/-- Why solving gave no solution. -/
inductive SolveError where
  /-- A constraint folded to false while lowering. -/
  | alwaysFalse (constraint : String)
  | infeasible (solver : String)
  | unboundedStatus (solver status : String)
  | unboundedObjective (solver value : String)
  | rejectedModel (solver reason : String)
  | unreadableValue (value : String)
  | missingHandle (description : String)
  /-- A status that does not exist was asked for. -/
  | unknownStatus (text : String)
  | fault (f : Fault)
deriving DecidableEq, Repr

def SolveError.message : SolveError → String
  | alwaysFalse constraint => "constraint is always false: " ++ constraint
  | infeasible solver => solver ++ " proved the model infeasible"
  | unboundedStatus solver status => solver ++ " reported status " ++ status
  | unboundedObjective solver value => solver ++ " reported objective " ++ value
  | rejectedModel solver reason => solver ++ " rejected the model: " ++ reason
  | unreadableValue value => "Cannot convert Z3 value " ++ value ++ " to float"
  | missingHandle description => description
  | unknownStatus text => Text.quoted text ++ " is not a valid Status"
  | fault f => f.message

namespace SolveError

/-- A result that a fault may have prevented. -/
def lift {β : Type} : Except Fault β → Except SolveError β
  | .ok x => .ok x
  | .error f => .error (.fault f)

end SolveError

/-- Computations of solving; as in lowering, what was done before an error stays done. -/
abbrev SolveM (ν σ β : Type) : Type := ExceptT SolveError (StateM (LoweringState ν σ)) β

namespace SolveM

variable {ν σ : Type}

/-- A result that an error may have prevented. -/
def ofExcept {β : Type} : Except SolveError β → SolveM ν σ β
  | .ok x => pure x
  | .error e => throw e

/-- Logs a line if the verbosity is at least `level`. -/
def log {α : Type} (config : Config α) (level : Int) (line : String) : SolveM ν σ Unit :=
  if level ≤ config.verbosity then modify fun s => { s with log := s.log ++ [line] } else pure ()

end SolveM

namespace LoweringState

variable {ν σ : Type}

def handle? (s : LoweringState ν σ) (v : VarId) : Option (Handle ν) :=
  (s.handles.find? (·.1 = v)).map (·.2)

/-- Refuses if a constraint folded to false. -/
def ensureSatisfiable (s : LoweringState ν σ) : Except SolveError Unit :=
  match s.violated with
  | [] => .ok ()
  | constraint :: _ => .error (.alwaysFalse constraint)

end LoweringState

namespace Readout

variable {α ν σ : Type} [Scalar α]

/-- A number that the solver gave, rounded to the places kept. -/
def roundNumber (c : Context α) (x : Number α) : Except SolveError α :=
  SolveError.lift (x.roundTo c.config.precision)

/-- The value of a variable's handle, rounded to the places kept. -/
def readVariable (c : Context α) (s : LoweringState ν σ)
    (value : Handle ν → Except SolveError (Number α)) (v : VarId) : Except SolveError α := do
  match s.handle? v with
  | some h => roundNumber c (← value h)
  | none => throw (.missingHandle (← SolveError.lift (c.workspace.variableDescription v)))

def readSequence (c : Context α) (s : LoweringState ν σ)
    (value : Handle ν → Except SolveError (Number α)) (solution : Solution α) (q : SequenceId) :
    Except SolveError (Solution α) := do
  let xs ← (c.workspace.sequenceMembers q).mapM (readVariable c s value)
  return solution.enterSequence c.workspace q xs

/-- The solution with the values of all variables of the model. -/
def solution (c : Context α) (s : LoweringState ν σ)
    (value : Handle ν → Except SolveError (Number α)) (status : Status)
    (objective : Option (Number α)) : Except SolveError (Solution α) := do
  let empty : Solution α := { model := c.model, status }
  let sequences := ((c.workspace.findModel c.model).map (·.sequences)).getD []
  let withSequences ← sequences.foldlM (readSequence c s value) empty
  let filled ← c.vars.foldlM
    (fun solution v => do return solution.set v (← readVariable c s value v)) withSequences
  match objective with
  | some x => return filled.report (some (← roundNumber c x))
  | none => return filled

end Readout

end DecisionModel
