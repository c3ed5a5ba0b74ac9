import DecisionModel.Number.Sum
import DecisionModel.Workspace.Collection
import DecisionModel.Workspace.Text

/-!
# Outcomes of evaluation

Evaluating a term has one of three outcomes: a value, a missing value (some variable that is
needed has none), or an error. Errors that make the value undefined are told apart from the
faults that evaluation only passes on.

While it is computed, a value remembers the place it was read from, as a `Reading`. The place tells
whether two values that do not equal each other, because they are no numbers, are still one and the
same.
-/

namespace DecisionModel

/-- Why a term has no value. -/
inductive EvaluationError (α : Type) where
  | divisionByZero (text : String)
  | badIndex (index : Int) (container : String) (first last : Int)
  | collection (e : CollectionError)
  | emptyAggregate (operator source : String)
  | noPower (base exponent : α) (cause : PowerFault)
  | noEvaluator (operator : String)
  /-- A collection stands where a number is needed. -/
  | notANumber (text : String)
  /-- What is to be evaluated is neither a term nor a number. -/
  | notEvaluable (text : String)
  /-- An evaluator from outside gave up. -/
  | rejected (text : String)
  | fault (f : Fault)
deriving DecidableEq, Repr

namespace EvaluationError

variable {α : Type}

def message [Scalar α] : EvaluationError α → String
  | divisionByZero text => "division by zero in " ++ text
  | badIndex index container first last =>
    "index " ++ toString index ++ " out of range for " ++ container ++ " (" ++ toString first ++
      ".." ++ toString last ++ ")"
  | collection e => e.message
  | emptyAggregate operator source => operator ++ "() is undefined for empty " ++ source
  | noPower base exponent cause =>
    "pow(" ++ Scalar.text base ++ ", " ++ Scalar.text exponent ++ ") is undefined: " ++
      cause.message
  | noEvaluator operator => "no evaluator for custom operator " ++ operator ++ "()"
  | notANumber text => "collection " ++ text ++ " has no numeric value"
  | notEvaluable text => "cannot evaluate operand " ++ text
  | rejected text => text
  | fault f => f.message

/-- Whether the error says that the value is undefined, rather than being a fault passed on. -/
def isUndefined : EvaluationError α → Bool
  | fault _ => false
  | _ => true

end EvaluationError

/-- A result, a missing result or an error. -/
abbrev Partially (α β : Type) : Type := Except (EvaluationError α) (Option β)

/-- A value, a missing value or an error. -/
abbrev Outcome (α : Type) : Type := Partially α α

/-- Where a value can be read from. -/
inductive Place where
  /-- The stored value of a variable. -/
  | stored (v : VarId)
  /-- The constant at a position among the operands of a node. -/
  | constant (node : NodeId) (position : Nat)
deriving DecidableEq, Repr

/-- A value, and the place it was read from unless it was computed. -/
structure Reading (α : Type) where
  value : α
  place : Option Place := none
deriving Repr

namespace Reading

variable {α : Type}

/-- A value that was computed. -/
def computed (x : α) : Reading α := { value := x }

/-- Whether two readings are the same value: equal numbers, or read from one place. -/
def isSame [Scalar α] (x y : Reading α) : Bool :=
  Scalar.eq x.value y.value || (x.place.isSome && x.place == y.place)

end Reading

namespace Outcome

variable {α : Type}

/-- Continues with the result, if there is one. -/
def andThen {β γ : Type} (o : Partially α β) (f : β → Partially α γ) : Partially α γ :=
  match o with
  | .error e => .error e
  | .ok none => .ok none
  | .ok (some x) => f x

/-- A computed value. -/
def value (x : α) : Partially α (Reading α) := .ok (some (.computed x))

def missing {β : Type} : Partially α β := .ok none

/-- The outcome of a reading. -/
def ofReading (r : Partially α (Reading α)) : Outcome α := r.map (·.map Reading.value)

/-- A result that a fault may have prevented. -/
def lift {β : Type} : Except Fault β → Except (EvaluationError α) β
  | .ok x => .ok x
  | .error f => .error (.fault f)

/-- One or zero. -/
def truth [Scalar α] (b : Bool) : Partially α (Reading α) := value (Scalar.ofBool b)

/-- The outcome with an undefined value taken as a missing one. -/
def ignoringUndefined (o : Outcome α) : Except Fault (Option α) :=
  match o with
  | .ok x => .ok x
  | .error (.fault f) => .error f
  | .error _ => .ok none

end Outcome

end DecisionModel
