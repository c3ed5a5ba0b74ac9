import DecisionModel.Builder.Basic
import DecisionModel.Evaluation.Basic
import DecisionModel.Table

/-!
# Solutions

A solution stores values for variables of a model, together with what a solver said about them.
It can be filled by hand; reading a variable that has no stored value falls back on its
definition or its only value.
-/

namespace DecisionModel

inductive Status where
  | unknown
  | feasible
  | optimal
  | infeasible
  | unbounded
deriving DecidableEq, Repr, Inhabited, BEq

def Status.tag : Status → String
  | unknown => "unknown"
  | feasible => "feasible"
  | optimal => "optimal"
  | infeasible => "infeasible"
  | unbounded => "unbounded"

def Status.all : List Status := [unknown, feasible, optimal, infeasible, unbounded]

/-- The status that a tag names. -/
def Status.ofTag? (tag : String) : Option Status := all.find? (·.tag = tag)

def Status.label : Status → String
  | unknown => "UNKNOWN"
  | feasible => "FEASIBLE"
  | optimal => "OPTIMAL"
  | infeasible => "INFEASIBLE"
  | unbounded => "UNBOUNDED"

structure Solution (α : Type) where
  model : ModelId
  status : Status := .unknown
  values : List (VarId × α) := []
  /-- Values of whole sequences as they were last set. -/
  sequences : List (SequenceId × List α) := []
  /-- The objective value that a solver reported. -/
  reported : Option α := none
  evaluators : List (String × CustomEvaluator α) := []

namespace Solution

variable {α : Type}

def stored? (s : Solution α) (v : VarId) : Option α :=
  (s.values.find? (·.1 = v)).map (·.2)

def set (s : Solution α) (v : VarId) (x : α) : Solution α :=
  { s with values := Table.put s.values v x }

/-- Enters the values of the members of a sequence. -/
def enterSequence (s : Solution α) (w : Workspace α) (q : SequenceId) (xs : List α) : Solution α :=
  let s := ((w.sequenceMembers q).zip xs).foldl (fun s (v, x) => s.set v x) s
  { s with sequences := Table.put s.sequences q xs }

/-- Sets the members of a sequence, if there are as many values and all of them are numbers. -/
def setSequence [Scalar α] (s : Solution α) (w : Workspace α) (q : SequenceId)
    (xs : List (Literal α)) : Except (BuildError α) (Solution α) :=
  let members := w.sequenceMembers q
  if xs.length ≠ members.length then
    .error (.valueCount (w.sequenceName q) members.length xs.length)
  else
    match xs.mapM Literal.toScalar with
    | .ok xs => .ok (s.enterSequence w q xs)
    | .error f => .error (.fault f)

/-- The values of a sequence as they were set together, or else those of all its members. -/
def getSequence (s : Solution α) (w : Workspace α) (q : SequenceId) : Option (List α) :=
  match (s.sequences.find? (·.1 = q)).map (·.2) with
  | some xs => some xs
  | none => (w.sequenceMembers q).mapM s.stored?

/-- Records the objective value that a solver reported. -/
def report (s : Solution α) (x : Option α) : Solution α := { s with reported := x }

/-- Adds an evaluator for an operator name, or replaces it. -/
def addEvaluator (s : Solution α) (name : String) (f : CustomEvaluator α) : Solution α :=
  { s with evaluators := Table.put s.evaluators name f }

/-- The assignment that the solution makes. -/
def assignment (s : Solution α) : Assignment α where
  model := s.model
  stored := s.stored?
  evaluators name := (s.evaluators.find? (·.1 = name)).map (·.2)

def evaluate [Scalar α] (s : Solution α) (w : Workspace α) (t : Term α) : Outcome α :=
  s.assignment.evaluate w t

/-- The outcome of what is given where a term is meant. -/
def evaluateInput [Scalar α] (s : Solution α) (w : Workspace α) (x : Input α) : Outcome α :=
  s.assignment.evaluateInput w x

/-- The stored, defined or only value of a variable. -/
def get [Scalar α] (s : Solution α) (w : Workspace α) (v : VarId) : Outcome α :=
  s.evaluate w (.var v)

/-- Every variable of the model that is neither defined nor fixed has a stored value. -/
def isComplete [Scalar α] (s : Solution α) (w : Workspace α) : Bool :=
  (w.allVariables s.model).all fun v =>
    (w.findVariable v).any (fun d => d.isDefined || d.isFixed) || (s.stored? v).isSome

def description (s : Solution α) : String :=
  "Solution(" ++ s.status.label ++ ", " ++ toString s.values.length ++ " values)"

end Solution

end DecisionModel
