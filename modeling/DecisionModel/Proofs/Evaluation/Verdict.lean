import DecisionModel.Number.DoubleScalar
import DecisionModel.Proofs.Evaluation.Reading

/-!
# What connectives evaluate to

A connective sees of an operand only whether its value is zero. What it sees is `holds` of the
operand's outcome: a truth value, a missing one or an error. On these, `both` and `either` are the
connectives of two operands, which do not look at the second one once the first one decides, and
`opposite` is the complement. The outcome of a connective is that of folding them over its operands
(`evaluate_conjunction`, `evaluate_disjunction`), so that the operands of a nested connective can be
moved into the outer one (`all_append`, `any_append`).
-/

namespace DecisionModel

/-- The scalars of the truth values are told apart. -/
class Scalar.Decisive (α : Type) [Scalar α] : Prop where
  isZero_ofBool (b : Bool) : isZero (ofBool b : α) = !b

instance : Scalar.Decisive Exact where
  isZero_ofBool := by decide +kernel

instance : Scalar.Decisive Float where
  isZero_ofBool := by decide +kernel

namespace Outcome

variable {α : Type}

/-- Whether the first and the second hold; the second is not looked at if the first does not. -/
def both (p q : Partially α Bool) : Partially α Bool :=
  andThen p fun b => if b then q else .ok (some false)

/-- Whether the first or the second holds; the second is not looked at if the first does. -/
def either (p q : Partially α Bool) : Partially α Bool :=
  andThen p fun b => if b then .ok (some true) else q

def opposite (p : Partially α Bool) : Partially α Bool := andThen p fun b => .ok (some !b)

/-- Whether all hold, up to the first that does not. -/
def all (ps : List (Partially α Bool)) : Partially α Bool := ps.foldr both (.ok (some true))

/-- Whether one holds, up to the first that does. -/
def any (ps : List (Partially α Bool)) : Partially α Bool := ps.foldr either (.ok (some false))

section

variable [Scalar α]

/-- Whether the value is other than zero. -/
def holds (o : Outcome α) : Partially α Bool := andThen o fun x => .ok (some !Scalar.isZero x)

/-- One for what holds and zero for what does not. -/
def oneOrZero (p : Partially α Bool) : Outcome α := andThen p fun b => .ok (some (Scalar.ofBool b))

end

/-! ### Laws -/

theorem opposite_opposite (p : Partially α Bool) : opposite (opposite p) = p := by
  obtain _ | _ | b := p
  · rfl
  · rfl
  · cases b <;> rfl

theorem opposite_both (p q : Partially α Bool) :
    opposite (both p q) = either (opposite p) (opposite q) := by
  obtain _ | _ | b := p
  · rfl
  · rfl
  · cases b <;> rfl

theorem opposite_either (p q : Partially α Bool) :
    opposite (either p q) = both (opposite p) (opposite q) := by
  obtain _ | _ | b := p
  · rfl
  · rfl
  · cases b <;> rfl

theorem both_assoc (p q r : Partially α Bool) : both (both p q) r = both p (both q r) := by
  obtain _ | _ | b := p
  · rfl
  · rfl
  · cases b <;> rfl

theorem either_assoc (p q r : Partially α Bool) : either (either p q) r = either p (either q r) := by
  obtain _ | _ | b := p
  · rfl
  · rfl
  · cases b <;> rfl

theorem all_singleton (p : Partially α Bool) : all [p] = p := by
  obtain _ | _ | b := p
  · rfl
  · rfl
  · cases b <;> rfl

theorem any_singleton (p : Partially α Bool) : any [p] = p := by
  obtain _ | _ | b := p
  · rfl
  · rfl
  · cases b <;> rfl

theorem all_append (ps qs : List (Partially α Bool)) : all (ps ++ qs) = both (all ps) (all qs) := by
  induction ps with
  | nil => rfl
  | cons p ps ih => exact (congrArg (both p) ih).trans (both_assoc p _ _).symm

theorem any_append (ps qs : List (Partially α Bool)) : any (ps ++ qs) = either (any ps) (any qs) := by
  induction ps with
  | nil => rfl
  | cons p ps ih => exact (congrArg (either p) ih).trans (either_assoc p _ _).symm

theorem holds_oneOrZero [Scalar α] [Scalar.Decisive α] (p : Partially α Bool) :
    holds (oneOrZero p : Outcome α) = p := by
  obtain _ | _ | b := p
  · rfl
  · rfl
  · simp only [oneOrZero, holds, andThen, Scalar.Decisive.isZero_ofBool, Bool.not_not]

end Outcome

/-! ### Nodes -/

namespace Operator

open Outcome

variable {α : Type} [Scalar α]

theorem ofReading_evaluateAll (args : List (Argument α)) :
    ofReading (evaluateAll args) =
      oneOrZero (all (args.map fun x => holds (ofReading (x.value ())))) := by
  induction args with
  | nil => rfl
  | cons x args ih =>
    simp only [evaluateAll, List.map_cons]
    rcases x.value () with e | _ | r
    · rfl
    · rfl
    · have hseen : holds (ofReading (.ok (some r))) = .ok (some !Scalar.isZero r.value) := rfl
      rw [hseen, andThen]
      cases hzero : Scalar.isZero r.value
      · exact ih
      · rfl

theorem ofReading_evaluateAny (args : List (Argument α)) :
    ofReading (evaluateAny args) =
      oneOrZero (any (args.map fun x => holds (ofReading (x.value ())))) := by
  induction args with
  | nil => rfl
  | cons x args ih =>
    simp only [evaluateAny, List.map_cons]
    rcases x.value () with e | _ | r
    · rfl
    · rfl
    · have hseen : holds (ofReading (.ok (some r))) = .ok (some !Scalar.isZero r.value) := rfl
      rw [hseen, andThen]
      cases hzero : Scalar.isZero r.value
      · rfl
      · exact ih

end Operator

namespace Assignment

open Outcome

variable {α : Type} [Scalar α] {a : Assignment α} {w : Workspace α}
  {read : VarId → Partially α (Reading α)}

/-- What a connective sees of its operands does not depend on where they stand. -/
theorem holds_arguments (id : NodeId) (k : Nat) (ts : List (Term α)) :
    (a.arguments w read id k ts).map (fun x => holds (ofReading (x.value ()))) =
      ts.map fun t => holds (ofReading (a.readWith w read t)) := by
  induction ts generalizing k with
  | nil => rfl
  | cons t ts ih =>
    rw [arguments, List.map_cons, List.map_cons, ih, ofReading_argument _ none, readWith]

theorem evaluate_conjunction (id : NodeId) (ts : List (Term α)) :
    a.evaluate w (.node id .conjunction ts) =
      oneOrZero (all (ts.map fun t => holds (a.evaluate w t))) := by
  rw [evaluate, readWith, argument]
  exact (Operator.ofReading_evaluateAll _).trans (by rw [holds_arguments]; rfl)

theorem evaluate_disjunction (id : NodeId) (ts : List (Term α)) :
    a.evaluate w (.node id .disjunction ts) =
      oneOrZero (any (ts.map fun t => holds (a.evaluate w t))) := by
  rw [evaluate, readWith, argument]
  exact (Operator.ofReading_evaluateAny _).trans (by rw [holds_arguments]; rfl)

theorem evaluate_complement (id : NodeId) (t : Term α) :
    a.evaluate w (.node id .complement [t]) = oneOrZero (opposite (holds (a.evaluate w t))) := by
  have houtcome : a.evaluate w t = ofReading
      ((a.argument w (a.readVariable w (w.vars.size + 1)) (some (.constant id 0)) t).value ()) :=
    ofReading_argument _ _ t
  rw [houtcome, evaluate, readWith, argument]
  simp only [Operator.evaluate, arguments, Argument.values]
  rcases (a.argument w _ (some (.constant id 0)) t).value () with e | _ | r
  · rfl
  · rfl
  · have hseen : holds (ofReading (.ok (some r))) = .ok (some !Scalar.isZero r.value) := rfl
    rw [hseen, opposite]
    simp only [andThen, Bool.not_not]
    rfl

theorem evaluate_wrapper (id : NodeId) (t : Term α) :
    a.evaluate w (.node id .wrapper [t]) = a.evaluate w t := by
  rw [evaluate, readWith, argument]
  exact ofReading_argument (some (.constant id 0)) none t

end Assignment

end DecisionModel
