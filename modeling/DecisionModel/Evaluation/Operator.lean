import DecisionModel.Evaluation.Outcome

/-!
# What operators compute

An operator sees its operands as `Argument`s: outcomes not yet asked for. Operands are asked for
from left to right; the first missing value or error decides. Connectives and conditionals stop
as soon as their value is known, so that an operand that is not reached cannot fail.
-/

namespace DecisionModel

/-- A reference to a collection as an operator sees it. -/
structure CollectionArgument (α : Type) where
  text : Unit → Except Fault String
  values : Unit → Partially α (List α)

/-- An operand as an operator sees it. -/
structure Argument (α : Type) where
  value : Unit → Partially α (Reading α)
  /-- Set if the operand is a reference to a collection. -/
  collection : Option (CollectionArgument α) := none

/-- The evaluation of an operator that is known by name. -/
abbrev CustomEvaluator (α : Type) : Type := List (Argument α) → Partially α (Reading α)

namespace Argument

variable {α : Type}

/-- The values of all operands in order. -/
def values : List (Argument α) → Partially α (List (Reading α))
  | [] => .ok (some [])
  | a :: rest =>
    Outcome.andThen (a.value ()) fun x =>
      Outcome.andThen (values rest) fun xs => .ok (some (x :: xs))

/-- The operand at a position, or the fault that there is none. -/
def nth (args : List (Argument α)) (position : Nat) : Partially α (Reading α) :=
  match args[position]? with
  | some a => a.value ()
  | none => .error (.fault .missingOperand)

/-- The only operand, if it is a collection. -/
def soleCollection? : List (Argument α) → Option (CollectionArgument α)
  | [a] => a.collection
  | _ => none

/-- The values of a sole collection, or those of inline operands, with a text that names them. The
text of a collection is made after its values are read, whether they are missing or not. -/
def items (args : List (Argument α)) :
    Except (EvaluationError α) (Option (List (Reading α)) × String) := do
  match soleCollection? args with
  | some c =>
    let xs ← c.values ()
    let text ← Outcome.lift (c.text ())
    return (xs.map (·.map Reading.computed), text)
  | none => return (← values args, "operands")

/-- Continues with the items and the text that names them, if the items are there. -/
def withItems {β : Type} (args : List (Argument α))
    (f : List (Reading α) → String → Partially α β) : Partially α β :=
  match items args with
  | .ok (some xs, source) => f xs source
  | .ok (none, _) => .ok none
  | .error e => .error e

end Argument

namespace Operator

open Outcome

variable {α : Type} [Scalar α]

/-- The first operand that is zero, or one if there is none. -/
def evaluateAll : List (Argument α) → Partially α (Reading α)
  | [] => truth true
  | a :: rest =>
    andThen (a.value ()) fun x => if Scalar.isZero x.value then truth false else evaluateAll rest

/-- One as soon as an operand is not zero. -/
def evaluateAny : List (Argument α) → Partially α (Reading α)
  | [] => truth false
  | a :: rest =>
    andThen (a.value ()) fun x => if Scalar.isZero x.value then evaluateAny rest else truth true

/-- Divides from left to right; `text` names the node in the error. -/
def divideAll (text : Unit → Except Fault String) :
    Reading α → List (Reading α) → Partially α (Reading α)
  | x, [] => .ok (some x)
  | x, y :: rest =>
    if Scalar.isZero y.value then
      match text () with
      | .ok s => .error (.divisionByZero s)
      | .error f => .error (.fault f)
    else divideAll text (.computed (Scalar.div x.value y.value)) rest

/-- Subtracts from left to right. -/
def subtractAll (x : Reading α) (ys : List (Reading α)) : Reading α :=
  ys.foldl (fun x y => .computed (Scalar.sub x.value y.value)) x

/-- Applies `f` to the first value and the others. -/
def headed (f : Reading α → List (Reading α) → Partially α (Reading α)) :
    List (Reading α) → Partially α (Reading α)
  | [] => .error (.fault .missingOperand)
  | x :: xs => f x xs

/-- The sum of values, rounded once. -/
def total (xs : List (Reading α)) : Partially α (Reading α) :=
  (Scalar.sum (xs.map (·.value))).map (some ∘ Reading.computed) |> lift

/-- Applies an arithmetic operator, a comparison or a complement to the values of its operands. -/
def computeStrict (op : Operator) (text : Unit → Except Fault String) (xs : List (Reading α)) :
    Partially α (Reading α) :=
  match op with
  | negation => headed (fun x _ => value (Scalar.neg x.value)) xs
  | complement => headed (fun x _ => truth (Scalar.isZero x.value)) xs
  | sum => total xs
  | difference => headed (fun x ys => .ok (some (subtractAll x ys))) xs
  | product => value (Scalar.product (xs.map (·.value)))
  | quotient => headed (divideAll text) xs
  | comparison c =>
    match xs with
    | [x, y] => truth (c.holds x.value y.value)
    | xs => .error (.fault (.operandCount 2 xs.length))
  | _ => .error (.fault .missingOperand)

/-- An aggregate that needs at least one item. -/
def aggregate (name : String) (f : Reading α → List (Reading α) → Partially α (Reading α))
    (args : List (Argument α)) : Partially α (Reading α) :=
  Argument.withItems args fun xs source =>
    match xs with
    | x :: rest => f x rest
    | [] => .error (.emptyAggregate name source)

def evaluateSum (args : List (Argument α)) : Partially α (Reading α) :=
  Argument.withItems args fun xs _ => total xs

def average (x : Reading α) (rest : List (Reading α)) : Partially α (Reading α) :=
  andThen (total (x :: rest)) fun sum =>
    value (Scalar.div sum.value (Scalar.ofInt (rest.length + 1)))

/-- The first value that no later one undercuts. -/
def least (x : Reading α) (xs : List (Reading α)) : Partially α (Reading α) :=
  .ok (some (xs.foldl (fun m y => if Scalar.lt y.value m.value then y else m) x))

/-- The first value that no later one exceeds. -/
def greatest (x : Reading α) (xs : List (Reading α)) : Partially α (Reading α) :=
  .ok (some (xs.foldl (fun m y => if Scalar.lt m.value y.value then y else m) x))

/-- The size of a sole collection, or the number of operands, which are not evaluated. -/
def evaluateCount (args : List (Argument α)) : Partially α (Reading α) :=
  match Argument.soleCollection? args with
  | some c => andThen (c.values ()) fun xs => value (Scalar.ofInt xs.length)
  | none => value (Scalar.ofInt args.length)

def evaluateAbsolute (args : List (Argument α)) : Partially α (Reading α) :=
  andThen (Argument.nth args 0) fun x => value (Scalar.abs x.value)

def evaluatePower (args : List (Argument α)) : Partially α (Reading α) :=
  andThen (Argument.values args) fun
    | x :: y :: _ =>
      match Scalar.power x.value y.value with
      | .ok z => value z
      | .error cause => .error (.noPower x.value y.value cause)
    | _ => .error (.fault .missingOperand)

/-- The second operand if the first is not zero, else the third. -/
def evaluateConditional (args : List (Argument α)) : Partially α (Reading α) :=
  andThen (Argument.nth args 0) fun c => Argument.nth args (if Scalar.isZero c.value then 2 else 1)

/-- The value beside the first condition that is not zero, or the last operand. -/
def evaluateFirstMatch : List (Argument α) → Partially α (Reading α)
  | [] => .error (.fault .missingOperand)
  | [otherwise] => otherwise.value ()
  | condition :: result :: rest =>
    andThen (condition.value ()) fun c =>
      if Scalar.isZero c.value then
        if rest.isEmpty then result.value () else evaluateFirstMatch rest
      else result.value ()

/-- Whether the first operand is among the others, or in the one collection after it. -/
def evaluateMembership (args : List (Argument α)) : Partially α (Reading α) :=
  andThen (Argument.nth args 0) fun x =>
    Argument.withItems args.tail fun xs _ => truth (xs.any x.isSame)

def evaluateNonMembership (args : List (Argument α)) : Partially α (Reading α) :=
  andThen (evaluateMembership args) fun x => value (Scalar.sub Scalar.one x.value)

/-- The entry at a position from one on, of the collection in the second operand or of the
operands after the first. -/
def evaluateEntry (args : List (Argument α)) : Partially α (Reading α) :=
  andThen (Argument.nth args 0) fun index =>
    match (Scalar.exact index.value).round with
    | .error f => .error (.fault f)
    | .ok position =>
      match Argument.soleCollection? args.tail with
      | some c =>
        andThen (c.values ()) fun xs =>
          if 1 ≤ position ∧ position ≤ xs.length then
            match xs[position.toNat - 1]? with
            | some x => value x
            | none => .error (.fault .missingOperand)
          else
            match c.text () with
            | .ok s => .error (.badIndex position s 1 xs.length)
            | .error f => .error (.fault f)
      | none =>
        if 1 ≤ position ∧ position < args.length then Argument.nth args position.toNat
        else .error (.badIndex position "at()" 1 (args.length - 1))

/-- The evaluation of the operators that have a fixed meaning by name. -/
def builtin? : String → Option (CustomEvaluator α)
  | "sum" => some evaluateSum
  | "avg" => some (aggregate "avg" average)
  | "count" => some evaluateCount
  | "min" => some (aggregate "min" least)
  | "max" => some (aggregate "max" greatest)
  | "abs" => some evaluateAbsolute
  | "pow" => some evaluatePower
  | "if_then_else" => some evaluateConditional
  | "n_ary_if" => some evaluateFirstMatch
  | "element_of" => some evaluateMembership
  | "not_element_of" => some evaluateNonMembership
  | "at" => some evaluateEntry
  | _ => none

/-- The outcome of a node. `custom` gives the evaluators by name and `text` the node's text. -/
def evaluate (custom : String → Option (CustomEvaluator α)) (op : Operator)
    (text : Unit → Except Fault String) (args : List (Argument α)) : Partially α (Reading α) :=
  match op with
  | wrapper => Argument.nth args 0
  | conjunction => evaluateAll args
  | disjunction => evaluateAny args
  | Operator.custom name =>
    match custom name with
    | some f => f args
    | none => .error (.noEvaluator name)
  | entry => evaluateEntry (args.tail ++ args.take 1)
  | collection =>
    match text () with
    | .ok s => .error (.notANumber s)
    | .error f => .error (.fault f)
  | op => andThen (Argument.values args) (computeStrict op text)

end Operator

end DecisionModel
