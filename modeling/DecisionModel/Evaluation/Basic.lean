import DecisionModel.Evaluation.Operator

/-!
# Evaluation

`evaluate` gives the outcome of a term under an assignment: stored values of variables first,
then definitions, then the only value of a fixed variable. Definitions are followed at most as
many times as there are variables, which is enough when no variable is defined through itself.
-/

namespace DecisionModel

/-- What terms are evaluated against. -/
structure Assignment (α : Type) where
  model : ModelId
  stored : VarId → Option α
  /-- Evaluators that take precedence over those with a fixed meaning. -/
  evaluators : String → Option (CustomEvaluator α)

namespace Assignment

variable {α : Type} [Scalar α]

def custom (a : Assignment α) (name : String) : Option (CustomEvaluator α) :=
  (a.evaluators name).orElse fun _ => Operator.builtin? name

/-- The collection under the key that an operand gives. -/
def readCollection (a : Assignment α) (w : Workspace α) (key : Partially α (Reading α)) :
    Partially α (List α) :=
  Outcome.andThen key fun key =>
    match (Scalar.exact key.value).round with
    | .error f => .error (.fault f)
    | .ok n =>
      match w.collection a.model n with
      | .ok (.ok xs) => .ok (some xs)
      | .ok (.error f) => .error (.fault f)
      | .error e => .error (.collection e)

/-- The member of a family at the position, counted from zero, that an outcome gives. -/
def readMember (w : Workspace α) (read : VarId → Partially α (Reading α)) (family : FamilyId)
    (index : Partially α (Reading α)) : Partially α (Reading α) :=
  Outcome.andThen index fun index =>
    match (Scalar.exact index.value).round with
    | .error f => .error (.fault f)
    | .ok position =>
      let members := w.members family
      if 0 ≤ position ∧ position < members.length then
        match members[position.toNat]? with
        | some v => read v
        | none => .ok none
      else .error (.badIndex position (w.familyName family) 0 (members.length - 1))

mutual

/-- A term as an operand at a place, with `read` giving the outcomes of variables. -/
def argument (a : Assignment α) (w : Workspace α) (read : VarId → Partially α (Reading α))
    (place : Option Place) : Term α → Argument α
  | .const x => { value := fun _ => .ok (some ⟨x, place⟩) }
  | .var v => { value := fun _ => read v }
  | .selected _ f i => { value := fun _ => readMember w read f (read i) }
  | .node id op operands =>
    let text := fun _ => op.write (w.pieces operands)
    let value := fun _ => op.evaluate a.custom text (arguments a w read id 0 operands)
    if op = .collection then
      { value
        collection := some
          { text
            values := fun _ =>
              a.readCollection w (Argument.nth (arguments a w read id 0 operands) 0) } }
    else { value }

/-- The operands of a node from a position on. -/
def arguments (a : Assignment α) (w : Workspace α) (read : VarId → Partially α (Reading α))
    (node : NodeId) (position : Nat) : List (Term α) → List (Argument α)
  | [] => []
  | t :: ts =>
    a.argument w read (some (.constant node position)) t ::
      arguments a w read node (position + 1) ts

end

/-- The reading of a term, with `read` giving those of variables. -/
def readWith (a : Assignment α) (w : Workspace α) (read : VarId → Partially α (Reading α))
    (t : Term α) : Partially α (Reading α) := (a.argument w read none t).value ()

/-- The reading of a variable, following at most `depth` definitions. -/
def readVariable (a : Assignment α) (w : Workspace α) :
    Nat → VarId → Partially α (Reading α)
  | 0, _ => .error (.fault .circularDefinition)
  | depth + 1, v =>
    match a.stored v with
    | some x => .ok (some ⟨x, some (.stored v)⟩)
    | none =>
      match w.findVariable v with
      | none => .ok none
      | some declared =>
        match declared.definition with
        | some t => a.readWith w (readVariable a w depth) t
        | none => if declared.isFixed then Outcome.value declared.lower else .ok none

/-- The outcome of a term. -/
def evaluate (a : Assignment α) (w : Workspace α) (t : Term α) : Outcome α :=
  .ofReading (a.readWith w (a.readVariable w (w.vars.size + 1)) t)

/-- The outcome of what is given where a term is meant; a number is its own value. -/
def evaluateInput (a : Assignment α) (w : Workspace α) : Input α → Outcome α
  | .term t => a.evaluate w t
  | .literal l =>
    match l.toScalar? with
    | .ok (some x) => .ok (some x)
    | .ok none => .error (.notEvaluable l.text)
    | .error f => .error (.fault f)
  | .other _ description => .error (.notEvaluable description)

end Assignment

end DecisionModel
