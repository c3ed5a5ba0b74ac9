import DecisionModel.Lowering.Collection

/-!
# The walk over a model

`Backend.translate` lowers a term to a handle, `Backend.post` a constraint to constraints of the
solver, and `Backend.lowerModel` a whole model, once. Conjunctions of constraints are posted one
by one and comparisons directly; any other constraint is lowered to a handle that has to be true.
-/

namespace DecisionModel.Backend

variable {α ν σ : Type} [Scalar α] [Numeral ν]

/-- Lowers the operands from left to right and combines each with the result so far. -/
def chain (f : Handle ν → Handle ν → LowerM α ν σ (Handle ν)) (operands : List (Operand α ν σ)) :
    LowerM α ν σ (Handle ν) :=
  match operands with
  | [] => .fail (.fault .missingOperand)
  | first :: rest => do
    let h ← first.lower
    rest.foldlM (fun h o => do f h (← o.lower)) h

/-- The handles of all operands. -/
def lowerAll (operands : List (Operand α ν σ)) : LowerM α ν σ (List (Handle ν)) :=
  operands.mapM (·.lower)

/-- Every second element, from the first on. -/
def evens {β : Type} : List β → List β
  | [] => []
  | [x] => [x]
  | x :: _ :: rest => x :: evens rest

/-- A named operator over inline operands. -/
def lowerInline (B : Backend α ν σ) (name : String) (operands : List (Operand α ν σ)) :
    LowerM α ν σ (Handle ν) := do
  match name with
  | "count" => B.constant (Scalar.ofInt operands.length)
  | "sum" => if operands.isEmpty then B.constant Scalar.zero else chain B.add operands
  | "avg" =>
    let total ← chain B.add operands
    B.divide total (← B.constant (Scalar.ofInt operands.length))
  | "min" => B.minimum (← lowerAll operands)
  | "max" => B.maximum (← lowerAll operands)
  | "abs" => B.absolute (← Operand.lowerNth operands 0)
  | "pow" =>
    let base ← Operand.lowerNth operands 0
    let exponent ← Operand.lowerNth operands 1
    B.power base exponent
  | "if_then_else" =>
    let condition ← Operand.lowerNth operands 0
    let thenValue ← Operand.lowerNth operands 1
    let elseValue ← Operand.lowerNth operands 2
    B.conditional condition thenValue elseValue
  | "n_ary_if" =>
    let handles ← lowerAll operands
    match handles.getLast? with
    | none => .fail (.fault .missingOperand)
    | some otherwise =>
      let pairs := handles.dropLast
      B.firstMatch (evens pairs) (evens pairs.tail) otherwise
  | "element_of" =>
    let value ← Operand.lowerNth operands 0
    B.membership value ((← lowerAll operands.tail).map some)
  | "not_element_of" =>
    let value ← Operand.lowerNth operands 0
    B.complement (← B.membership value ((← lowerAll operands.tail).map some))
  | "at" =>
    let values ← lowerAll operands.tail
    let index ← Operand.lowerNth operands 0
    B.element index (values.mapIdx fun i h => ((i : Int) + 1, h))
  | name => .fail (.unsupportedOperator name B.name)

/-- A named operator: over one collection where that is possible, else over inline operands. -/
def lowerCustom (B : Backend α ν σ) (c : Context α) (name : String)
    (operands : List (Operand α ν σ)) : LowerM α ν σ (Handle ν) := do
  match Operand.soleCollection? operands with
  | some container =>
    if name ∈ ["sum", "avg", "count", "min", "max"] then
      return ← lowerAggregate B c name container
  | none => pure ()
  match operands, Operand.soleCollection? operands.tail with
  | first :: _, some container =>
    match name with
    | "element_of" => lowerMembership B c first container
    | "not_element_of" => B.complement (← lowerMembership B c first container)
    | "at" => lowerEntry B c container first.lower
    | name => lowerInline B name operands
  | _, _ => lowerInline B name operands

/-- A comparison of two handles: folded if both are numbers, else a handle of its own. -/
def lowerComparison (B : Backend α ν σ) (comparison : Comparison) (x y : Handle ν) :
    LowerM α ν σ (Handle ν) :=
  match x.number?, y.number? with
  | some a, some b => B.constant (Scalar.ofBool (Numeral.holds comparison a b))
  | _, _ => B.reify comparison x y

/-- A node from its operands; `text` is the node's own text. -/
def lowerNode (B : Backend α ν σ) (c : Context α) (op : Operator)
    (text : Unit → Except Fault String) (operands : List (Operand α ν σ)) :
    LowerM α ν σ (Handle ν) := do
  match op with
  | .wrapper => Operand.lowerNth operands 0
  | .negation => B.negate (← Operand.lowerNth operands 0)
  | .sum => chain B.add operands
  | .difference => chain B.subtract operands
  | .product => chain B.multiply operands
  | .quotient => chain B.divide operands
  | .comparison comparison =>
    let x ← Operand.lowerNth operands 0
    let y ← Operand.lowerNth operands 1
    lowerComparison B comparison x y
  | .complement => B.complement (← Operand.lowerNth operands 0)
  | .conjunction => B.conjoin (← lowerAll operands)
  | .disjunction => B.disjoin (← lowerAll operands)
  | .entry =>
    let container ← Operand.nth operands 0
    let index ← Operand.nth operands 1
    lowerEntry B c container.term index.lower
  | .custom name => lowerCustom B c name operands
  | .collection => .fail (.bareCollection (← .lift (text ())))

mutual

/-- The handle of a term. Nodes and selected members are lowered once each. -/
def translate (B : Backend α ν σ) (c : Context α) : Term α → LowerM α ν σ (Handle ν)
  | .const x => B.constant x
  | .var v => variableHandle c v
  | .selected id family index => memoized id (lowerSelected B c family index)
  | .node id op operands =>
    memoized id (lowerNode B c op (fun _ => op.write (c.workspace.pieces operands))
      (operandsOf B c operands))

def operandsOf (B : Backend α ν σ) (c : Context α) : List (Term α) → List (Operand α ν σ)
  | [] => []
  | t :: ts => ⟨t, translate B c t⟩ :: operandsOf B c ts

end

/-- A constraint that folded: nothing to do if it is true. -/
def postFolded (c : Context α) (isTrue : Bool) (t : Term α) : LowerM α ν σ Unit := do
  if !isTrue then
    let text ← .lift (c.workspace.termText t)
    LowerM.recordViolated text
    LowerM.log c.config 1 (.ok ("Constraint is constant false: " ++ text))

/-- Posts a constraint through its handle. -/
def postHandle (B : Backend α ν σ) (c : Context α) (t : Term α) : LowerM α ν σ Unit := do
  let h ← translate B c t
  match h.number? with
  | some x => postFolded c (!Numeral.isZero x) t
  | none => B.postTrue h

/-- Posts a comparison directly. -/
def postComparisonOf (B : Backend α ν σ) (c : Context α) (comparison : Comparison)
    (operands : List (Term α)) (t : Term α) : LowerM α ν σ Unit := do
  let operands := operandsOf B c operands
  let x ← Operand.lowerNth operands 0
  let y ← Operand.lowerNth operands 1
  match x.number?, y.number? with
  | some a, some b => postFolded c (Numeral.holds comparison a b) t
  | _, _ => B.postComparison comparison x y

mutual

/-- Posts a constraint. -/
def post (B : Backend α ν σ) (c : Context α) : Term α → LowerM α ν σ Unit
  | t@(.node _ op operands) =>
    match op, operands with
    | .wrapper, [] => .fail (.fault .missingOperand)
    | .wrapper, inner :: _ => if inner.isNode then post B c inner else postHandle B c t
    | .conjunction, operands => postAll B c operands
    | .comparison comparison, operands => postComparisonOf B c comparison operands t
    | _, _ => postHandle B c t
  | t => postHandle B c t

def postAll (B : Backend α ν σ) (c : Context α) : List (Term α) → LowerM α ν σ Unit
  | [] => return ()
  | t :: ts => do
    post B c t
    postAll B c ts

end

/-- The handle of what is given where a term is meant. Of the literals only scalars are taken. -/
def translateInput (B : Backend α ν σ) (c : Context α) : Input α → LowerM α ν σ (Handle ν)
  | .term t => translate B c t
  | .literal (.real x) => B.constant x
  | .literal l => .fail (.unexpected l.text)
  | .other _ description => .fail (.unexpected description)

/-- Posts what is given for a constraint, which has to be a node. -/
def postInput (B : Backend α ν σ) (c : Context α) : Input α → LowerM α ν σ Unit
  | .term t@(.node ..) => post B c t
  | x => .fail (.fault (.lacks x.kindName "operator"))

/-- Enters the handle of a variable. -/
def enterHandle (v : VarId) (h : Handle ν) : LowerM α ν σ Unit :=
  modify fun s => { s with handles := s.handles ++ [(v, h)] }

def createVariableOf (B : Backend α ν σ) (c : Context α) (v : VarId) : LowerM α ν σ Unit := do
  if let some d := c.workspace.findVariable v then
    enterHandle v (← B.createVariable d)

def createSequenceOf (B : Backend α ν σ) (c : Context α) (s : SequenceId) :
    LowerM α ν σ Unit := do
  let members := c.workspace.sequenceMembers s
  let name := c.workspace.sequenceName s
  let handles ← B.createSequence name (members.map c.workspace.variableName)
  (members.zip handles).forM fun (v, h) => enterHandle v h
  LowerM.log c.config 2 (.ok ("Created sequence " ++ name ++ " of length " ++
    toString members.length))

/-- Ties a defined variable to its definition. -/
def postDefinitionOf (B : Backend α ν σ) (c : Context α) (v : VarId) : LowerM α ν σ Unit := do
  if let some t := c.workspace.definition? v then
    let h ← translate B c t
    B.postDefinition (c.workspace.variableName v) (← assumedHandle c v) h
    LowerM.log c.config 2 (("Added deduction " ++ ·) <$> c.workspace.variableText v)

/-- Lowers the model: sequences, variables, definitions, constraints and the objective. -/
def lowerModel (B : Backend α ν σ) (c : Context α) : LowerM α ν σ Unit := do
  if (← get).lowered then .fail (.alreadyLowered B.name)
  modify fun s => { s with lowered := true }
  if let some model := c.workspace.findModel c.model then
    model.sequences.forM (createSequenceOf B c)
    model.vars.forM (createVariableOf B c)
    (model.families.flatMap c.workspace.members).forM (createVariableOf B c)
    c.vars.forM (postDefinitionOf B c)
    model.constraints.forM fun t => do
      post B c t
      LowerM.log c.config 2 (("Added constraint " ++ ·) <$> c.workspace.termText t)
    if model.sense ≠ .feasible then
      B.postObjective model.sense (← translate B c model.objective)
      LowerM.log c.config 2 (("Added objective " ++ model.sense.tag ++ " " ++ ·) <$>
        c.workspace.termText model.objective)
    LowerM.log c.config 1 (.ok ("Lowered " ++ toString (← get).handles.length ++
      " variables and " ++ toString model.constraints.length ++ " constraints for " ++ B.name ++
      " in 0.000s"))

end DecisionModel.Backend
