import DecisionModel.Builder.Expression

/-!
# Building models

Adding variables, families, sequences, constraints, an objective and a source of collections.
Names are unique within a model, separately for variables (members of families and sequences
among them), families and sequences. A definition may not read, directly or through other
definitions, the family that the new variable joins; since the variable itself is new, this is
the only way in which a definition could reach it.
-/

namespace DecisionModel

namespace Workspace

variable {α : Type}

/-- The variables that can be reached from the frontier by following definitions, together with
those visited before. Each round adds the unvisited dependencies of the last one. -/
def reach (w : Workspace α) : Nat → List VarId → List VarId → List VarId
  | 0, visited, _ => visited
  | _ + 1, visited, [] => visited
  | fuel + 1, visited, frontier =>
    let next := ((frontier.flatMap w.dependencies).eraseDups).filter (!visited.contains ·)
    reach w fuel (visited ++ next) next

/-- All variables that a term reads, directly or through definitions. -/
def reachable (w : Workspace α) (t : Term α) : List VarId :=
  let direct := (w.reads t).eraseDups
  w.reach w.vars.size direct direct

/-- Whether a term selects from the family, itself or through definitions. -/
def selectsFrom (w : Workspace α) (family : FamilyId) (t : Term α) : Bool :=
  t.mentions.contains (.family family) ||
    (w.reachable t).any fun v =>
      (w.definition? v).any fun definition => definition.mentions.contains (.family family)

end Workspace

namespace Build

variable {α : Type} [Scalar α]

/-- A new empty model. -/
def newModel (sense : Sense) : Build α ModelId := do
  let objective ← wrapTerm (.const Scalar.zero)
  let w ← get
  set { w with models := w.models.push { sense, objective } }
  return ⟨w.models.size⟩

def getModel (m : ModelId) : Build α (Model α) := do
  match (← get).findModel m with
  | some model => return model
  | none => refuse .badPosition

/-- The definition that is given, if there is one. -/
def definitionOf : Input α → Build α (Option (Term α))
  | .literal .absent => return none
  | x => some <$> wrap x

/-- The bound that is given, or the default. -/
def boundOr (default : α) (given : Literal α) : Build α α :=
  return (← lift given.toScalar?).getD default

/-- Checks a new variable of a model and gives its record; nothing is entered yet. -/
def checkVariable (m : ModelId) (kind : VariableKind) (name : String) (lower upper : Literal α)
    (definition : Input α) (owner : Option FamilyId) : Build α (Variable α) := do
  let model ← getModel m
  if model.variableNames.contains name then refuse (.duplicateName .variable name)
  let definition ← definitionOf definition
  let (lowest, highest) := Variable.defaultBounds kind
  let lower ← boundOr lowest lower
  let upper ← boundOr highest upper
  let new := { kind, name, lower, upper, definition }
  if Scalar.lt new.upper new.lower then refuse (.emptyDomain name new.lower new.upper)
  if let some t := definition then
    if let some family := owner then
      let w ← get
      if w.selectsFrom family t then refuse (.ownFamily name (w.familyName family))
  return new

/-- Enters a variable in the workspace and its name in the model. -/
def enterVariable (m : ModelId) (new : Variable α) : Build α VarId := do
  let w ← get
  let id : VarId := ⟨w.vars.size⟩
  let w := { w with vars := w.vars.push new }
  set (w.modifyModel m fun model => { model with variableNames := new.name :: model.variableNames })
  return id

/-- Adds a variable with bounds, or one that an expression defines. An absent literal stands for a
default bound, or for no definition. -/
def addVariable (m : ModelId) (kind : VariableKind) (name : String) (lower upper : Literal α)
    (definition : Input α) : Build α VarId := do
  let new ← checkVariable m kind name lower upper definition none
  let id ← enterVariable m new
  modify (·.modifyModel m fun model => { model with vars := model.vars ++ [id] })
  return id

/-- Adds an empty family. -/
def addFamily (m : ModelId) (kind : VariableKind) (name : String) : Build α FamilyId := do
  let model ← getModel m
  if model.familyNames.contains name then refuse (.duplicateName .family name)
  let w ← get
  let id : FamilyId := ⟨w.families.size⟩
  let w := { w with families := w.families.push { model := m, kind, name } }
  set (w.modifyModel m fun model =>
    { model with familyNames := name :: model.familyNames, families := model.families ++ [id] })
  return id

/-- Appends a member to a family; its name is the base name with the position. -/
def addMember (family : FamilyId) (lower upper : Literal α) (definition : Input α) :
    Build α VarId := do
  match (← get).findFamily family with
  | none => refuse .badPosition
  | some f =>
    let name := f.name ++ "[" ++ toString f.members.length ++ "]"
    let new ← checkVariable f.model f.kind name lower upper definition (some family)
    let id ← enterVariable f.model new
    modify fun w =>
      { w with families := w.families.modify family.index fun f =>
          { f with members := f.members ++ [id] } }
    return id

/-- The length that a literal gives, if it is a positive integer. -/
def positiveLength? : Literal α → Option Nat
  | .int n => if 1 ≤ n then some n.toNat else none
  | .truth true => some 1
  | _ => none

/-- Adds a sequence of `n` variables that form a permutation of `1 … n`. -/
def addSequence (m : ModelId) (name : String) (n : Literal α) : Build α SequenceId := do
  match positiveLength? n with
  | none => refuse (.sequenceLength name n)
  | some n =>
    let names := (List.range n).map fun i => name ++ "[" ++ toString i ++ "]"
    let model ← getModel m
    if let some taken := names.find? (model.variableNames.contains ·) then
      refuse (.duplicateName .variable taken)
    if model.sequenceNames.contains name then refuse (.duplicateName .sequence name)
    let members ← names.mapM fun memberName => enterVariable m
      { kind := .integer, name := memberName, lower := Scalar.one, upper := Scalar.ofInt n }
    let w ← get
    let id : SequenceId := ⟨w.sequences.size⟩
    let w := { w with sequences := w.sequences.push { name, members } }
    set (w.modifyModel m fun model =>
      { model with
        sequenceNames := name :: model.sequenceNames
        sequences := model.sequences ++ [id] })
    return id

/-- The member of a family at the position that a variable gives. -/
def select (family : FamilyId) (index : VarId) : Build α (Term α) := do
  let id ← freshNode
  return .selected id family index

/-- The position that an index is, if it is one; a truth value counts as one or zero. -/
def position? (index : Input α) : Option Int := (number? index).bind (·.integer?)

/-- What a family gives for an index: its member at a position, or the one that a variable
selects. -/
def familyEntry (family : FamilyId) (index : Input α) : Build α (Term α) := do
  let w ← get
  match index, position? index with
  | .term (.var v), _ => select family v
  | _, some n => return .var (← itemAt (w.members family) n)
  | x, none => refuse (.familyIndex (w.familyName family) x.kindName)

/-- The member of a sequence at a position. -/
def sequenceEntry (q : SequenceId) (index : Input α) : Build α (Term α) := do
  let w ← get
  match position? index with
  | some n => return .var (← itemAt (w.sequenceMembers q) n)
  | none => refuse (.sequenceIndex index.kindName)

/-- Sets the sense, then the objective. -/
def setObjective (m : ModelId) (sense : Sense) (objective : Input α) : Build α (Term α) := do
  modify (·.modifyModel m fun model => { model with sense })
  let objective ← wrap objective
  modify (·.modifyModel m fun model => { model with objective })
  return objective

/-- Adds a constraint, which must have a truth value: a number, an arithmetic node, a bare
collection and a wrapped constant are refused. -/
def addConstraint (m : ModelId) (given : Input α) : Build α (Term α) := do
  let t ← match given with
    | .term t => wrapTerm t
    | .literal l => refuse (.notATerm l.text)
    | .other _ description => refuse (.notATerm description)
  let w ← get
  let op := t.operator?
  if op.any (·.isArithmetic) || op == some .collection then
    let text ← lift (w.termText t)
    refuse (.notBoolean text)
  if op == some .wrapper then
    match t.operands with
    | [] => lift (.error .missingOperand)
    | first :: _ =>
      if first.isConst then
        let text ← lift (w.termText t)
        refuse (.constantConstraint text)
  modify (·.modifyModel m fun model => { model with constraints := model.constraints ++ [t] })
  return t

/-- Sets the source of collections and the number of its keys. The source is set even if the number
of keys, which loses its fraction, is no integer. -/
def setCollections (m : ModelId) (lookup : Int → LookupAnswer α) (keyCount : Literal α) :
    Build α Unit := do
  match keyCount.number? with
  | none => refuse (.notOrdered keyCount.kindName)
  | some n =>
    if n.exact.isNegative then refuse (.negativeKeyCount keyCount)
    modify (·.modifyModel m fun model => { model with lookup := some lookup })
    let count ← lift n.exact.truncate
    modify (·.modifyModel m fun model => { model with keyCount := count.toNat })

end Build

end DecisionModel
