import DecisionModel.Term.Basic

/-!
# Workspaces

A workspace holds everything that models own: variables, families of variables, sequences and the
models themselves, each in a table that only grows. Several models can share one workspace and
refer to each other's variables. It also hands out the identities of nodes and keeps the table of
operator names in the order of their first use.

A variable never changes once it is made. A family gains members and a model gains entities, so
whoever holds a term sees later additions through the workspace.
-/

namespace DecisionModel

inductive VariableKind where
  | boolean
  | integer
  | real
deriving DecidableEq, Repr, Inhabited, BEq

def VariableKind.tag : VariableKind → String
  | boolean => "boolean"
  | integer => "integer"
  | real => "real"

/-- A decision variable, or a variable that an expression defines. -/
structure Variable (α : Type) where
  kind : VariableKind
  name : String
  lower : α
  upper : α
  definition : Option (Term α) := none
deriving Repr

/-- Variables of one kind that share a base name. -/
structure Family where
  model : ModelId
  kind : VariableKind
  name : String
  members : List VarId := []
deriving Repr, DecidableEq

/-- Variables whose values form a permutation of `1 … n`. -/
structure Sequence where
  name : String
  members : List VarId
deriving Repr, DecidableEq

inductive Sense where
  | feasible
  | minimize
  | maximize
deriving DecidableEq, Repr, Inhabited, BEq

def Sense.tag : Sense → String
  | feasible => "feasible"
  | minimize => "minimize"
  | maximize => "maximize"

def Sense.label : Sense → String
  | feasible => "FEASIBLE"
  | minimize => "MINIMIZE"
  | maximize => "MAXIMIZE"

/-- What an external source of collections answers for a key. -/
inductive LookupAnswer (α : Type) where
  | values (xs : List (Literal α))
  | nothing
  | failure (text : String)
deriving Repr

/-- The three kinds of names that are unique within a model. -/
inductive Namespace where
  | variable
  | family
  | sequence
deriving DecidableEq, Repr

def Namespace.label : Namespace → String
  | .variable => "variable"
  | .family => "indexed variables"
  | .sequence => "sequence"

/-- An optimisation or satisfaction problem. -/
structure Model (α : Type) where
  sense : Sense
  objective : Term α
  sequences : List SequenceId := []
  /-- Variables that belong to no sequence and no family. -/
  vars : List VarId := []
  families : List FamilyId := []
  constraints : List (Term α) := []
  /-- The names in use, by namespace. -/
  variableNames : List String := []
  familyNames : List String := []
  sequenceNames : List String := []
  lookup : Option (Int → LookupAnswer α) := none
  /-- Collections are stored under the keys `0, …, keyCount - 1`. -/
  keyCount : Nat := 0

structure Workspace (α : Type) where
  vars : Array (Variable α) := #[]
  families : Array Family := #[]
  sequences : Array Sequence := #[]
  models : Array (Model α) := #[]
  /-- Operator names, each once, in the order of their first use. -/
  operators : List String := []
  /-- The least identity not yet given to a node. -/
  nextNode : Nat := 0

namespace Workspace

variable {α : Type}

def findVariable (w : Workspace α) (v : VarId) : Option (Variable α) := w.vars[v.index]?

def findFamily (w : Workspace α) (f : FamilyId) : Option Family := w.families[f.index]?

def findSequence (w : Workspace α) (s : SequenceId) : Option Sequence := w.sequences[s.index]?

def findModel (w : Workspace α) (m : ModelId) : Option (Model α) := w.models[m.index]?

def definition? (w : Workspace α) (v : VarId) : Option (Term α) :=
  (w.findVariable v).bind (·.definition)

def variableName (w : Workspace α) (v : VarId) : String := ((w.findVariable v).map (·.name)).getD ""

def familyName (w : Workspace α) (f : FamilyId) : String := ((w.findFamily f).map (·.name)).getD ""

def sequenceName (w : Workspace α) (s : SequenceId) : String :=
  ((w.findSequence s).map (·.name)).getD ""

/-- The current members of a family. -/
def members (w : Workspace α) (f : FamilyId) : List VarId :=
  ((w.findFamily f).map (·.members)).getD []

def sequenceMembers (w : Workspace α) (s : SequenceId) : List VarId :=
  ((w.findSequence s).map (·.members)).getD []

/-- The text by which a selected member is read. -/
def selectedName (w : Workspace α) (f : FamilyId) (index : VarId) : String :=
  w.familyName f ++ "[" ++ w.variableName index ++ "]"

/-- All variables of a model: members of sequences, plain variables, members of families. -/
def allVariables (w : Workspace α) (m : ModelId) : List VarId :=
  match w.findModel m with
  | none => []
  | some model =>
    model.sequences.flatMap w.sequenceMembers ++ model.vars ++
      model.families.flatMap w.members

/-- The position of an operator name in the table. -/
def operatorIndex? (w : Workspace α) (name : String) : Option Nat := w.operators.idxOf? name

/-- Enters an operator name unless the table has it. -/
def registerOperator (w : Workspace α) (name : String) : Workspace α :=
  if w.operators.contains name then w else { w with operators := w.operators ++ [name] }

section

variable (w : Workspace α) (name : String)

@[simp] theorem registerOperator_vars : (w.registerOperator name).vars = w.vars := by
  unfold registerOperator
  split <;> rfl

@[simp] theorem registerOperator_families : (w.registerOperator name).families = w.families := by
  unfold registerOperator
  split <;> rfl

@[simp] theorem registerOperator_sequences : (w.registerOperator name).sequences = w.sequences := by
  unfold registerOperator
  split <;> rfl

@[simp] theorem registerOperator_models : (w.registerOperator name).models = w.models := by
  unfold registerOperator
  split <;> rfl

@[simp] theorem registerOperator_nextNode : (w.registerOperator name).nextNode = w.nextNode := by
  unfold registerOperator
  split <;> rfl

theorem registerOperator_operators : (w.registerOperator name).operators =
    if name ∈ w.operators then w.operators else w.operators ++ [name] := by
  unfold registerOperator
  by_cases h : name ∈ w.operators <;> simp [h]

theorem mem_registerOperator : name ∈ (w.registerOperator name).operators := by
  rw [registerOperator_operators]
  split <;> simp [*]

end

def modifyModel (w : Workspace α) (m : ModelId) (f : Model α → Model α) : Workspace α :=
  { w with models := w.models.modify m.index f }

/-- What a mention stands for: the variable itself, or the current members of the family. -/
def mentioned (w : Workspace α) : Term.Mention → List VarId
  | .variable v => [v]
  | .family f => w.members f

/-- The variables that a term reads: those it mentions, index variables, and all current members
of the families it selects from. -/
def reads (w : Workspace α) (t : Term α) : List VarId := t.mentions.flatMap w.mentioned

/-- The variables that the definition of `v` reads. -/
def dependencies (w : Workspace α) (v : VarId) : List VarId :=
  ((w.definition? v).map w.reads).getD []

end Workspace

namespace Variable

variable {α : Type} [Scalar α]

def isDefined (v : Variable α) : Bool := v.definition.isSome

/-- Both bounds are the same number. -/
def isFixed (v : Variable α) : Bool := Scalar.eq v.lower v.upper

/-- The bounds of a variable for which none are given. -/
def defaultBounds : VariableKind → α × α
  | .boolean => (Scalar.zero, Scalar.one)
  | _ => (Scalar.negInf, Scalar.posInf)

end Variable

end DecisionModel
