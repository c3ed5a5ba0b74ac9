import DecisionModel.Workspace.Text

/-!
# Building

Everything that makes terms and models runs in `Build`: it changes a workspace and may refuse.
`BuildError` lists the reasons for a refusal. A refused call keeps whatever it changed before the
refusal, so that each operation has to show that it changes nothing it should not.
-/

namespace DecisionModel

/-- Why a term or a model entity is refused. -/
inductive BuildError (α : Type) where
  | duplicateName (space : Namespace) (name : String)
  | emptyDomain (name : String) (lower upper : α)
  /-- The definition of a new member reads its own family. -/
  | ownFamily (name family : String)
  | sequenceLength (name : String) (given : Literal α)
  | notATerm (text : String)
  | notBoolean (text : String)
  | constantConstraint (text : String)
  | negativeKeyCount (given : Literal α)
  | refusesCollection (operator : String)
  | arity (operator : String) (expected found : Nat)
  | conditionalShape (found : Nat)
  | needsOperand (operator : String)
  | collectionAsKey
  | mixedCollection (operator : String)
  | nothingToRead
  /-- Something of this kind was given where an operand is needed. -/
  | unsupportedOperand (kind : String)
  /-- Something of this kind was compared with an integer. -/
  | notOrdered (kind : String)
  /-- A family was indexed with something that is neither a position nor a variable. -/
  | familyIndex (family kind : String)
  /-- A sequence was indexed with something that is no position. -/
  | sequenceIndex (kind : String)
  /-- A position beyond the ends. -/
  | badPosition
  /-- A position that no table is long enough for. -/
  | hugePosition
  | valueCount (sequence : String) (expected found : Nat)
  | fault (f : Fault)
deriving Repr

/-- The wording of a refusal. -/
def BuildError.message {α : Type} [Scalar α] : BuildError α → String
  | duplicateName space name => "duplicate " ++ space.label ++ " name: " ++ name
  | emptyDomain name lower upper =>
    "variable " ++ name ++ " has empty domain [" ++ Scalar.text lower ++ ", " ++
      Scalar.text upper ++ "]"
  | ownFamily name family => "variable " ++ name ++ " is deduced from its own family " ++ family
  | sequenceLength name given =>
    "sequence " ++ name ++ " must have a positive length, got " ++ given.text
  | notATerm text => "constraint must be an expression, got " ++ text
  | notBoolean text => "constraint must be boolean-valued: " ++ text
  | constantConstraint text => "constraint must not be a constant: " ++ text
  | negativeKeyCount given => "number of keys must be non-negative, got " ++ given.text
  | refusesCollection operator =>
    operator ++ "() does not accept a collection operand; allowed operators: " ++
      ", ".intercalate Operator.collectionReaders
  | arity operator expected found =>
    operator ++ "() takes " ++ toString expected ++ " operands, got " ++ toString found
  | conditionalShape found =>
    "n_ary_if() takes condition/value pairs followed by an else value, got " ++
      toString found ++ " operands"
  | needsOperand operator => operator ++ "() requires at least one operand"
  | collectionAsKey => "collection() key cannot itself be a collection"
  | mixedCollection operator => operator ++ "() takes either one collection or inline operands"
  | nothingToRead => "at() requires values or a collection to read from"
  | unsupportedOperand kind => "Unsupported operand type: " ++ kind
  | notOrdered kind => "'<' not supported between instances of " ++ Text.quoted kind ++ " and 'int'"
  | familyIndex family kind =>
    family ++ "[...] expects an int or a Variable, got " ++ kind
  | sequenceIndex kind => "list indices must be integers or slices, not " ++ kind
  | badPosition => "list index out of range"
  | hugePosition => "cannot fit 'int' into an index-sized integer"
  | valueCount sequence expected found =>
    "sequence " ++ sequence ++ " has " ++ toString expected ++ " members, got " ++
      toString found ++ " values"
  | fault f => f.message

/-- Computations that extend a workspace and may refuse. -/
abbrev Build (α β : Type) : Type := ExceptT (BuildError α) (StateM (Workspace α)) β

namespace Build

variable {α : Type}

def refuse {β : Type} (e : BuildError α) : Build α β := throw e

/-- A result that a fault may have prevented. -/
def lift {β : Type} : Except Fault β → Build α β
  | .ok x => pure x
  | .error f => throw (.fault f)

/-- Positions from this one on, to either side, are beyond any table. -/
def hugePosition : Int := Nat.pow 2 63

/-- The item of a list at a position; negative positions count from the end. -/
def itemAt {β : Type} (items : List β) (position : Int) : Build α β :=
  let index := if position < 0 then position + items.length else position
  match if index < 0 then none else items[index.toNat]? with
  | some item => return item
  | none =>
    if position < -hugePosition ∨ hugePosition ≤ position then refuse .hugePosition
    else refuse .badPosition

/-- A new identity for a node. -/
def freshNode : Build α NodeId := do
  let w ← get
  set { w with nextNode := w.nextNode + 1 }
  return ⟨w.nextNode⟩

/-- A new node with the given operands, whatever they are. -/
def node (op : Operator) (operands : List (Term α)) : Build α (Term α) := do
  let id ← freshNode
  return .node id op operands

/-- The term as a node: a node is left as it is, any other term gets a wrapper. -/
def wrapTerm (t : Term α) : Build α (Term α) :=
  if t.isNode then pure t else node .wrapper [t]

section

variable [Scalar α]

/-- The operand that is given: a term, or the constant of a number. -/
def operand : Input α → Build α (Term α)
  | .term t => pure t
  | .literal l => do
    match ← lift l.toScalar? with
    | some x => return .const x
    | none => refuse (.unsupportedOperand l.kindName)
  | .other kind _ => refuse (.unsupportedOperand kind)

/-- What is given as a node. -/
def wrap (x : Input α) : Build α (Term α) := do wrapTerm (← operand x)

end

end Build

end DecisionModel
