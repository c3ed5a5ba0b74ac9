import DecisionModel.Term.Operator

/-!
# Terms

A term is a constant, a variable, a member of a family selected by a variable, or an expression
node: an operator with its operands. Variables, families and models are named by their positions
in the tables of a workspace.

Selected members and nodes carry an identity. Two nodes built separately differ in it even when
they look the same, and a node used in several places keeps it; lowering translates each node
once, by identity.
-/

namespace DecisionModel

structure VarId where
  index : Nat
deriving DecidableEq, Repr, Inhabited, BEq, Hashable

structure FamilyId where
  index : Nat
deriving DecidableEq, Repr, Inhabited, BEq

structure SequenceId where
  index : Nat
deriving DecidableEq, Repr, Inhabited, BEq

structure ModelId where
  index : Nat
deriving DecidableEq, Repr, Inhabited, BEq

/-- The identity of an expression node or of a selected member. -/
structure NodeId where
  index : Nat
deriving DecidableEq, Repr, Inhabited, BEq

/-- An operand of the modelling language. -/
inductive Term (α : Type) where
  | const (x : α)
  | var (v : VarId)
  /-- The member of a family at the position, counted from zero, that a variable gives. -/
  | selected (id : NodeId) (family : FamilyId) (index : VarId)
  | node (id : NodeId) (op : Operator) (operands : List (Term α))
deriving Repr, Inhabited

namespace Term

variable {α : Type}

def isNode : Term α → Bool
  | node .. => true
  | _ => false

/-- The operator of an expression node. -/
def operator? : Term α → Option Operator
  | node _ op _ => some op
  | _ => none

def operands : Term α → List (Term α)
  | node _ _ operands => operands
  | _ => []

def isConst : Term α → Bool
  | const _ => true
  | _ => false

/-- A reference to an external collection. -/
def isCollection (t : Term α) : Bool := t.operator? == some .collection

/-- The operand of a wrapper, and any other term itself. One layer is taken off. -/
def unwrapped : Term α → Term α
  | node _ .wrapper (t :: _) => t
  | t => t

/-- What a term refers to outside itself. -/
inductive Mention where
  | variable (v : VarId)
  | family (f : FamilyId)
deriving DecidableEq, Repr

mutual

/-- The variables and families that occur in a term, an index variable before its family. -/
def mentions : Term α → List Mention
  | const _ => []
  | var v => [.variable v]
  | selected _ f i => [.variable i, .family f]
  | node _ _ operands => mentionsAll operands

def mentionsAll : List (Term α) → List Mention
  | [] => []
  | t :: ts => t.mentions ++ mentionsAll ts

end

mutual

/-- A copy whose nodes have the identities from `next` on, in the order in which they are left,
together with the first identity not used. Variables and selected members are shared. -/
def copy (next : Nat) : Term α → Term α × Nat
  | node _ op operands =>
    let (operands, next) := copyAll next operands
    (node ⟨next⟩ op operands, next + 1)
  | t => (t, next)

def copyAll (next : Nat) : List (Term α) → List (Term α) × Nat
  | [] => ([], next)
  | t :: ts =>
    let (t, next) := t.copy next
    let (ts, next) := copyAll next ts
    (t :: ts, next)

end

end Term

/-- The name of the kind of a term in error texts. -/
def Term.kindName {α : Type} : Term α → String
  | const _ => "float"
  | var _ => "Variable"
  | selected .. => "IndexedVariable"
  | node .. => "Expression"

/-- The name of the kind of a literal in error texts. -/
def Literal.kindName {α : Type} : Literal α → String
  | int _ => "int"
  | real _ => "float"
  | truth _ => "bool"
  | absent => "NoneType"

/-- What is given where a term is meant: a term, a number or its absence as it was written, or
something else, by the name of its kind and its description. -/
inductive Input (α : Type) where
  | term (t : Term α)
  | literal (l : Literal α)
  | other (kind description : String)
deriving Repr, Inhabited

def Input.kindName {α : Type} : Input α → String
  | term t => t.kindName
  | literal l => l.kindName
  | other kind _ => kind

end DecisionModel
