import DecisionModel.Builder.Basic
import DecisionModel.Number.Mixed

/-!
# Building expressions

Arithmetic and comparisons make one node each, and compute where only numbers are given.
Connectives simplify as they build: nested conjunctions and disjunctions are flattened into one
node, and a double complement collapses. Operands are converted from left to right before anything
else happens.
-/

namespace DecisionModel.Build

variable {α : Type} [Scalar α]

/-- A node over operands that are converted in order. -/
def apply (op : Operator) (operands : List (Input α)) : Build α (Term α) := do
  let operands ← operands.mapM operand
  node op operands

/-! ### Arithmetic -/

/-- The number that is given, if it is one. -/
def number? : Input α → Option (Number α)
  | .literal l => l.number?
  | _ => none

/-- Two numbers are computed by `f`; with a term among them a node is made. -/
def calculate (op : Operator) (f : Number α → Number α → Number α) (x y : Input α) :
    Build α (Input α) :=
  match number? x, number? y with
  | some m, some n => return .literal (f m n).toLiteral
  | _, _ => .term <$> apply op [x, y]

def add : Input α → Input α → Build α (Input α) := calculate .sum Number.add

def subtract : Input α → Input α → Build α (Input α) := calculate .difference Number.sub

def multiply : Input α → Input α → Build α (Input α) := calculate .product Number.mul

def divide : Input α → Input α → Build α (Input α) := calculate .quotient Number.div

def negate (x : Input α) : Build α (Input α) :=
  match number? x with
  | some n => return .literal n.neg.toLiteral
  | none => .term <$> apply .negation [x]

/-! ### Comparisons -/

/-- A comparison in the order given. -/
def compare (c : Comparison) (x y : Input α) : Build α (Term α) := apply (.comparison c) [x, y]

/-- A comparison with something that is no operand: it differs from everything, and has no place in
the order of numbers. -/
def relateToOther (c : Comparison) (kind : String) : Build α (Input α) :=
  match c with
  | .eq => return .literal (.truth false)
  | .ne => return .literal (.truth true)
  | _ => refuse (.unsupportedOperand kind)

/-- A comparison of two literals, which are equal if they are the same number or both absent. -/
def relateLiterals (c : Comparison) (l r : Literal α) : Build α (Input α) :=
  match l.number?, r.number?, c with
  | some m, some n, c => return .literal (.truth (c.holdsExactly m.exact n.exact))
  | none, none, .eq => return .literal (.truth true)
  | none, none, .ne => return .literal (.truth false)
  | _, _, c => relateToOther c (Literal.absent : Literal α).kindName

/-- A comparison of a term with a literal. -/
def relateToLiteral (c : Comparison) (t : Term α) (l : Literal α) : Build α (Input α) :=
  match l with
  | .absent => relateToOther c l.kindName
  | l => .term <$> compare c (.term t) (.literal l)

/-- A comparison written between its sides. A literal on the left of a term goes to the right, and
the comparison is turned around. -/
def relate (c : Comparison) : Input α → Input α → Build α (Input α)
  | .literal l, .literal r => relateLiterals c l r
  | .literal l, .term t => relateToLiteral c.swap t l
  | .term t, .literal l => relateToLiteral c t l
  | .term s, .term t => .term <$> compare c (.term s) (.term t)
  | .other kind _, _ | _, .other kind _ => relateToOther c kind

/-! ### Connectives -/

/-- What a term contributes to a connective: its own operands if it is the same connective. -/
def spliced (op : Operator) (t : Term α) : List (Term α) :=
  if t.operator? = some op then t.operands else [t]

/-- A connective of two terms. -/
def connect (op : Operator) (x y : Input α) : Build α (Term α) := do
  let x ← operand x
  let y ← operand y
  node op (spliced op x ++ spliced op y)

def conjoin (x y : Input α) : Build α (Term α) := connect .conjunction x y

def disjoin (x y : Input α) : Build α (Term α) := connect .disjunction x y

/-- The complement; that of a complement is its operand. -/
def complement (x : Input α) : Build α (Term α) := do
  match ← operand x with
  | .node _ .complement (t :: _) => wrapTerm t
  | .node _ .complement [] => lift (.error .missingOperand)
  | t => node .complement [t]

/-- Material implication, as a disjunction with the complement of the condition. -/
def implies (condition consequence : Input α) : Build α (Term α) := do
  let negated ← complement condition
  disjoin (.term negated) consequence

/-- The condition and the consequence of a disjunction of the form that `implies` builds. A
constant condition is not recognised. -/
def implication? (x : Input α) : Build α (Option (Term α × Term α)) :=
  match x with
  | .term (.node _ .disjunction [.node _ .complement (condition :: _), consequence]) => do
    if condition.isConst then return none
    let condition ← wrapTerm condition
    let consequence ← wrapTerm consequence
    return some (condition, consequence)
  | .term (.node _ .disjunction [.node _ .complement [], _]) => lift (.error .missingOperand)
  | _ => return none

/-! ### Copies and named operators -/

/-- A copy of a term with nodes of its own; what is no term is its own copy. -/
def copy (x : Input α) : Build α (Input α) := do
  match x with
  | .term t =>
    let w ← get
    let (t, next) := t.copy w.nextNode
    set { w with nextNode := next }
    return .term t
  | x => return x

/-- A node of a named operator. The operands are checked before the name is entered in the table
of operators. -/
def custom (name : String) (operands : List (Input α)) : Build α (Term α) := do
  let operands ← operands.mapM operand
  let count := operands.length
  if !Operator.collectionReaders.contains name && operands.any Term.isCollection then
    refuse (.refusesCollection name)
  if let some expected := Operator.arity? name then
    if count ≠ expected then refuse (.arity name expected count)
  if name = "n_ary_if" ∧ (count < 3 ∨ count % 2 = 0) then refuse (.conditionalShape count)
  if name ∈ ["min", "max", "avg", "element_of", "not_element_of", "at"] ∧ count = 0 then
    refuse (.needsOperand name)
  modify (·.registerOperator name)
  node (.custom name) operands

/-- The position of an operator name in the table, which it enters if it is new. -/
def operatorIndex (name : String) : Build α Nat := do
  modify (·.registerOperator name)
  let w ← get
  return (w.operatorIndex? name).getD 0

/-- The operator name at a position of the table. -/
def operatorName (position : Int) : Build α String := do
  itemAt (← get).operators position

end DecisionModel.Build
