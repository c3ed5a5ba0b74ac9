import DecisionModel.Number.Scalar

/-!
# Operators

The operators of expression nodes. Besides arithmetic, comparisons and connectives there is a
wrapper around a single operand, a reference to an external collection, the reading of one entry
of it, and an open family of operators known by name.
-/

namespace DecisionModel

/-- The six comparisons. -/
inductive Comparison where
  | lt
  | le
  | gt
  | ge
  | eq
  | ne
deriving DecidableEq, Repr, Inhabited

namespace Comparison

/-- The comparison that holds exactly when this one does not. -/
def negate : Comparison → Comparison
  | lt => ge
  | le => gt
  | gt => le
  | ge => lt
  | eq => ne
  | ne => eq

/-- The same comparison with its sides exchanged. -/
def swap : Comparison → Comparison
  | lt => gt
  | le => ge
  | gt => lt
  | ge => le
  | eq => eq
  | ne => ne

def symbol : Comparison → String
  | lt => "<"
  | le => "<="
  | gt => ">"
  | ge => ">="
  | eq => "=="
  | ne => "!="

def tag : Comparison → String
  | lt => "less_than"
  | le => "less_or_equal"
  | gt => "greater_than"
  | ge => "greater_or_equal"
  | eq => "equal"
  | ne => "not_equal"

/-- Whether the comparison holds of two exact numbers. -/
def holdsExactly : Comparison → Exact → Exact → Bool
  | lt, x, y => x.lt y
  | le, x, y => x.le y
  | gt, x, y => y.lt x
  | ge, x, y => y.le x
  | eq, x, y => x.eq y
  | ne, x, y => !x.eq y

/-- Whether the comparison holds of two scalars. -/
def holds {α : Type} [Scalar α] (c : Comparison) (x y : α) : Bool :=
  c.holdsExactly (Scalar.exact x) (Scalar.exact y)

end Comparison

/-- The tag of an expression node. -/
inductive Operator where
  /-- The operand itself. -/
  | wrapper
  | negation
  | complement
  | conjunction
  | disjunction
  | sum
  | difference
  | product
  | quotient
  /-- An operator known by its name. -/
  | custom (name : String)
  | comparison (c : Comparison)
  /-- The external collection stored under the operand. -/
  | collection
  /-- One entry of the collection in the first operand, counted from one by the second. -/
  | entry
deriving DecidableEq, Repr, Inhabited

namespace Operator

def tag : Operator → String
  | wrapper => "none"
  | negation => "negate"
  | complement => "logical_not"
  | conjunction => "logical_and"
  | disjunction => "logical_or"
  | sum => "add"
  | difference => "subtract"
  | product => "multiply"
  | quotient => "divide"
  | custom _ => "custom"
  | comparison c => c.tag
  | collection => "collection"
  | entry => "at"

/-- Operators whose value is a plain number. -/
def isArithmetic : Operator → Bool
  | negation | sum | difference | product | quotient => true
  | _ => false

/-- The named operators that may read a whole collection. -/
def collectionReaders : List String :=
  ["count", "sum", "avg", "min", "max", "element_of", "not_element_of", "at"]

/-- The operand counts of the named operators that have a fixed one. -/
def arity? : String → Option Nat
  | "abs" => some 1
  | "pow" => some 2
  | "if_then_else" => some 3
  | _ => none

end Operator

end DecisionModel
