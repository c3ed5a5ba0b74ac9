import DecisionModel.Number.Mixed
import DecisionModel.Term.Basic

/-!
# Solver handles

A handle is what a term becomes for a solver: a folded number, a variable of the solver, or a node
over handles. Variables and nodes have an identity, so that tables about them survive two handles
that print alike. A relation compares two handles and is what solvers take as a constraint.
-/

namespace DecisionModel

/-- The identity of a solver variable or node. -/
structure HandleId where
  index : Nat
deriving DecidableEq, Repr, Inhabited, BEq

/-- The functions that solver nodes apply. -/
inductive SolverFunction where
  | add
  | sub
  | mul
  | div
  | pow
  /-- A quotient that is written by its name. -/
  | namedDiv
  /-- A power that is written by its name. -/
  | namedPow
  | neg
  | abs
  /-- A sum over a list. -/
  | total
  | min
  | max
  | not
  | and
  | or
  | ite
  /-- Whether the first argument is among the others. -/
  | isIn
  /-- The third argument if the comparison holds of the first two, else the fourth. -/
  | choose (c : Comparison)
  /-- An integer taken as a real number. -/
  | toReal
  /-- A constant quotient; no arguments. -/
  | quotient (q : Rat)
deriving DecidableEq, Repr, Inhabited

/-- A number or term of a solver whose numbers are `ν`. -/
inductive Handle (ν : Type) where
  | const (x : ν)
  /-- A variable of the solver, integral or real. -/
  | leaf (id : HandleId) (name : String) (integral : Bool)
  | node (id : HandleId) (f : SolverFunction) (args : List (Handle ν))
deriving Repr, Inhabited

/-- A quotient with its denominator always written. -/
def quotientText (q : Rat) : String := toString q.num ++ "/" ++ toString q.den

/-- A list of texts in square brackets. -/
def bracketed (texts : List String) : String := "[" ++ " ".intercalate texts ++ "]"

namespace SolverFunction

def symbol : SolverFunction → String
  | add => "+"
  | sub => "-"
  | mul => "*"
  | div => "/"
  | pow => "**"
  | namedDiv => "div"
  | namedPow => "pow"
  | neg => "neg"
  | abs => "abs"
  | total => "quicksum"
  | min => "min"
  | max => "max"
  | not => "not"
  | and => "and"
  | or => "or"
  | ite => "ite"
  | isIn => "in"
  | choose _ => "if"
  | toReal => "toreal"
  | quotient _ => "real"

/-- The text of a node from those of its arguments. -/
def write (f : SolverFunction) (args : List String) : String :=
  let parts := match f, args with
    | isIn, value :: values => [value, bracketed values]
    | choose c, x :: y :: rest => ("(" ++ c.symbol ++ " " ++ x ++ " " ++ y ++ ")") :: rest
    | quotient q, _ => [quotientText q]
    | _, args => args
  "(" ++ " ".intercalate (f.symbol :: parts) ++ ")"

end SolverFunction

namespace Handle

variable {ν : Type}

/-- The folded number, if the handle is one. -/
def number? : Handle ν → Option ν
  | const x => some x
  | _ => none

def isNumber : Handle ν → Bool
  | const _ => true
  | _ => false

/-- The identity of a variable or node. -/
def id? : Handle ν → Option HandleId
  | const _ => none
  | leaf id _ _ => some id
  | node id _ _ => some id

def isLeaf : Handle ν → Bool
  | leaf .. => true
  | _ => false

/-- How simple a handle is as a term: a variable is simpler than a node, and a number is none. -/
def simplicity : Handle ν → Nat
  | const _ => 0
  | node .. => 1
  | leaf .. => 2

mutual

def text [Numeral ν] : Handle ν → String
  | const x => Numeral.text x
  | leaf _ name _ => name
  | node _ f args => f.write (texts args)

def texts [Numeral ν] : List (Handle ν) → List String
  | [] => []
  | h :: hs => h.text :: texts hs

end

end Handle

/-- A comparison between two handles, as solvers take it for a constraint. -/
structure Relation (ν : Type) where
  comparison : Comparison
  lhs : Handle ν
  rhs : Handle ν
deriving Repr, Inhabited

namespace Relation

variable {ν : Type}

/-- The comparison of two handles with the simpler term on the left: a variable before a node, and
either before a number. -/
def of (c : Comparison) (x y : Handle ν) : Relation ν :=
  if x.simplicity < y.simplicity then ⟨c.swap, y, x⟩ else ⟨c, x, y⟩

def text [Numeral ν] (r : Relation ν) : String :=
  "(" ++ r.comparison.symbol ++ " " ++ r.lhs.text ++ " " ++ r.rhs.text ++ ")"

end Relation

end DecisionModel
