import DecisionModel.Builder.Expression

/-!
# Building named functions

Aggregates and readings take either inline operands or one reference to an external collection,
never both. Reading by `at` counts from one.
-/

namespace DecisionModel.Build

variable {α : Type} [Scalar α]

/-- Whether there is a collection among the operands. They are converted in order, up to the first
collection. -/
def anyCollection : List (Input α) → Build α Bool
  | [] => return false
  | x :: xs => do
    let t ← operand x
    if t.isCollection then return true else anyCollection xs

/-- Refuses a collection beside other operands. -/
def checkSingleCollection (name : String) (operands : List (Input α)) : Build α Unit := do
  if 1 < operands.length then
    if ← anyCollection operands then refuse (.mixedCollection name)

/-- The external collection stored under a key. -/
def collection (key : Input α) : Build α (Term α) := do
  let key ← operand key
  if key.isCollection then refuse .collectionAsKey
  node .collection [key]

/-- An aggregate of inline operands or of one collection. -/
def aggregate (name : String) (operands : List (Input α)) : Build α (Term α) := do
  checkSingleCollection name operands
  custom name operands

def sumOf : List (Input α) → Build α (Term α) := aggregate "sum"

def average : List (Input α) → Build α (Term α) := aggregate "avg"

def count : List (Input α) → Build α (Term α) := aggregate "count"

def minimum : List (Input α) → Build α (Term α) := aggregate "min"

def maximum : List (Input α) → Build α (Term α) := aggregate "max"

def absolute (x : Input α) : Build α (Term α) := custom "abs" [x]

/-- The absolute value, computed for a number. -/
def magnitude (x : Input α) : Build α (Input α) :=
  match number? x with
  | some n => return .literal n.abs.toLiteral
  | none => .term <$> absolute x

def power (base exponent : Input α) : Build α (Term α) := custom "pow" [base, exponent]

def squareRoot (x : Input α) : Build α (Term α) :=
  power x (.literal (.real (Scalar.nearest (1 / 2))))

def cubeRoot (x : Input α) : Build α (Term α) :=
  power x (.literal (.real (Scalar.nearest (1 / 3))))

def ifThenElse (condition thenValue elseValue : Input α) : Build α (Term α) :=
  custom "if_then_else" [condition, thenValue, elseValue]

/-- Pairs of conditions and values, then the value if no condition holds. -/
def firstMatch (operands : List (Input α)) : Build α (Term α) := custom "n_ary_if" operands

/-- Whether a value is among others, or in a collection. -/
def elementOf (value : Input α) (values : List (Input α)) : Build α (Term α) := do
  checkSingleCollection "element_of" values
  custom "element_of" (value :: values)

def notElementOf (value : Input α) (values : List (Input α)) : Build α (Term α) := do
  checkSingleCollection "not_element_of" values
  custom "not_element_of" (value :: values)

/-- The value at a position, among inline values or in a collection. -/
def entryAt (index : Input α) (values : List (Input α)) : Build α (Term α) := do
  match values with
  | [] => refuse .nothingToRead
  | first :: _ =>
    checkSingleCollection "at" values
    let container ← operand first
    if container.isCollection then
      let index ← operand index
      node .entry [container, index]
    else custom "at" (index :: values)

end DecisionModel.Build
