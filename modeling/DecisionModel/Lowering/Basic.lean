import DecisionModel.Builder.Basic
import DecisionModel.Workspace.Collection
import DecisionModel.Lowering.Handle

/-!
# Lowering: state, errors and configuration

Lowering turns a model into variables and constraints of a solver. It runs in `LowerM`: a state
that survives an error, so that what was done before the error can be seen. The state holds the
handles of variables, a memo of the handles of nodes, the counters for identities and auxiliary
names, the constraints that folded to false, and a part that belongs to the back-end.
-/

namespace DecisionModel

/-- The value of a solver option. -/
inductive Setting (α : Type) where
  | number (x : Number α)
  | text (s : String)
  | list (items : List (Setting α))
  | absent
deriving Repr, Inhabited

namespace Setting

variable {α : Type} [Scalar α]

mutual

/-- The setting as solvers are shown it. -/
def write : Setting α → String
  | number x => x.text
  | text s => s
  | list items => bracketed (writeAll items)
  | absent => "none"

def writeAll : List (Setting α) → List String
  | [] => []
  | s :: rest => s.write :: writeAll rest

end

end Setting

/-- Why a setting is no number. -/
inductive NotANumber where
  | text
  | list
  | absent
deriving DecidableEq, Repr

/-- The number that a setting is. -/
def Setting.toNumber {α : Type} : Setting α → Except NotANumber (Number α)
  | .number x => .ok x
  | .text _ => .error .text
  | .list _ => .error .list
  | .absent => .error .absent

/-- How to lower and to solve. -/
structure Config (α : Type) where
  timeLimit : Option (Number α) := none
  verbosity : Int := 0
  /-- Decimal places kept when values are read back. -/
  precision : Int := 6
  options : List (String × Setting α) := []
  epsilon : Option (Number α) := none

/-- The model to lower, as it stands. -/
structure Context (α : Type) where
  workspace : Workspace α
  model : ModelId
  config : Config α

/-- Why a model cannot be lowered. -/
inductive LoweringError (α : Type) where
  | alreadyLowered (backend : String)
  | unknownVariable (name : String)
  /-- What stands where a term is needed, as it was written. -/
  | unexpected (text : String)
  | bareCollection (text : String)
  | unsupportedOperator (operator backend : String)
  | emptyFamily (text : String)
  | outOfRange (position first last : Int)
  | collection (e : CollectionError)
  | emptyAggregate (operator : String) (key : Int)
  | noLookup (key : String)
  | irreducibleKey (key : String)
  | emptyKeyDomain (key : String) (count : Nat)
  | emptyCollection (key : Int)
  | emptyCollections (first last : Int)
  | divisionByZero
  | variableExponent (backend : String)
  | noPower (base exponent : Number α)
  | fractionalConstant (backend : String) (x : α)
  | realVariable (backend name : String)
  | noIntegerValue (name : String)
  | nonConstantQuotient (backend : String)
  | inexactQuotient (dividend divisor : Int)
  | negativeExponent (backend : String)
  /-- The back-end has no encoding for this. -/
  | unsupported (feature : String)
  /-- A variable without a handle is read where its absence is not expected. -/
  | missingHandle (description : String)
  /-- The tolerance is set to something that is no number. -/
  | badTolerance (found : NotANumber)
  | fault (f : Fault)
deriving Repr

def LoweringError.message {α : Type} [Scalar α] : LoweringError α → String
  | alreadyLowered backend => backend ++ " adapter has already lowered its model"
  | unknownVariable name => "Unknown variable in expression: " ++ name
  | unexpected text => "Unexpected operand: " ++ text
  | bareCollection text => text ++ " can only be used inside a collection-aware operator"
  | unsupportedOperator operator backend =>
    "Custom operator " ++ operator ++ "() not supported by " ++ backend
  | emptyFamily text => text ++ " reads from an empty family"
  | outOfRange position first last =>
    "index " ++ toString position ++ " out of range (" ++ toString first ++ ".." ++
      toString last ++ ")"
  | collection e => e.message
  | emptyAggregate operator key =>
    operator ++ "() is undefined for empty collection at key " ++ toString key
  | noLookup key => "no collection lookup is set for key " ++ key
  | irreducibleKey key =>
    "collection key " ++ key ++ " is not reducible to a single back-end variable"
  | emptyKeyDomain key count =>
    "collection key " ++ key ++ " has no value in [0, " ++ toString count ++ ")"
  | emptyCollection key => "at() reads from empty collection at key " ++ toString key
  | emptyCollections first last =>
    "at() reads from empty collections at keys " ++ toString first ++ ".." ++ toString last
  | divisionByZero => "division by constant zero"
  | variableExponent backend => backend ++ " requires a constant exponent in pow()"
  | noPower base exponent => "pow(" ++ base.quoted ++ ", " ++ exponent.quoted ++ ") is undefined"
  | fractionalConstant backend x =>
    backend ++ " supports only integer constants, got " ++ Scalar.text x
  | realVariable backend name => backend ++ " does not support real variable " ++ name
  | noIntegerValue name => "variable " ++ name ++ " has no integer value"
  | nonConstantQuotient backend =>
    backend ++ " cannot divide non-constant operands: the quotient is not integral"
  | inexactQuotient dividend divisor =>
    toString dividend ++ " / " ++ toString divisor ++ " is not an integer"
  | negativeExponent backend => backend ++ " requires a constant non-negative integer exponent"
  | unsupported feature => feature ++ " not supported by this backend"
  | missingHandle description => description
  | badTolerance .text => "Unknown format code 'g' for object of type 'str'"
  | badTolerance .list => "unsupported format string passed to list.__format__"
  | badTolerance .absent => "unsupported format string passed to NoneType.__format__"
  | fault f => f.message

/-- What lowering has done so far; `σ` is the back-end's part. -/
structure LoweringState (ν σ : Type) where
  /-- The handles of the model's variables, in the order of their creation. -/
  handles : List (VarId × Handle ν) := []
  /-- The handles of the nodes and selected members lowered so far. -/
  memo : List (NodeId × Handle ν) := []
  /-- The least identity not yet given to a handle. -/
  nextHandle : Nat := 0
  /-- How many auxiliary names were made. -/
  auxiliaries : Nat := 0
  /-- The constraints that folded to false. -/
  violated : List String := []
  lowered : Bool := false
  log : List String := []
  solver : σ

/-- Computations of lowering. -/
abbrev LowerM (α ν σ β : Type) : Type := ExceptT (LoweringError α) (StateM (LoweringState ν σ)) β

namespace LowerM

variable {α ν σ : Type}

def fail {β : Type} (e : LoweringError α) : LowerM α ν σ β := throw e

/-- A result that a fault may have prevented. -/
def lift {β : Type} : Except Fault β → LowerM α ν σ β
  | .ok x => pure x
  | .error f => throw (.fault f)

/-- The back-end's part of the state. -/
def getSolver : LowerM α ν σ σ := return (← get).solver

def modifySolver (f : σ → σ) : LowerM α ν σ Unit := modify fun s => { s with solver := f s.solver }

def freshHandle : LowerM α ν σ HandleId := do
  let s ← get
  set { s with nextHandle := s.nextHandle + 1 }
  return ⟨s.nextHandle⟩

/-- A new solver variable. -/
def leaf (name : String) (integral : Bool) : LowerM α ν σ (Handle ν) := do
  let id ← freshHandle
  return .leaf id name integral

/-- A new solver node. -/
def node (f : SolverFunction) (args : List (Handle ν)) : LowerM α ν σ (Handle ν) := do
  let id ← freshHandle
  return .node id f args

/-- An auxiliary name: the hint with the next number. -/
def auxiliaryName (hint : String) : LowerM α ν σ String := do
  let s ← get
  let n := s.auxiliaries + 1
  set { s with auxiliaries := n }
  return hint ++ "#" ++ toString n

/-- Logs a line if the verbosity is at least `level`. The line is made in any case. -/
def log (config : Config α) (level : Int) (line : Except Fault String) : LowerM α ν σ Unit := do
  let line ← lift line
  if level ≤ config.verbosity then modify fun s => { s with log := s.log ++ [line] }

/-- Records a constraint that folded to false. -/
def recordViolated (text : String) : LowerM α ν σ Unit :=
  modify fun s => { s with violated := s.violated ++ [text] }

/-! ### Arithmetic on handles

Two numbers are computed; with a term among them a node is made. -/

variable [Numeral ν]

def binary (f : ν → ν → ν) (symbol : SolverFunction) (x y : Handle ν) :
    LowerM α ν σ (Handle ν) :=
  match x, y with
  | .const a, .const b => return .const (f a b)
  | x, y => node symbol [x, y]

def add (x y : Handle ν) : LowerM α ν σ (Handle ν) := binary Numeral.add .add x y

def sub (x y : Handle ν) : LowerM α ν σ (Handle ν) := binary Numeral.sub .sub x y

def mul (x y : Handle ν) : LowerM α ν σ (Handle ν) := binary Numeral.mul .mul x y

def neg (x : Handle ν) : LowerM α ν σ (Handle ν) :=
  match x with
  | .const a => return .const (Numeral.neg a)
  | x => node .neg [x]

end LowerM

namespace Context

variable {α : Type}

/-- All variables of the model. -/
def vars (c : Context α) : List VarId := c.workspace.allVariables c.model

/-- The collection under an integer key. -/
def collection [Scalar α] {ν σ : Type} (c : Context α) (key : Int) : LowerM α ν σ (List α) :=
  match c.workspace.collection c.model key with
  | .ok xs => LowerM.lift xs
  | .error e => LowerM.fail (.collection e)

def hasLookup (c : Context α) : Bool :=
  ((c.workspace.findModel c.model).bind (·.lookup)).isSome

def keyCount (c : Context α) : Nat := ((c.workspace.findModel c.model).map (·.keyCount)).getD 0

end Context

end DecisionModel
