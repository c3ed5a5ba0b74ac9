import DecisionModel.Lowering.Readout

/-!
# The recording back-ends

A recording back-end has no solver behind it: it writes down what it is asked to create and to
post. `plain` encodes arithmetic only, as every back-end does that adds nothing of its own;
`full` makes a node for everything.
-/

namespace DecisionModel.Recording

variable {α : Type} [Scalar α]

/-- What a recording back-end was asked for. -/
inductive Event (α : Type) where
  | variable (kind : VariableKind) (lower upper : α) (name : String)
  | sequence (name : String) (length : Nat)
  | integer (lower upper : Int) (name : String)
  | equal (lhs rhs : Handle (Number α))
  | compare (c : Comparison) (lhs rhs : Handle (Number α))
  | holds (h : Handle (Number α))
  | defined (name : String) (h : Handle (Number α))
  | objective (sense : Sense) (h : Handle (Number α))
  | reify (c : Comparison) (lhs rhs : Handle (Number α))
  | lookup (name : String) (index : Handle (Number α)) (entries : List (Int × Handle (Number α)))
deriving Repr

/-- The entries of a lookup as pairs of position and value. -/
def entriesText (entries : List (Int × Handle (Number α))) : String :=
  bracketed (entries.map fun (position, h) => bracketed [toString position, h.text])

def Event.texts : Event α → List String
  | .variable kind lower upper name =>
    ["variable", kind.tag, Scalar.text lower, Scalar.text upper, name]
  | .sequence name length => ["sequence", name, toString length]
  | .integer lower upper name => ["integer", toString lower, toString upper, name]
  | .equal lhs rhs => ["equal", lhs.text, rhs.text]
  | .compare c lhs rhs => ["compare", c.tag, lhs.text, rhs.text]
  | .holds h => ["true", h.text]
  | .defined name h => ["deduced", name, h.text]
  | .objective sense h => ["objective", sense.tag, h.text]
  | .reify c lhs rhs => ["reify", c.tag, lhs.text, rhs.text]
  | .lookup name index entries => ["lookup", name, index.text, entriesText entries]

/-- The events so far. -/
abbrev Record (α : Type) : Type := Array (Event α)

abbrev RecordM (α β : Type) : Type := LowerM α (Number α) (Record α) β

def record (e : Event α) : RecordM α Unit := LowerM.modifySolver (·.push e)

/-- The name that recording back-ends go by. -/
def backendName : String := "recording"

def newInteger (lower upper : Int) (hint : String) : RecordM α (Handle (Number α)) := do
  let name ← LowerM.auxiliaryName hint
  record (.integer lower upper name)
  LowerM.leaf name true

/-- Records what is posted and encodes arithmetic; refuses all else. -/
def plain : Backend α (Number α) (Record α) where
  name := backendName
  constant x := return .const (.real x)
  constant? x := return some (.const (.real x))
  negate := LowerM.neg
  add := LowerM.add
  subtract := LowerM.sub
  multiply := LowerM.mul
  divide _ _ := Backend.unsupported "Division"
  power _ _ := Backend.unsupported "Power"
  absolute _ := Backend.unsupported "Abs"
  minimum _ := Backend.unsupported "Min"
  maximum _ := Backend.unsupported "Max"
  reify _ _ _ := Backend.unsupported "Comparison"
  complement _ := Backend.unsupported "Not"
  conjoin _ := Backend.unsupported "And"
  disjoin _ := Backend.unsupported "Or"
  conditional _ _ _ := Backend.unsupported "If-then-else"
  firstMatch := Backend.nestedConditionals fun _ _ _ => Backend.unsupported "If-then-else"
  membership _ _ := Backend.unsupported "Set membership"
  lookup _ _ := Backend.unsupported "Element"
  keyedMembership? _ _ _ _ := none
  createVariable v := do
    record (.variable v.kind v.lower v.upper v.name)
    LowerM.leaf v.name (v.kind != .real)
  createSequence name members := do
    record (.sequence name members.length)
    members.mapM fun member => LowerM.leaf member true
  newInteger := newInteger
  postEqual lhs rhs := record (.equal lhs rhs)
  postComparison c lhs rhs := record (.compare c lhs rhs)
  postTrue h := record (.holds h)
  postDefinition name _ h := record (.defined name h)
  postObjective sense h := record (.objective sense h)

def conditional (c t e : Handle (Number α)) : RecordM α (Handle (Number α)) :=
  LowerM.node .ite [c, t, e]

/-- Makes a node for every operator, numbers among its arguments or not. -/
def full : Backend α (Number α) (Record α) :=
  { plain with
    divide := fun x y => LowerM.node .namedDiv [x, y]
    power := fun x y => LowerM.node .namedPow [x, y]
    absolute := fun x => LowerM.node .abs [x]
    minimum := LowerM.node .min
    maximum := LowerM.node .max
    reify := fun c x y => do
      record (.reify c x y)
      LowerM.leaf (← LowerM.auxiliaryName "reify") true
    complement := fun x => LowerM.node .not [x]
    conjoin := LowerM.node .and
    disjoin := LowerM.node .or
    conditional := conditional
    firstMatch := Backend.nestedConditionals conditional
    membership := fun x values => LowerM.node .isIn (x :: values.filterMap id)
    lookup := fun index entries => do
      let name ← LowerM.auxiliaryName "lookup"
      record (.lookup name index entries)
      LowerM.leaf name false }

/-- What a recording back-end is told to answer when it solves. -/
structure Answer (α : Type) where
  /-- The tag of the status. -/
  status : String := Status.optimal.tag
  objective : Option (Number α) := none
  value : Handle (Number α) → Number α

def solve (c : Context α) (s : LoweringState (Number α) (Record α)) (answer : Answer α) :
    Except SolveError (Solution α) := do
  s.ensureSatisfiable
  match Status.ofTag? answer.status with
  | some status => Readout.solution c s (fun h => .ok (answer.value h)) status answer.objective
  | none => .error (.unknownStatus answer.status)

end DecisionModel.Recording
