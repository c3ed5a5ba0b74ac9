import DecisionModel.Tolerant.Encoding

/-!
# SCIP

SCIP takes mixed-integer programs with products, powers and absolute values, so the tolerant
lowering hands it its ranges almost as they are. `Scip.Call` is a call into the solver; every call
is kept, in order. Parameters are set before the model is lowered, because the tolerance is the
solver's own feasibility tolerance. `Scip.solve` runs the search and reads the solution back.
-/

namespace DecisionModel.Scip

open Tolerant

variable {α : Type} [Scalar α]

/-- A call into the solver. -/
inductive Call (α : Type) where
  | newModel (name : String)
  | hideOutput
  | setParameter (name : String) (value : Setting α)
  /-- Without a bound on a side where none is given. -/
  | addVariable (name : String) (kind : Kind) (lower upper : Option α)
  | addConstraint (r : Relation (Number α)) (name : String)
  | setObjective (h : Handle (Number α)) (sense : Sense)
  | optimize
deriving Repr

/-- The letter of a kind of variables. -/
def kindLetter : Kind → String
  | .continuous => "C"
  | .integer => "I"
  | .binary => "B"

def boundText (bound : Option α) : String := (bound.map Scalar.text).getD "none"

def Call.texts : Call α → List String
  | .newModel name => ["Model", name]
  | .hideOutput => ["hideOutput"]
  | .setParameter name value => ["setParam", name, value.write]
  | .addVariable name kind lower upper =>
    ["addVar", name, kindLetter kind, boundText lower, boundText upper]
  | .addConstraint r name => ["addCons", r.text, name]
  | .setObjective h sense => ["setObjective", h.text, sense.tag]
  | .optimize => ["optimize"]

/-- The solver as it has been called: the calls, and the parameters they set. -/
structure Solver (α : Type) where
  calls : Array (Call α) := #[]
  parameters : List (String × Setting α) := []
deriving Repr

abbrev ScipM (α β : Type) : Type := TolerantM α (Solver α) β

abbrev ScipState (α : Type) : Type := LoweringState (Number α) (Encoding α (Solver α))

def Solver.call (s : Solver α) (c : Call α) : Solver α := { s with calls := s.calls.push c }

def call (c : Call α) : ScipM α Unit := modifyOwn (·.call c)

/-- The parameter that holds the feasibility tolerance. -/
def toleranceParameter : String := "numerics/feastol"

/-- Nothing lowered yet; the feasibility tolerance is a millionth. -/
def initial : ScipState α :=
  { solver :=
      { epsilon := realZero
        solver :=
          { parameters := [(toleranceParameter, .number (.real (Scalar.nearest (1 / 1000000))))] } } }

def setParameter (name : String) (value : Setting α) : ScipM α Unit := do
  call (.setParameter name value)
  modifyOwn fun s => { s with parameters := (name, value) :: s.parameters }

/-- The feasibility tolerance as it is set. -/
def tolerance : ScipM α (Number α) := do
  let e ← getEncoding
  let setting := (Table.get? e.solver.parameters toleranceParameter).getD .absent
  match setting.toNumber with
  | .ok x => return x
  | .error found => .fail (.badTolerance found)

def newVariable (kind : Kind) (lower upper : α) (name : String) :
    ScipM α (Handle (Number α)) := do
  let lower := if (Scalar.exact lower).eq .negInf then none else some lower
  let upper := if (Scalar.exact upper).eq .posInf then none else some upper
  call (.addVariable name kind lower upper)
  LowerM.leaf name (kind != .continuous)

/-- A range is one equation, or a constraint for each of its finite sides. -/
def addRange (h : Handle (Number α)) (lower upper : Number α) (name : String) :
    ScipM α Unit := do
  if Numeral.holds .eq lower upper then call (.addConstraint ⟨.eq, h, .const lower⟩ name)
  else
    if !lower.exact.eq .negInf then
      call (.addConstraint ⟨.ge, h, .const lower⟩ (name ++ "_lb"))
    if !upper.exact.eq .posInf then
      call (.addConstraint ⟨.le, h, .const upper⟩ (name ++ "_ub"))

def power (base : Handle (Number α)) (exponent : α) : ScipM α (Handle (Number α)) :=
  LowerM.node .pow [base, scalar exponent]

/-- A quotient as a product with a reciprocal. -/
def quotient (x y : Handle (Number α)) : ScipM α (Handle (Number α)) := do
  let reciprocal ← power y (Scalar.nearest (-1))
  LowerM.mul x reciprocal

def total : List (Handle (Number α)) → ScipM α (Handle (Number α))
  | [] => return zero
  | hs => LowerM.node .total hs

def primitives : Primitives α (Solver α) where
  name := "scip"
  newVariable := newVariable
  addRange := addRange
  absolute h := LowerM.node .abs [h]
  power := power
  gate := LowerM.mul
  quotient := quotient
  total := total
  tolerance := tolerance
  setObjective h sense := call (.setObjective h sense)

/-- The name that the solver's model gets. -/
def modelName : String := "cpmodel"

/-- Opens a solver model and sets its parameters. -/
def openModel (c : Config α) : ScipM α Unit := do
  call (.newModel modelName)
  if c.verbosity < 2 then call .hideOutput
  c.options.forM fun (name, value) => setParameter name value

/-- Lowers the model into the solver model. -/
def lowerModel (c : Context α) : ScipM α Unit := Tolerant.lowerModel primitives c

/-- What the solver reports after its search. -/
structure Report (α : Type) where
  status : String
  nodes : Int
  solutions : Int
  objective : Number α
  value : Handle (Number α) → Number α

/-- Statuses of a search that was stopped early. -/
def limitStatuses : List String :=
  ["timelimit", "nodelimit", "totalnodelimit", "stallnodelimit", "memlimit", "gaplimit",
    "sollimit", "bestsollimit", "restartlimit", "primallimit", "duallimit", "userinterrupt"]

/-- The status of the solution, unknown if there is none, or why the search failed. -/
def Report.verdict (r : Report α) : Except SolveError Status :=
  if r.status = "optimal" then .ok .optimal
  else if r.status = "infeasible" then .error (.infeasible "SCIP")
  else if r.status = "unbounded" ∨ r.status = "inforunbd" then
    .error (.unboundedStatus "SCIP" r.status)
  else if r.status ∈ limitStatuses ∧ 0 < r.solutions then .ok .feasible
  else .ok .unknown

/-- The value of a handle: a number is its own value, as a scalar. -/
def Report.valueOf (r : Report α) (h : Handle (Number α)) : Except SolveError (Number α) :=
  match h.number? with
  | some x => .real <$> SolveError.lift x.toScalar?
  | none => .ok (r.value h)

def callWhileSolving (c : Call α) :
    SolveM (Number α) (Encoding α (Solver α)) Unit :=
  modify fun s => { s with solver := { s.solver with solver := s.solver.solver.call c } }

/-- Runs the search, which reports `r`, and reads the solution back. -/
def solve (c : Context α) (r : Report α) :
    SolveM (Number α) (Encoding α (Solver α)) (Solution α) := do
  .ofExcept (← get).ensureSatisfiable
  if let some seconds := c.config.timeLimit then
    callWhileSolving (.setParameter "limits/time" (.number seconds))
  SolveM.log c.config 1 "Starting SCIP solver..."
  callWhileSolving .optimize
  SolveM.log c.config 1 ("SCIP finished with status " ++ r.status ++ " in 0.000s")
  SolveM.log c.config 2 ("  Nodes: " ++ toString r.nodes)
  SolveM.log c.config 2 ("  Solutions found: " ++ toString r.solutions)
  match ← .ofExcept r.verdict with
  | .unknown => return { model := c.model, status := .unknown }
  | status =>
    let s ← get
    .ofExcept (Readout.solution c s r.valueOf status (s.solver.objective.map fun _ => r.objective))

end DecisionModel.Scip
