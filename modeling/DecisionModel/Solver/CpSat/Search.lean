import DecisionModel.Solver.CpSat.Encoding

/-!
# CP-SAT: search

`CpSat.solve` sets the solver's parameters, runs the search and reads the solution back.
-/

namespace DecisionModel.CpSat

variable {α : Type} [Scalar α]

/-- How a search ended. -/
inductive Verdict where
  | optimal
  | feasible
  | infeasible
  | modelInvalid
  /-- Without a result; the solver's own word for it. -/
  | undecided (text : String)
deriving DecidableEq, Repr

def Verdict.text : Verdict → String
  | optimal => "OPTIMAL"
  | feasible => "FEASIBLE"
  | infeasible => "INFEASIBLE"
  | modelInvalid => "MODEL_INVALID"
  | undecided text => text

/-- The verdict that a text names. -/
def Verdict.ofText (text : String) : Verdict :=
  ([optimal, feasible, infeasible, modelInvalid].find? (·.text = text)).getD (undecided text)

/-- What the solver reports after its search. -/
structure Report (α : Type) where
  verdict : Verdict
  /-- What is wrong with an invalid model. -/
  complaint : String
  objective : Number α
  value : Expr → Number α

/-- The status of the solution, unknown if there is none, or why the search failed. -/
def Report.status (r : Report α) : Except SolveError Status :=
  match r.verdict with
  | .optimal => .ok .optimal
  | .feasible => .ok .feasible
  | .infeasible => .error (.infeasible "OR-Tools")
  | .modelInvalid => .error (.rejectedModel "OR-Tools" r.complaint)
  | .undecided _ => .ok .unknown

/-- The value of a handle as a scalar: a number is its own value. -/
def Report.valueOf (r : Report α) (h : Expr) : Except SolveError (Number α) :=
  let value : Number α := match h.number? with
    | some n => .int n
    | none => r.value h
  .real <$> SolveError.lift value.toScalar?

abbrev SearchM (β : Type) : Type := SolveM Int Solver β

def callWhileSolving (c : Call) : SearchM Unit :=
  modify fun s => { s with solver := { s.solver with calls := s.solver.calls.push c } }

/-- Sets the parameters that the configuration asks for. -/
def configure (c : Config α) : SearchM Unit := do
  if let some seconds := c.timeLimit then
    callWhileSolving (.parameter "max_time_in_seconds" seconds.text)
  if 2 ≤ c.verbosity then callWhileSolving (.parameter "log_search_progress" "true")
  c.options.forM fun (name, value) => callWhileSolving (.parameter name value.write)

/-- Runs the search, which reports `r`, and reads the solution back. -/
def solve (c : Context α) (r : Report α) : SearchM (Solution α) := do
  .ofExcept (← get).ensureSatisfiable
  configure c.config
  SolveM.log c.config 1 "Starting OR-Tools solver..."
  callWhileSolving .solve
  SolveM.log c.config 1 ("Solver finished with status: " ++ r.verdict.text ++ " in 0.000s")
  match ← .ofExcept r.status with
  | .unknown => return { model := c.model, status := .unknown }
  | status =>
    let s ← get
    let objective := if s.solver.hasObjective then some r.objective else none
    .ofExcept (Readout.solution c s r.valueOf status objective)

end DecisionModel.CpSat
