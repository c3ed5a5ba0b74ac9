import DecisionModel.Solver.Z3.Basic

/-!
# Z3: search

`Z3.solve` hands the collected constraints and the options to a solver, checks them, and reads the
solution back. Values come as integers, quotients or approximations of algebraic numbers.
-/

namespace DecisionModel.Z3

open Tolerant

variable {α : Type} [Scalar α]

/-- The answer to a check. -/
inductive Verdict where
  | sat
  | unsat
  /-- Neither of the two; the solver's own word for it. -/
  | undecided (text : String)
deriving DecidableEq, Repr

def Verdict.text : Verdict → String
  | sat => "sat"
  | unsat => "unsat"
  | undecided text => text

/-- The verdict that a text names. -/
def Verdict.ofText (text : String) : Verdict :=
  if text = sat.text then sat else if text = unsat.text then unsat else undecided text

/-- A value in a model found by the solver. -/
inductive Value where
  | integer (n : Int)
  | quotient (numerator : Int) (denominator : Nat)
  /-- An algebraic number by a rational near it. -/
  | algebraic (numerator : Int) (denominator : Nat)
  | other (text : String)
deriving DecidableEq, Repr

def Value.toScalar : Value → Except SolveError α
  | integer n => SolveError.lift (Scalar.ofInt? n)
  | quotient p q => SolveError.lift (Scalar.ofQuotient p q)
  | algebraic p q => SolveError.lift (Scalar.ofQuotient p q)
  | other text => .error (.unreadableValue text)

/-- What the solver reports after its check. -/
structure Report (α : Type) where
  verdict : Verdict
  /-- Why there is no verdict. -/
  reason : String
  /-- The optimum, as the solver writes it. -/
  optimum : String
  /-- Statistics with their texts. -/
  statistics : List (String × String)
  value : Handle (Number α) → Value

/-- The value of a handle as a scalar: a number is its own value. -/
def Report.valueOf (r : Report α) (h : Handle (Number α)) : Except SolveError (Number α) :=
  match h.number? with
  | some x => .real <$> SolveError.lift x.toScalar?
  | none => .real <$> (r.value h).toScalar

/-- Whether a text holds the mark with which unbounded optima are written. -/
def hasInfinityMark : List Char → Bool
  | 'o' :: 'o' :: _ => true
  | _ :: cs => hasInfinityMark cs
  | [] => false

/-- Whether the solver found the objective to be unbounded. -/
def Report.isUnbounded (r : Report α) : Bool :=
  hasInfinityMark r.optimum.toList

abbrev SearchM (α β : Type) : Type := SolveM (Number α) (Encoding α (Solver α)) β

def callWhileSolving (c : Call α) : SearchM α Unit :=
  modify fun s => { s with solver := { s.solver with solver := s.solver.solver.call c } }

/-- Passes the time limit on, in whole milliseconds; a limit of zero is none. -/
def setTimeLimit (c : Context α) : SearchM α Unit := do
  if let some seconds := c.config.timeLimit then
    if !seconds.isZero then
      let n ← .ofExcept (SolveError.lift (seconds.mul (.int 1000)).exact.truncate)
      callWhileSolving (.setOption "timeout" (.number (.int n)))

/-- Runs the check; while it runs, detailed output is switched on for a high verbosity. -/
def check (c : Context α) : SearchM α Unit := do
  if 2 ≤ c.config.verbosity then callWhileSolving (.setGlobal "verbose" 10)
  callWhileSolving .check
  if 2 ≤ c.config.verbosity then callWhileSolving (.setGlobal "verbose" 0)

/-- Hands over the constraints, the options and the objective. -/
def prepare (c : Context α) : SearchM α Unit := do
  let e := (← get).solver
  callWhileSolving (if e.objective.isSome then .newOptimizer else .newSolver)
  e.solver.constraints.toList.forM fun r => callWhileSolving (.add r)
  setTimeLimit c
  c.config.options.forM fun (name, value) => callWhileSolving (.setOption name value)
  match e.objective, e.solver.sense with
  | some h, some sense => callWhileSolving (.optimize sense h)
  | _, _ => pure ()

/-- Runs the search, which reports `r`, and reads the solution back. -/
def solve (c : Context α) (r : Report α) : SearchM α (Solution α) := do
  .ofExcept (← get).ensureSatisfiable
  prepare c
  SolveM.log c.config 1 "Starting Z3 solver..."
  SolveM.log c.config 1
    ("  Constraints: " ++ toString (← get).solver.solver.constraints.size)
  check c
  SolveM.log c.config 1 ("Z3 finished with " ++ r.verdict.text ++ " in 0.000s")
  SolveM.log c.config 2 "Z3 Statistics:"
  r.statistics.forM fun (key, value) => SolveM.log c.config 2 ("  " ++ key ++ ": " ++ value)
  match r.verdict with
  | .unsat => throw (.infeasible "Z3")
  | .undecided _ =>
    SolveM.log c.config 1 ("  Reason: " ++ r.reason)
    return { model := c.model, status := .unknown }
  | .sat =>
    let s ← get
    match s.solver.objective with
    | none => .ofExcept (Readout.solution c s r.valueOf .optimal none)
    | some h =>
      if r.isUnbounded then throw (.unboundedObjective "Z3" r.optimum)
      let objective ← .ofExcept (r.valueOf h)
      .ofExcept (Readout.solution c s r.valueOf .optimal (some objective))

end DecisionModel.Z3
