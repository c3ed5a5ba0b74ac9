import DecisionModel.Solver.CpSat.Search
import DecisionModel.Solver.Recording
import DecisionModel.Solver.Registry
import DecisionModel.Solver.Scip
import DecisionModel.Solver.Z3.Search

/-!
# Solver sessions

A session is one model on its way through one solver: `Session.start` lowers the model, further
terms and constraints can be lowered into it with `translate` and `post`, and `Session.solve` runs
the search. What the search finds is not computed here; it comes as a report. The model is read as
it stands at each step, so each step is given the workspace.
-/

namespace DecisionModel

variable {α : Type} [Scalar α]

/-- The state of lowering for each kind of solver. -/
inductive SessionState (α : Type) where
  /-- `full` tells whether more than arithmetic is encoded. -/
  | recording (full : Bool) (s : LoweringState (Number α) (Recording.Record α))
  | scip (s : Scip.ScipState α)
  | z3 (s : Z3.Z3State α)
  | cpSat (s : CpSat.CpSatState)

/-- A model on its way through a solver. -/
structure Session (α : Type) where
  model : ModelId
  config : Config α
  state : SessionState α

/-- What each kind of solver reports when it is run. -/
structure SearchReport (α : Type) where
  recording : Recording.Answer α
  scip : Scip.Report α
  z3 : Z3.Report α
  cpSat : CpSat.Report α

/-- What is to be lowered: the whole model, a constraint, or a term. -/
inductive Request (α : Type) where
  | model
  | constraint (x : Input α)
  | term (x : Input α)

/-- Runs a request; of a term, the text of its handle comes back. -/
def Request.run {ν σ : Type} [Numeral ν] (B : Backend α ν σ) (lowerModel : LowerM α ν σ Unit)
    (c : Context α) : Request α → LowerM α ν σ String
  | .model => do
    lowerModel
    return ""
  | .constraint x => do
    B.postInput c x
    return ""
  | .term x => do return (← B.translateInput c x).text

namespace Session

/-- The back-end of a recording session. -/
def recordingBackend (full : Bool) : Backend α (Number α) (Recording.Record α) :=
  if full then Recording.full else Recording.plain

def context (s : Session α) (w : Workspace α) : Context α := ⟨w, s.model, s.config⟩

/-- Runs a request in the session's state. -/
def lower (s : Session α) (w : Workspace α) (r : Request α) :
    Except (LoweringError α) String × Session α :=
  let c := s.context w
  match s.state with
  | .recording full state =>
    let B := recordingBackend full
    let (result, state) := (r.run B (B.lowerModel c) c).run.run state
    (result, { s with state := .recording full state })
  | .scip state =>
    let run := r.run (Tolerant.backend Scip.primitives) (Scip.lowerModel c) c
    let (result, state) := run.run.run state
    (result, { s with state := .scip state })
  | .z3 state =>
    let run := r.run (Tolerant.backend Z3.primitives) (Z3.lowerModel c) c
    let (result, state) := run.run.run state
    (result, { s with state := .z3 state })
  | .cpSat state =>
    let (result, state) := (r.run CpSat.backend (CpSat.lowerModel c) c).run.run state
    (result, { s with state := .cpSat state })

/-- A session in which nothing is lowered yet. -/
def fresh (kind : SolverKind) (full : Bool) (model : ModelId) (config : Config α) : Session α :=
  let state : SessionState α := match kind with
    | .recording => .recording full { solver := #[] }
    | .scip => .scip ((Scip.openModel config).run.run Scip.initial).2
    | .z3 => .z3 Z3.initial
    | .cpSat => .cpSat CpSat.initial
  { model, config, state }

/-- Opens a session and lowers the model. -/
def start (kind : SolverKind) (full : Bool) (w : Workspace α) (model : ModelId)
    (config : Config α) : Except (LoweringError α) String × Session α :=
  (fresh kind full model config).lower w .model

/-- Runs the search and reads the solution back. -/
def solve (s : Session α) (w : Workspace α) (r : SearchReport α) :
    Except SolveError (Solution α) × Session α :=
  let c := s.context w
  match s.state with
  | .recording _ state => (Recording.solve c state r.recording, s)
  | .scip state =>
    let (result, state) := (Scip.solve c r.scip).run.run state
    (result, { s with state := .scip state })
  | .z3 state =>
    let (result, state) := (Z3.solve c r.z3).run.run state
    (result, { s with state := .z3 state })
  | .cpSat state =>
    let (result, state) := (CpSat.solve c r.cpSat).run.run state
    (result, { s with state := .cpSat state })

/-- The texts of all calls into the solver so far. -/
def calls (s : Session α) : List (List String) :=
  match s.state with
  | .recording _ state => state.solver.toList.map (·.texts)
  | .scip state => state.solver.solver.calls.toList.map (·.texts)
  | .z3 state => state.solver.solver.calls.toList.map (·.texts)
  | .cpSat state => state.solver.calls.toList.map (·.texts)

/-- The lines logged so far. -/
def log (s : Session α) : List String :=
  match s.state with
  | .recording _ state => state.log
  | .scip state => state.log
  | .z3 state => state.log
  | .cpSat state => state.log

/-- The constraints that folded to false. -/
def violated (s : Session α) : List String :=
  match s.state with
  | .recording _ state => state.violated
  | .scip state => state.violated
  | .z3 state => state.violated
  | .cpSat state => state.violated

/-- How many auxiliary names were made. -/
def auxiliaries (s : Session α) : Nat :=
  match s.state with
  | .recording _ state => state.auxiliaries
  | .scip state => state.auxiliaries
  | .z3 state => state.auxiliaries
  | .cpSat state => state.auxiliaries

/-- The handles of the model's variables, as texts. -/
def handleTexts (s : Session α) : List (VarId × String) :=
  match s.state with
  | .recording _ state => state.handles.map fun (v, h) => (v, h.text)
  | .scip state => state.handles.map fun (v, h) => (v, h.text)
  | .z3 state => state.handles.map fun (v, h) => (v, h.text)
  | .cpSat state => state.handles.map fun (v, h) => (v, h.text)

/-- The sizes of a tolerant encoding. -/
structure Sizes (α : Type) where
  epsilon : α
  variableCount : Nat
  constraintCount : Nat

def Sizes.of {σ : Type} (e : Tolerant.Encoding α σ) : Sizes α :=
  ⟨e.epsilon.toScalar, e.created.size, e.posted.size⟩

/-- The sizes, where the encoding is a tolerant one. -/
def sizes? (s : Session α) : Option (Sizes α) :=
  match s.state with
  | .scip state => some (.of state.solver)
  | .z3 state => some (.of state.solver)
  | _ => none

/-- The constraints collected so far, where they are collected. -/
def collected? (s : Session α) : Option (List String) :=
  match s.state with
  | .z3 state => some (state.solver.solver.constraints.toList.map (·.text))
  | _ => none

end Session

end DecisionModel
