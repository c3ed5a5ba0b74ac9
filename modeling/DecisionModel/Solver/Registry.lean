import DecisionModel.Table
import DecisionModel.Text.LowerCase
import DecisionModel.Text.Quoted

/-!
# The registry of solvers

Solvers are found by name, in any case of letters. One is entered when it is first asked for, so a
solver that is not installed is noticed then, and not before; further solvers can be registered.
`Registry.choose` is the choice of a solver to solve a model with.
-/

namespace DecisionModel

/-- The solvers that a model can be lowered for. -/
inductive SolverKind where
  /-- No solver: what would be posted is written down. -/
  | recording
  | scip
  | z3
  | cpSat
deriving DecidableEq, Repr, Inhabited

/-- The solver's own name. -/
def SolverKind.name : SolverKind → String
  | recording => "recording"
  | scip => "scip"
  | z3 => "z3"
  | cpSat => "ortools"

/-- The solvers known by name, in order of preference. -/
def SolverKind.known : List SolverKind := [.scip, .cpSat, .z3]

/-- Whether truth is encoded with a tolerance. -/
def SolverKind.isTolerant : SolverKind → Bool
  | scip | z3 => true
  | _ => false

/-- The names of the known solvers. -/
def knownNames : List String := SolverKind.known.map SolverKind.name

/-- The names of the known solvers in alphabetical order. -/
def supportedSolvers : List String := knownNames.mergeSort fun a b => decide (a ≤ b)

/-- Why no solver could be chosen. -/
inductive ChoiceError where
  | unknownSolver (name : String)
  | notInstalled (name : String)
  | needlessEpsilon (name : String)
deriving DecidableEq, Repr

def ChoiceError.message : ChoiceError → String
  | unknownSolver name =>
    "Unknown solver: " ++ name ++ ". Supported solvers: [" ++
      ", ".intercalate (supportedSolvers.map Text.quoted) ++ "]"
  | notInstalled name =>
    "Backend '" ++ name ++ "' is not available. Install the required package: pip install cpmodel[" ++
      name ++ "]"
  | needlessEpsilon name => "epsilon does not apply to solver " ++ name

/-- The solvers asked for or registered so far; nothing stands beside the name of one that is not
installed. -/
structure Registry where
  entries : List (String × Option SolverKind) := []
  /-- The names of known solvers that are not installed. -/
  missing : List String := []
deriving Repr

namespace Registry

/-- Enters a solver under a name. -/
def register (r : Registry) (name : String) (kind : SolverKind) : Registry :=
  { r with entries := Table.put r.entries (Text.lower name) (some kind) }

/-- Enters a known solver, unless its name is taken. -/
def load (r : Registry) (name : String) : Registry :=
  if r.entries.any (·.1 = name) then r
  else
    match SolverKind.known.find? (·.name = name) with
    | none => r
    | some kind =>
      let found := if r.missing.contains name then none else some kind
      { r with entries := Table.put r.entries name found }

/-- The solver of a name, if it is installed. -/
def get (r : Registry) (name : String) : Option SolverKind × Registry :=
  let name := Text.lower name
  let r := r.load name
  ((Table.get? r.entries name).join, r)

/-- The names of all solvers that are installed, in order of entry. -/
def available (r : Registry) : List String × Registry :=
  let r := knownNames.foldl load r
  (r.entries.filterMap fun (name, kind) => kind.map fun _ => name, r)

/-- The solver to solve with: a known one that is installed and takes the given configuration. -/
def choose (r : Registry) (name : String) (hasEpsilon : Bool) :
    Except ChoiceError SolverKind × Registry :=
  let lowered := Text.lower name
  match SolverKind.known.find? (·.name = lowered) with
  | none => (.error (.unknownSolver name), r)
  | some known =>
    let (kind, r) := r.get lowered
    match kind with
    | none => (.error (.notInstalled lowered), r)
    | some kind =>
      if hasEpsilon && !known.isTolerant then (.error (.needlessEpsilon lowered), r)
      else (.ok kind, r)

end Registry

end DecisionModel
