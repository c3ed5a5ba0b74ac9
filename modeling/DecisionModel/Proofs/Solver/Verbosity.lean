import DecisionModel.Proofs.CpSat.InStep
import DecisionModel.Proofs.Solver.Readback
import DecisionModel.Proofs.Tolerant.InStep

/-!
# The verbosity decides about the output only

Each solver has a call that concerns its output: SCIP is told to hide it, CP-SAT to log its search, and
Z3 to be verbose while it checks. These calls and the lines of the log are left out of what is seen of
a session (`Session.seen`). Two sessions whose configurations differ in their verbosity are alike to
begin with, each action keeps them alike and gives the same outcome (`Session.alike_act`), and so does
every run (`Session.alike_run`).
-/

namespace DecisionModel

variable {α ν σ β : Type} {view : σ → σ} {s s' : LoweringState ν σ}

/-- The same model, solved with another verbosity. -/
abbrev Context.verbose (c : Context α) (v : Int) : Context α := c.under { c.config with verbosity := v }

/-! ### Solving -/

namespace SolveM

theorem inStep_ofExcept (r : Except SolveError β) :
    InStep (SameBut view) (ofExcept r : SolveM ν σ β) (ofExcept r) := by
  cases r with
  | ok x => exact inStep_pure x
  | error e => exact inStep_throw e

theorem inStep_log (k k' : Config α) (level : Int) (line : String) :
    InStep (SameBut view) (log k level line : SolveM ν σ Unit) (log k' level line) :=
  inStep_of_unseen (unseen_if (unseen_line line)) (unseen_if (unseen_line line))

/-- Solving is refused for the same constraint. -/
theorem inStep_ensured {m m' : SolveM ν σ β} (hm : InStep (SameBut view) m m') :
    InStep (SameBut view) (do ofExcept (← get).ensureSatisfiable; m)
      (do ofExcept (← get).ensureSatisfiable; m') := by
  refine inStep_look fun s s' h => ?_
  have hsame : s'.ensureSatisfiable = s.ensureSatisfiable := by
    unfold LoweringState.ensureSatisfiable
    rw [h.violated]
  rw [hsame]
  exact inStep_bind (inStep_ofExcept _) fun _ => hm

end SolveM

/-- What is read back depends on the state only through the handles. -/
theorem solution_congr [Scalar α] (c : Context α) (v : Int) (h : SameBut view s s')
    (value : Handle ν → Except SolveError (Number α)) :
    Readout.solution (c.verbose v) s' value = Readout.solution c s value := by
  have hread : Readout.readVariable (c.verbose v) s' value = Readout.readVariable c s value := by
    funext u
    unfold Readout.readVariable LoweringState.handle?
    rw [h.handles]
    rfl
  have hsequence : Readout.readSequence (c.verbose v) s' value = Readout.readSequence c s value := by
    unfold Readout.readSequence
    rw [hread]
  unfold Readout.solution
  rw [hread, hsequence]
  rfl

end DecisionModel

/-! ### Calls of a solver with a tolerance -/

namespace DecisionModel.Tolerant

variable {α σ ε : Type} {view f : σ → σ}

/-- A change of the solver's own part that the view commutes with. -/
theorem inStep_own (hf : ∀ t, view (f t) = f (view t)) :
    InStep (ε := ε) (SameBut (Encoding.seen view))
      (modify fun s : LoweringState (Number α) (Encoding α σ) =>
        { s with solver := { s.solver with solver := f s.solver.solver } })
      (modify fun s => { s with solver := { s.solver with solver := f s.solver.solver } }) := by
  refine inStep_modify fun s s' h => { h with solver := ?_ }
  have hcomm (e : Encoding α σ) : ({ e with solver := f e.solver } : Encoding α σ).seen view =
      { e.seen view with solver := f (e.seen view).solver } := by
    simp only [Encoding.seen, hf]
  rw [hcomm, hcomm, h.solver]

/-- A change of the solver's own part that is left out of the view. -/
theorem unseen_own (hf : ∀ t, view (f t) = view t) :
    Unseen (ε := ε) (SameBut (Encoding.seen view))
      (modify fun s : LoweringState (Number α) (Encoding α σ) =>
        { s with solver := { s.solver with solver := f s.solver.solver } }) := by
  refine unseen_modify fun s => { keeps_refl (R := SameBut (Encoding.seen view)) s with solver := ?_ }
  simp only [Encoding.seen, hf]

end DecisionModel.Tolerant

/-! ### SCIP -/

namespace DecisionModel.Scip

open LowerM SolveM Tolerant

variable {α : Type}

/-- Every call but the one that hides the output. -/
def Call.isVisible : Call α → Bool
  | .hideOutput => false
  | _ => true

/-- The solver without the calls that concern its output only. -/
def Solver.visible (t : Solver α) : Solver α := { t with calls := t.calls.filter Call.isVisible }

theorem visible_call {c : Call α} (hc : c.isVisible = true) (t : Solver α) :
    (t.call c).visible = t.visible.call c := by
  simp [Solver.visible, Solver.call, hc]

theorem visible_hideOutput (t : Solver α) : (t.call .hideOutput).visible = t.visible := by
  simp [Solver.visible, Solver.call, Call.isVisible]

theorem inStep_call {c : Call α} (hc : c.isVisible = true) : Steady Solver.visible (call c) :=
  inStep_modifyOwn (visible_call hc)

theorem inStep_callWhileSolving {c : Call α} (hc : c.isVisible = true) :
    InStep (SameBut (Encoding.seen Solver.visible)) (callWhileSolving c) (callWhileSolving c) :=
  inStep_own (visible_call hc)

theorem inStep_setParameter (name : String) (value : Setting α) :
    Steady Solver.visible (setParameter name value) :=
  inStep_bind (inStep_call rfl) fun _ => inStep_modifyOwn fun _ => rfl

/-- The tolerance is one of the parameters, which are seen. -/
theorem inStep_tolerance : Steady Solver.visible (tolerance : ScipM α (Number α)) := by
  refine inStep_lookSolver fun e e' h => ?_
  have hparameters : e'.solver.parameters = e.solver.parameters := (Solver.mk.inj (own_congr h)).2
  rw [hparameters]
  dsimp only
  split
  · exact inStep_pure _
  · exact inStep_fail _

variable [Scalar α]

theorem inStep_addRange (h : Handle (Number α)) (lower upper : Number α) (name : String) :
    Steady Solver.visible (addRange h lower upper name) := by
  refine inStep_ite (inStep_call rfl) (inStep_when (inStep_call rfl) ?_)
  exact inStep_ite (inStep_call rfl) (inStep_pure _)

theorem steady : (primitives : Primitives α (Solver α)).Steady Solver.visible where
  newVariable _ _ _ _ := inStep_bind (inStep_call rfl) fun _ => inStep_leaf _ _
  addRange := inStep_addRange
  absolute _ := inStep_node _ _
  power _ _ := inStep_node _ _
  gate := inStep_mul
  quotient _ _ := inStep_bind (inStep_node _ _) fun _ => inStep_mul _ _
  total hs := by
    cases hs with
    | nil => exact inStep_pure _
    | cons => exact inStep_node _ _
  tolerance := inStep_tolerance
  setObjective _ _ := inStep_call rfl

omit [Scalar α] in
/-- Only one of the two models may have its output hidden. -/
theorem inStep_openModel (k : Config α) (v : Int) :
    InStep (SameBut (Encoding.seen Solver.visible)) (openModel k)
      (openModel { k with verbosity := v }) := by
  refine inStep_bind (inStep_call rfl) fun _ => inStep_whenUnseen (unseen_own visible_hideOutput) ?_
  exact inStep_forM fun _ _ => inStep_setParameter _ _

theorem inStep_solve (c : Context α) (v : Int) (r : Report α) :
    InStep (SameBut (Encoding.seen Solver.visible)) (solve c r) (solve (c.verbose v) r) := by
  refine inStep_ensured ?_
  dsimp only
  rcases c.config.timeLimit with _ | seconds
  rotate_left
  refine inStep_bind (inStep_callWhileSolving rfl) fun _ => ?_
  -- A time limit is one call more; from here on the two cases are the same.
  all_goals
    refine inStep_bind (inStep_log _ _ _ _) fun _ => ?_
    refine inStep_bind (inStep_callWhileSolving rfl) fun _ => inStep_bind (inStep_log _ _ _ _) fun _ => ?_
    refine inStep_bind (inStep_log _ _ _ _) fun _ => inStep_bind (inStep_log _ _ _ _) fun _ => ?_
    refine inStep_bind (inStep_ofExcept _) fun status => ?_
    split
    · exact inStep_pure _
    · refine inStep_look fun s s' h => ?_
      rw [solution_congr c v h, objective_congr h.solver]
      exact inStep_ofExcept _

end DecisionModel.Scip

/-! ### Z3 -/

namespace DecisionModel.Z3

open LowerM SolveM Tolerant

variable {α : Type}

/-- Every call but the one that makes the solver print what it does, or stop doing so. -/
def Call.isVisible : Call α → Bool
  | .setGlobal name _ => name != "verbose"
  | _ => true

/-- The solver without the calls that concern its output only. -/
def Solver.visible (t : Solver α) : Solver α := { t with calls := t.calls.filter Call.isVisible }

theorem visible_call {c : Call α} (hc : c.isVisible = true) (t : Solver α) :
    (t.call c).visible = t.visible.call c := by
  simp [Solver.visible, Solver.call, hc]

theorem visible_setVerbose (n : Int) (t : Solver α) :
    (t.call (.setGlobal "verbose" n)).visible = t.visible := by
  simp [Solver.visible, Solver.call, Call.isVisible]

theorem inStep_call {c : Call α} (hc : c.isVisible = true) : Steady Solver.visible (call c) :=
  inStep_modifyOwn (visible_call hc)

theorem inStep_callWhileSolving {c : Call α} (hc : c.isVisible = true) :
    InStep (SameBut (Encoding.seen Solver.visible)) (callWhileSolving c) (callWhileSolving c) :=
  inStep_own (visible_call hc)

theorem constraints_congr {e e' : Encoding α (Solver α)}
    (h : e'.seen Solver.visible = e.seen Solver.visible) :
    e'.solver.constraints = e.solver.constraints := (Solver.mk.inj (own_congr h)).2.1

theorem sense_congr {e e' : Encoding α (Solver α)}
    (h : e'.seen Solver.visible = e.seen Solver.visible) : e'.solver.sense = e.solver.sense :=
  (Solver.mk.inj (own_congr h)).2.2

theorem inStep_require (c : Comparison) (x y : Handle (Number α)) :
    Steady Solver.visible (require c x y) := inStep_modifyOwn fun _ => rfl

variable [Scalar α]

theorem inStep_exactTerm (x : Number α) :
    Steady Solver.visible (exactTerm x : Z3M α (Handle (Number α))) :=
  inStep_bind (inStep_lift _) fun _ => inStep_ite (inStep_pure _) (inStep_node _ _)

omit [Scalar α] in
theorem inStep_realTerm (h : Handle (Number α)) :
    Steady Solver.visible (realTerm h : Z3M α (Handle (Number α))) :=
  inStep_ite (inStep_node _ _) (inStep_pure _)

theorem inStep_requireBounds (h : Handle (Number α)) (lower upper : Number α) :
    Steady Solver.visible (requireBounds h lower upper) := by
  refine inStep_whenAfter (inStep_exactTerm _) (fun _ => inStep_require _ _ _) ?_
  exact inStep_ite (inStep_bind (inStep_exactTerm _) fun _ => inStep_require _ _ _) (inStep_pure _)

theorem inStep_newVariable (kind : Tolerant.Kind) (lower upper : α) (name : String) :
    Steady Solver.visible (newVariable kind lower upper name) := by
  have hkind : (if kind = .continuous then .newReal name else .newInteger name : Call α).isVisible =
      true := by split <;> rfl
  refine inStep_bind (inStep_call hkind) fun _ => inStep_bind (inStep_leaf _ _) fun _ => ?_
  exact inStep_bind (inStep_requireBounds _ _ _) fun _ => inStep_pure _

theorem inStep_addRange (h : Handle (Number α)) (lower upper : Number α) (name : String) :
    Steady Solver.visible (addRange h lower upper name) :=
  inStep_ite (inStep_bind (inStep_exactTerm _) fun _ => inStep_require _ _ _)
    (inStep_requireBounds _ _ _)

theorem inStep_repeatedProduct (base : Handle (Number α)) (n : Nat) :
    Steady Solver.visible (repeatedProduct base n : Z3M α (Handle (Number α))) := by
  induction n with
  | zero => exact inStep_pure _
  | succ n ih => exact inStep_bind ih fun _ => inStep_mul _ _

theorem inStep_power (base : Handle (Number α)) (exponent : α) :
    Steady Solver.visible (power base exponent : Z3M α (Handle (Number α))) := by
  refine inStep_ite ?_ ?_
  · refine inStep_bind (inStep_lift _) fun n => inStep_bind (inStep_repeatedProduct _ _) fun _ => ?_
    exact inStep_ite (inStep_bind (inStep_realTerm _) fun _ => inStep_node _ _) (inStep_pure _)
  · refine inStep_bind (inStep_realTerm _) fun _ => inStep_bind (inStep_lift _) fun _ => ?_
    exact inStep_bind (inStep_node _ _) fun _ => inStep_node _ _

theorem steady : (primitives : Primitives α (Solver α)).Steady Solver.visible where
  newVariable := inStep_newVariable
  addRange := inStep_addRange
  absolute _ := inStep_bind (inStep_neg _) fun _ => inStep_node _ _
  power := inStep_power
  gate _ _ := inStep_node _ _
  quotient _ _ := inStep_bind (inStep_realTerm _) fun _ => inStep_node _ _
  total := inStep_chainedSum
  tolerance := inStep_pure _
  setObjective _ _ := inStep_modifyOwn fun _ => rfl

theorem inStep_setTimeLimit (c : Context α) (v : Int) :
    InStep (SameBut (Encoding.seen Solver.visible)) (setTimeLimit c) (setTimeLimit (c.verbose v)) := by
  unfold setTimeLimit
  dsimp only
  split
  · refine inStep_ite ?_ (inStep_pure _)
    exact inStep_bind (inStep_ofExcept _) fun _ => inStep_callWhileSolving rfl
  · exact inStep_pure _

theorem inStep_prepare (c : Context α) (v : Int) :
    InStep (SameBut (Encoding.seen Solver.visible)) (prepare c) (prepare (c.verbose v)) := by
  refine inStep_look fun s s' h => ?_
  have hnew : (if s.solver.objective.isSome then .newOptimizer else .newSolver : Call α).isVisible =
      true := by split <;> rfl
  dsimp only
  rw [constraints_congr h.solver, sense_congr h.solver, objective_congr h.solver]
  refine inStep_bind (inStep_callWhileSolving hnew) fun _ => ?_
  refine inStep_bind (inStep_forM fun _ _ => inStep_callWhileSolving rfl) fun _ => ?_
  refine inStep_bind (inStep_setTimeLimit c v) fun _ => ?_
  refine inStep_bind (inStep_forM fun _ _ => inStep_callWhileSolving rfl) fun _ => ?_
  split
  · exact inStep_callWhileSolving rfl
  · exact inStep_pure _

omit [Scalar α] in
/-- Only one of the two checks may be a verbose one. -/
theorem inStep_check (c : Context α) (v : Int) :
    InStep (SameBut (Encoding.seen Solver.visible)) (check c) (check (c.verbose v)) := by
  have hset (n : Int) : Unseen (SameBut (Encoding.seen Solver.visible))
      (callWhileSolving (.setGlobal "verbose" n) : SearchM α Unit) := unseen_own (visible_setVerbose n)
  refine inStep_whenUnseen (hset 10) (inStep_bind (inStep_callWhileSolving rfl) fun _ => ?_)
  exact inStep_of_unseen (unseen_if (hset 0)) (unseen_if (hset 0))

theorem inStep_solve (c : Context α) (v : Int) (r : Report α) :
    InStep (SameBut (Encoding.seen Solver.visible)) (solve c r) (solve (c.verbose v) r) := by
  refine inStep_ensured (inStep_bind (inStep_prepare c v) fun _ => ?_)
  refine inStep_bind (inStep_log _ _ _ _) fun _ => inStep_look fun s s' h => ?_
  rw [constraints_congr h.solver]
  refine inStep_bind (inStep_log _ _ _ _) fun _ => inStep_bind (inStep_check c v) fun _ => ?_
  refine inStep_bind (inStep_log _ _ _ _) fun _ => inStep_bind (inStep_log _ _ _ _) fun _ => ?_
  refine inStep_bind (inStep_forM fun _ _ => inStep_log _ _ _ _) fun _ => ?_
  cases r.verdict with
  | unsat => exact inStep_throw _
  | undecided text => exact inStep_bind (inStep_log _ _ _ _) fun _ => inStep_pure _
  | sat =>
    refine inStep_look fun s s' h => ?_
    dsimp only
    rw [objective_congr h.solver]
    split
    · rw [solution_congr c v h]
      exact inStep_ofExcept _
    · refine inStep_when (inStep_throw _) (inStep_bind (inStep_ofExcept _) fun _ => ?_)
      rw [solution_congr c v h]
      exact inStep_ofExcept _

end DecisionModel.Z3

/-! ### CP-SAT -/

namespace DecisionModel.CpSat

open SolveM

/-- The call need not be a visible one: an option may ask for the log of the search as well. -/
theorem inStep_callWhileSolving (c : Call) :
    InStep (SameBut Solver.visible) (callWhileSolving c) (callWhileSolving c) := by
  refine inStep_modify fun s s' h => { h with solver := ?_ }
  cases hc : c.isVisible with
  | true => rw [visible_push hc, visible_push hc, h.solver]
  | false =>
    have hhidden (t : Solver) : Solver.visible { t with calls := t.calls.push c } = t.visible := by
      simp [Solver.visible, hc]
    rw [hhidden, hhidden, h.solver]

theorem unseen_logSearch : Unseen (SameBut Solver.visible)
    (callWhileSolving (.parameter "log_search_progress" "true")) := by
  refine unseen_modify fun s => { keeps_refl (R := SameBut Solver.visible) s with solver := ?_ }
  simp [Solver.visible, Call.isVisible]

variable {α : Type} [Scalar α]

/-- Only one of the two searches may be logged. -/
theorem inStep_configure (k : Config α) (v : Int) :
    InStep (SameBut Solver.visible) (configure k) (configure { k with verbosity := v }) := by
  unfold configure
  dsimp only
  rcases k.timeLimit with _ | seconds
  rotate_left
  refine inStep_bind (inStep_callWhileSolving _) fun _ => ?_
  all_goals
    refine inStep_whenUnseen unseen_logSearch ?_
    exact inStep_forM fun _ _ => inStep_callWhileSolving _

theorem inStep_solve (c : Context α) (v : Int) (r : Report α) :
    InStep (SameBut Solver.visible) (solve c r) (solve (c.verbose v) r) := by
  refine inStep_ensured (inStep_bind (inStep_configure c.config v) fun _ => ?_)
  refine inStep_bind (inStep_log _ _ _ _) fun _ => inStep_bind (inStep_callWhileSolving _) fun _ => ?_
  refine inStep_bind (inStep_log _ _ _ _) fun _ => inStep_bind (inStep_ofExcept _) fun status => ?_
  split
  · exact inStep_pure _
  · refine inStep_look fun s s' h => ?_
    have hobjective : s'.solver.hasObjective = s.solver.hasObjective :=
      (Solver.mk.inj h.solver).2.2.2.2.2
    rw [solution_congr c v h, hobjective]
    exact inStep_ofExcept _

end DecisionModel.CpSat

/-! ### The recording back-ends -/

namespace DecisionModel.Recording

open LowerM

variable {α : Type}

theorem inStep_record (e : Event α) : InStep (SameBut id) (record e) (record e) :=
  inStep_modifySolver_of_comm fun _ => rfl

theorem inStep_newInteger (lower upper : Int) (hint : String) :
    InStep (SameBut id) (newInteger (α := α) lower upper hint) (newInteger lower upper hint) :=
  inStep_bind (inStep_auxiliaryName _) fun _ => inStep_bind (inStep_record _) fun _ => inStep_leaf _ _

variable [Scalar α]

theorem steady_plain : (plain : Backend α (Number α) (Record α)).Steady id where
  constant _ := inStep_pure _
  constant? _ := inStep_pure _
  negate := inStep_neg
  add := inStep_add
  subtract := inStep_sub
  multiply := inStep_mul
  divide _ _ := inStep_fail _
  power _ _ := inStep_fail _
  absolute _ := inStep_fail _
  minimum _ := inStep_fail _
  maximum _ := inStep_fail _
  reify _ _ _ := inStep_fail _
  complement _ := inStep_fail _
  conjoin _ := inStep_fail _
  disjoin _ := inStep_fail _
  conditional _ _ _ := inStep_fail _
  firstMatch _ _ _ := inStep_foldlM (fun _ _ _ => inStep_fail _) _
  membership _ _ := inStep_fail _
  lookup _ _ := inStep_fail _
  keyedMembership? _ _ _ _ _ := .none
  createVariable _ := inStep_bind (inStep_record _) fun _ => inStep_leaf _ _
  createSequence _ _ := inStep_bind (inStep_record _) fun _ => inStep_mapM fun _ _ => inStep_leaf _ _
  newInteger := inStep_newInteger
  postEqual _ _ := inStep_record _
  postComparison _ _ _ := inStep_record _
  postTrue _ := inStep_record _
  postDefinition _ _ _ := inStep_record _
  postObjective _ _ := inStep_record _

theorem steady_full : (full : Backend α (Number α) (Record α)).Steady id :=
  { steady_plain with
    divide := fun _ _ => inStep_node _ _
    power := fun _ _ => inStep_node _ _
    absolute := fun _ => inStep_node _ _
    minimum := inStep_node _
    maximum := inStep_node _
    reify := fun _ _ _ => inStep_bind (inStep_record _) fun _ =>
      inStep_bind (inStep_auxiliaryName _) fun _ => inStep_leaf _ _
    complement := fun _ => inStep_node _ _
    conjoin := inStep_node _
    disjoin := inStep_node _
    conditional := fun _ _ _ => inStep_node _ _
    firstMatch := fun _ _ _ => inStep_foldlM (fun _ _ _ => inStep_node _ _) _
    membership := fun _ _ => inStep_node _ _
    lookup := fun _ _ => inStep_bind (inStep_auxiliaryName _) fun _ =>
      inStep_bind (inStep_record _) fun _ => inStep_leaf _ _ }

theorem solve_congr (c : Context α) (v : Int) {s s' : LoweringState (Number α) (Record α)}
    (h : SameBut id s s') (answer : Answer α) :
    solve (c.verbose v) s' answer = solve c s answer := by
  unfold solve LoweringState.ensureSatisfiable
  rw [h.violated]
  simp only [solution_congr c v h]

end DecisionModel.Recording

/-! ### Sessions -/

namespace DecisionModel

variable {α ν σ : Type}

/-- What is seen of a state if `view` is what is seen of the solver's part: all but the log. -/
def LoweringState.seen (view : σ → σ) (s : LoweringState ν σ) : LoweringState ν σ :=
  { s with log := [], solver := view s.solver }

theorem SameBut.seen_eq {view : σ → σ} {s s' : LoweringState ν σ} (h : SameBut view s s') :
    s'.seen view = s.seen view := by
  unfold LoweringState.seen
  rw [h.handles, h.memo, h.nextHandle, h.auxiliaries, h.violated, h.lowered, h.solver]

/-- What is seen of a state: all but the log and the calls that concern the output. -/
def SessionState.seen : SessionState α → SessionState α
  | .recording full s => .recording full (s.seen id)
  | .scip s => .scip (s.seen (Tolerant.Encoding.seen Scip.Solver.visible))
  | .z3 s => .z3 (s.seen (Tolerant.Encoding.seen Z3.Solver.visible))
  | .cpSat s => .cpSat (s.seen CpSat.Solver.visible)

/-- States of the same kind of solver that look the same. -/
inductive SessionState.Alike : SessionState α → SessionState α → Prop
  | recording (full : Bool) {s s' : LoweringState (Number α) (Recording.Record α)} :
    SameBut id s s' → Alike (.recording full s) (.recording full s')
  | scip {s s' : Scip.ScipState α} :
    SameBut (Tolerant.Encoding.seen Scip.Solver.visible) s s' → Alike (.scip s) (.scip s')
  | z3 {s s' : Z3.Z3State α} :
    SameBut (Tolerant.Encoding.seen Z3.Solver.visible) s s' → Alike (.z3 s) (.z3 s')
  | cpSat {s s' : CpSat.CpSatState} : SameBut CpSat.Solver.visible s s' → Alike (.cpSat s) (.cpSat s')

theorem SessionState.Alike.seen_eq {s s' : SessionState α} (h : s.Alike s') : s'.seen = s.seen := by
  cases h with
  | recording full h => exact congrArg (SessionState.recording full) h.seen_eq
  | scip h => exact congrArg SessionState.scip h.seen_eq
  | z3 h => exact congrArg SessionState.z3 h.seen_eq
  | cpSat h => exact congrArg SessionState.cpSat h.seen_eq

namespace Session

/-- What is seen of a session: all but its verbosity, the log and the calls that concern the output. -/
def seen (s : Session α) : Session α :=
  { s with config := { s.config with verbosity := 0 }, state := s.state.seen }

/-- Sessions for the same model that look the same, with configurations that differ in the verbosity. -/
inductive Alike : Session α → Session α → Prop
  | intro (m : ModelId) (k : Config α) (v : Int) {state state' : SessionState α} :
    state.Alike state' → Alike ⟨m, k, state⟩ ⟨m, { k with verbosity := v }, state'⟩

theorem Alike.seen_eq {s s' : Session α} (h : s.Alike s') : s'.seen = s.seen := by
  obtain ⟨m, k, v, hstate⟩ := h
  unfold seen
  rw [hstate.seen_eq]

/-- What is done with a session: something is lowered, or the search is run and reports. -/
inductive Action (α : Type) where
  | lower (w : Workspace α) (x : Request α)
  | solve (w : Workspace α) (r : SearchReport α)

/-- What comes of an action. -/
inductive Outcome (α : Type) where
  | lowered (r : Except (LoweringError α) String)
  | solved (r : Except SolveError (Solution α))

variable [Scalar α]

def act (s : Session α) : Action α → Outcome α × Session α
  | .lower w x => (.lowered (s.lower w x).1, (s.lower w x).2)
  | .solve w r => (.solved (s.solve w r).1, (s.solve w r).2)

/-- One action after another, whatever comes of them. -/
def run (s : Session α) : List (Action α) → List (Outcome α) × Session α
  | [] => ([], s)
  | a :: as => ((s.act a).1 :: ((s.act a).2.run as).1, ((s.act a).2.run as).2)

theorem inStep_request {ν σ : Type} [Numeral ν] {B : Backend α ν σ} {view : σ → σ}
    (hB : B.Steady view) (lower : Context α → LowerM α ν σ Unit) (c : Context α) (v : Int)
    (hlower : InStep (SameBut view) (lower c) (lower (c.verbose v))) (x : Request α) :
    InStep (SameBut view) (x.run B (lower c) c) (x.run B (lower (c.verbose v)) (c.verbose v)) := by
  cases x with
  | model => exact inStep_bind hlower fun _ => inStep_pure _
  | constraint x => exact inStep_bind (Backend.inStep_postInput hB x) fun _ => inStep_pure _
  | term x => exact inStep_bind (Backend.inStep_translateInput hB x) fun _ => inStep_pure _

theorem steady_recordingBackend (full : Bool) :
    (recordingBackend full : Backend α (Number α) (Recording.Record α)).Steady id := by
  cases full with
  | false => exact Recording.steady_plain
  | true => exact Recording.steady_full

section

variable {s s' : Session α}

theorem alike_fresh (kind : SolverKind) (full : Bool) (m : ModelId) (k : Config α) (v : Int) :
    (fresh kind full m k).Alike (fresh kind full m { k with verbosity := v }) := by
  refine .intro m k v ?_
  cases kind with
  | recording => exact .recording full (keeps_refl _)
  | scip => exact .scip (Scip.inStep_openModel k v _ _ (keeps_refl _)).2
  | z3 => exact .z3 (keeps_refl _)
  | cpSat => exact .cpSat (keeps_refl _)

theorem alike_lower (h : s.Alike s') (w : Workspace α) (x : Request α) :
    (s'.lower w x).1 = (s.lower w x).1 ∧ (s.lower w x).2.Alike (s'.lower w x).2 := by
  obtain ⟨m, k, v, hstate⟩ := h
  let c : Context α := ⟨w, m, k⟩
  cases hstate with
  | recording full hs =>
    have hB := steady_recordingBackend (α := α) full
    have hrun := inStep_request hB (recordingBackend full).lowerModel c v (Backend.inStep_lowerModel hB)
      x _ _ hs
    exact ⟨hrun.1, .intro m k v (.recording full hrun.2)⟩
  | scip hs =>
    have hrun := inStep_request (Tolerant.steady Scip.steady) Scip.lowerModel c v
      (Tolerant.inStep_lowerModel Scip.steady rfl) x _ _ hs
    exact ⟨hrun.1, .intro m k v (.scip hrun.2)⟩
  | z3 hs =>
    have hrun := inStep_request (Tolerant.steady Z3.steady) Z3.lowerModel c v
      (Tolerant.inStep_lowerModel Z3.steady rfl) x _ _ hs
    exact ⟨hrun.1, .intro m k v (.z3 hrun.2)⟩
  | cpSat hs =>
    have hrun := inStep_request CpSat.steady CpSat.lowerModel c v
      (Backend.inStep_lowerModel CpSat.steady) x _ _ hs
    exact ⟨hrun.1, .intro m k v (.cpSat hrun.2)⟩

theorem alike_solve (h : s.Alike s') (w : Workspace α) (r : SearchReport α) :
    (s'.solve w r).1 = (s.solve w r).1 ∧ (s.solve w r).2.Alike (s'.solve w r).2 := by
  obtain ⟨m, k, v, hstate⟩ := h
  let c : Context α := ⟨w, m, k⟩
  cases hstate with
  | recording full hs =>
    exact ⟨Recording.solve_congr c v hs r.recording, .intro m k v (.recording full hs)⟩
  | scip hs =>
    have hrun := Scip.inStep_solve c v r.scip _ _ hs
    exact ⟨hrun.1, .intro m k v (.scip hrun.2)⟩
  | z3 hs =>
    have hrun := Z3.inStep_solve c v r.z3 _ _ hs
    exact ⟨hrun.1, .intro m k v (.z3 hrun.2)⟩
  | cpSat hs =>
    have hrun := CpSat.inStep_solve c v r.cpSat _ _ hs
    exact ⟨hrun.1, .intro m k v (.cpSat hrun.2)⟩

theorem alike_act (h : s.Alike s') (a : Action α) :
    (s'.act a).1 = (s.act a).1 ∧ (s.act a).2.Alike (s'.act a).2 := by
  cases a with
  | lower w x => exact (alike_lower h w x).imp_left (congrArg Outcome.lowered)
  | solve w r => exact (alike_solve h w r).imp_left (congrArg Outcome.solved)

theorem alike_run (h : s.Alike s') (as : List (Action α)) :
    (s'.run as).1 = (s.run as).1 ∧ (s.run as).2.Alike (s'.run as).2 := by
  induction as generalizing s s' with
  | nil => exact ⟨rfl, h⟩
  | cons a as ih =>
    obtain ⟨hresult, hnext⟩ := alike_act h a
    obtain ⟨hresults, hend⟩ := ih hnext
    exact ⟨congrArg₂ List.cons hresult hresults, hend⟩

end

/-- Under two configurations that differ in their verbosity only, lowering a model for any solver gives
the same result, and so does whatever is lowered or solved afterwards; in the end the sessions differ in
their verbosity, in their logs and in the calls that concern the output, and in nothing else. -/
theorem start_run_of_verbosity (kind : SolverKind) (full : Bool) (w : Workspace α) (m : ModelId)
    (k : Config α) (v v' : Int) (as : List (Action α)) :
    let first := start kind full w m { k with verbosity := v }
    let second := start kind full w m { k with verbosity := v' }
    second.1 = first.1 ∧ (second.2.run as).1 = (first.2.run as).1 ∧
      (second.2.run as).2.seen = (first.2.run as).2.seen := by
  intro first second
  have hfresh := alike_fresh kind full m { k with verbosity := v } v'
  obtain ⟨hstart, halike⟩ := alike_lower hfresh w .model
  obtain ⟨hrun, hend⟩ := alike_run halike as
  exact ⟨hstart, hrun, hend.seen_eq⟩

end Session

end DecisionModel
