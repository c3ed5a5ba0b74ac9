import DecisionModel.Proofs.Builder.History
import DecisionModel.Proofs.Evaluation.Monotone
import DecisionModel.Proofs.Fault
import DecisionModel.Proofs.Keeps
import DecisionModel.Proofs.Solver.Reported

/-!
# Only incumbents are read back

A solution is filled in two rounds, first with the sequences and then with all variables. It holds
nothing but what was read (`Holds`), and in the end every variable of the model (`ReadFrom`), so that
the two rounds agree. What is read for a variable is the value that the solver reports for its handle,
rounded (`LoweringState.Reads`). The three solvers reach this point in different ways, but only after a
report of an incumbent, and not if a constraint folded to false (`Session.solve_readBack`).
-/

namespace DecisionModel

variable {α ν σ : Type}

/-! ### Filling a solution -/

/-- The solution has the values of all variables of a model that are read, and those of its sequences. -/
structure Solution.ReadFrom [Scalar α] (sol : Solution α) (w : Workspace α) (m : ModelId)
    (Reads : VarId → α → Prop) : Prop where
  stored {v : VarId} : v ∈ w.allVariables m → ∃ x, Reads v x ∧ sol.stored? v = some x
  complete : sol.isComplete w = true
  sequence {model : Model α} {q : SequenceId} : w.findModel m = some model → q ∈ model.sequences →
    sol.getSequence w q = (w.sequenceMembers q).mapM sol.stored?

/-- All that the solution holds was read. -/
structure Solution.Holds (sol : Solution α) (w : Workspace α) (read : VarId → Except SolveError α) :
    Prop where
  stored {v : VarId} {x : α} : sol.stored? v = some x → read v = .ok x
  sequence {q : SequenceId} {xs : List α} : Table.get? sol.sequences q = some xs →
    (w.sequenceMembers q).mapM read = .ok xs

/-- The second solution is the first one with more values stored. -/
structure Solution.Fills (sol sol' : Solution α) : Prop where
  model : sol'.model = sol.model
  status : sol'.status = sol.status
  stored {v : VarId} : (sol.stored? v).isSome → (sol'.stored? v).isSome

namespace Solution

variable {w : Workspace α} {read : VarId → Except SolveError α} {sol sol₁ sol₂ : Solution α}

theorem Fills.refl (sol : Solution α) : sol.Fills sol := ⟨rfl, rfl, fun h => h⟩

theorem Fills.trans (h₁ : sol.Fills sol₁) (h₂ : sol₁.Fills sol₂) : sol.Fills sol₂ :=
  ⟨h₂.model.trans h₁.model, h₂.status.trans h₁.status, fun h => h₂.stored (h₁.stored h)⟩

theorem fills_set (sol : Solution α) (v : VarId) (x : α) : sol.Fills (sol.set v x) := by
  refine ⟨rfl, rfl, fun {u} h => ?_⟩
  rw [stored?_set]
  split
  · rfl
  · exact h

theorem Holds.set (h : sol.Holds w read) {v : VarId} {x : α} (hx : read v = .ok x) :
    (sol.set v x).Holds w read := by
  refine ⟨fun {u y} hy => ?_, h.sequence⟩
  rw [stored?_set] at hy
  split at hy
  · rename_i huv
    cases hy
    rw [huv, hx]
  · exact h.stored hy

/-- Values that were read are entered one after the other. -/
theorem Holds.setAll {entries : List (VarId × α)} (h : sol.Holds w read)
    (hread : ∀ e ∈ entries, read e.1 = .ok e.2) :
    (entries.foldl (fun s e => s.set e.1 e.2) sol).Holds w read ∧
      sol.Fills (entries.foldl (fun s e => s.set e.1 e.2) sol) := by
  induction entries generalizing sol with
  | nil => exact ⟨h, .refl sol⟩
  | cons e entries ih =>
    obtain ⟨hlast, hfills⟩ := ih (h.set (hread e List.mem_cons_self)) fun e' he' =>
      hread e' (List.mem_cons_of_mem e he')
    exact ⟨hlast, (fills_set sol e.1 e.2).trans hfills⟩

/-- The results stand beside what they are results of. -/
theorem ok_of_mem_zip {vs : List VarId} {xs : List α} (h : vs.mapM read = .ok xs) :
    ∀ e ∈ vs.zip xs, read e.1 = .ok e.2 := by
  induction vs generalizing xs with
  | nil => simp
  | cons v vs ih =>
    rw [List.mapM_cons] at h
    obtain ⟨x, hx, h⟩ := exists_of_bind h
    obtain ⟨xs, hxs, h⟩ := exists_of_bind h
    cases h
    intro e he
    rcases List.mem_cons.mp he with rfl | he
    · exact hx
    · exact ih hxs e he

theorem Holds.enterSequence (h : sol.Holds w read) {q : SequenceId} {xs : List α}
    (hxs : (w.sequenceMembers q).mapM read = .ok xs) :
    (sol.enterSequence w q xs).Holds w read ∧ sol.Fills (sol.enterSequence w q xs) := by
  obtain ⟨hfilled, hfills⟩ := h.setAll (ok_of_mem_zip hxs)
  refine ⟨⟨hfilled.stored, fun {p ys} hp => ?_⟩, ⟨hfills.model, hfills.status, hfills.stored⟩⟩
  rw [Solution.enterSequence, Table.get?_put] at hp
  split at hp
  · rename_i hpq
    cases hp
    rw [hpq]
    exact hxs
  · exact hfilled.sequence hp

/-- Where all members are stored, their values are those that were read together. -/
theorem Holds.mapM_stored? (h : sol.Holds w read) {vs : List VarId} {xs : List α}
    (hvs : ∀ v ∈ vs, (sol.stored? v).isSome) (hxs : vs.mapM read = .ok xs) :
    vs.mapM sol.stored? = some xs := by
  induction vs generalizing xs with
  | nil =>
    cases hxs
    rfl
  | cons v vs ih =>
    rw [List.mapM_cons] at hxs ⊢
    obtain ⟨x, hx, hxs⟩ := exists_of_bind hxs
    obtain ⟨xs, hxs', hxs⟩ := exists_of_bind hxs
    cases hxs
    obtain ⟨y, hy⟩ := Option.isSome_iff_exists.mp (hvs v List.mem_cons_self)
    obtain rfl : x = y := Except.ok.inj (hx.symm.trans (h.stored hy))
    rw [hy, ih (fun u hu => hvs u (List.mem_cons_of_mem v hu)) hxs']
    rfl

/-- A solution that stores all variables, and nothing but what was read. -/
theorem Holds.readFrom [Scalar α] (h : sol.Holds w read) {Reads : VarId → α → Prop}
    (hreads : ∀ {v x}, read v = .ok x → Reads v x) {m : ModelId} (hm : sol.model = m)
    (hall : ∀ v ∈ w.allVariables m, (sol.stored? v).isSome) : sol.ReadFrom w m Reads where
  stored {v} hv := by
    obtain ⟨x, hx⟩ := Option.isSome_iff_exists.mp (hall v hv)
    exact ⟨x, hreads (h.stored hx), hx⟩
  complete := by
    unfold isComplete
    rw [hm, List.all_eq_true]
    intro v hv
    rw [hall v hv, Bool.or_true]
  sequence {model q} hmodel hq := by
    have hmembers : ∀ v ∈ w.sequenceMembers q, (sol.stored? v).isSome := fun v hv => by
      refine hall v ?_
      unfold Workspace.allVariables
      rw [hmodel]
      exact List.mem_append_left _ (List.mem_append_left _ (List.mem_flatMap.mpr ⟨q, hq, hv⟩))
    unfold getSequence
    split
    · rename_i xs hxs
      exact (h.mapM_stored? hmembers (h.sequence hxs)).symm
    · rfl

end Solution

namespace Readout

open Solution

variable [Scalar α] {c : Context α} {s : LoweringState ν σ}
  {value : Handle ν → Except SolveError (Number α)} {Gives : Handle ν → Number α → Prop}
  {sol sol₁ : Solution α}

theorem fill_sequences {qs : List SequenceId}
    (h : sol.Holds c.workspace (readVariable c s value))
    (hfill : qs.foldlM (readSequence c s value) sol = .ok sol₁) :
    sol₁.Holds c.workspace (readVariable c s value) ∧ sol.Fills sol₁ := by
  induction qs generalizing sol with
  | nil =>
    cases hfill
    exact ⟨h, .refl _⟩
  | cons q qs ih =>
    rw [List.foldlM_cons] at hfill
    obtain ⟨sol', hread, hfill⟩ := exists_of_bind hfill
    obtain ⟨xs, hxs, hread⟩ := exists_of_bind hread
    cases hread
    obtain ⟨hstep, hfills⟩ := h.enterSequence hxs
    obtain ⟨hlast, hrest⟩ := ih hstep hfill
    exact ⟨hlast, hfills.trans hrest⟩

theorem fill_variables {vs : List VarId}
    (h : sol.Holds c.workspace (readVariable c s value))
    (hfill : vs.foldlM (fun solution v => do return solution.set v (← readVariable c s value v)) sol =
      .ok sol₁) :
    sol₁.Holds c.workspace (readVariable c s value) ∧ sol.Fills sol₁ ∧
      ∀ v ∈ vs, (sol₁.stored? v).isSome := by
  induction vs generalizing sol with
  | nil =>
    cases hfill
    exact ⟨h, .refl _, by simp⟩
  | cons v vs ih =>
    rw [List.foldlM_cons] at hfill
    obtain ⟨sol', hread, hfill⟩ := exists_of_bind hfill
    obtain ⟨x, hx, hread⟩ := exists_of_bind hread
    cases hread
    obtain ⟨hlast, hrest, hstored⟩ := ih (h.set hx) hfill
    refine ⟨hlast, (fills_set sol v x).trans hrest, fun u hu => ?_⟩
    rcases List.mem_cons.mp hu with rfl | hu
    · exact hrest.stored (by rw [stored?_set, if_pos rfl]; rfl)
    · exact hstored u hu

/-- A solution that is read back has a value for every variable of the model. -/
theorem readFrom_of_solution (hgives : ∀ {h x}, value h = .ok x → Gives h x) {status : Status}
    {objective : Option (Number α)} (h : solution c s value status objective = .ok sol) :
    sol.status = status ∧ sol.ReadFrom c.workspace c.model (s.Reads Gives c.config.precision) := by
  obtain ⟨withSequences, hsequences, h⟩ := exists_of_bind h
  obtain ⟨filled, hvariables, h⟩ := exists_of_bind h
  have hempty : Solution.Holds { model := c.model, status } c.workspace (readVariable c s value) :=
    ⟨fun h => by simp [stored?] at h, fun h => by simp [Table.get?] at h⟩
  obtain ⟨hfirst, hfills₁⟩ := fill_sequences hempty hsequences
  obtain ⟨hsecond, hfills₂, hall⟩ := fill_variables hfirst hvariables
  have hfills := hfills₁.trans hfills₂
  have hread := hsecond.readFrom (reads_of_readVariable hgives) hfills.model hall
  cases objective with
  | none =>
    cases h
    exact ⟨hfills.status, hread⟩
  | some x =>
    obtain ⟨y, -, h⟩ := exists_of_bind h
    cases h
    exact ⟨hfills.status, ⟨hread.stored, hread.complete, hread.sequence⟩⟩

end Readout

/-! ### Solving -/

/-- The handles of the variables are the same, and the constraints that folded to false. -/
structure LoweringState.SameHandles (s s' : LoweringState ν σ) : Prop where
  handles : s'.handles = s.handles
  violated : s'.violated = s.violated

instance : IsPreorder (LoweringState ν σ) LoweringState.SameHandles where
  refl _ := ⟨rfl, rfl⟩
  trans _ _ _ h h' := ⟨h'.handles.trans h.handles, h'.violated.trans h.violated⟩

/-- What solving may end with: an error, a solution without any value, or, after the report of an
incumbent, a solution that was read from it. -/
inductive ReadBack [Scalar α] (w : Workspace α) (m : ModelId) (Reads : VarId → α → Prop)
    (incumbent : Prop) : Except SolveError (Solution α) → Prop
  | raised (e : SolveError) : ReadBack w m Reads incumbent (.error e)
  | undecided : ReadBack w m Reads incumbent (.ok { model := m, status := .unknown })
  | found {sol : Solution α} : incumbent → sol.status = .feasible ∨ sol.status = .optimal →
    sol.ReadFrom w m Reads → ReadBack w m Reads incumbent (.ok sol)

namespace SolveM

open LoweringState

variable {β : Type} {s s₀ : LoweringState ν σ}

section

variable {R : LoweringState ν σ → LoweringState ν σ → Prop} [IsPreorder (LoweringState ν σ) R]

theorem keeps_ofExcept (r : Except SolveError β) : Keeps R (ofExcept r : SolveM ν σ β) := by
  cases r with
  | ok x => exact keeps_pure x
  | error e => exact keeps_throw e

end

theorem keeps_log (config : Config α) (level : Int) (line : String) :
    Keeps SameHandles (log config level line : SolveM ν σ Unit) :=
  keeps_ite (keeps_modify fun _ => ⟨rfl, rfl⟩) (keeps_pure _)

/-- Nothing is done if a constraint folded to false. -/
theorem run_of_violated (h : s.violated ≠ []) (m : SolveM ν σ β) :
    ∃ text, (do ofExcept (← get).ensureSatisfiable; m : SolveM ν σ β).run.run s =
      (.error (.alwaysFalse text), s) := by
  cases hv : s.violated with
  | nil => exact absurd hv h
  | cons text texts =>
    refine ⟨text, ?_⟩
    rw [run_get_bind, ensureSatisfiable, hv]
    rfl

/-- Wherever `m` is run with the handles of `s₀`, it leaves them, and what it returns has the
property. -/
def Ends (s₀ : LoweringState ν σ) (m : SolveM ν σ β) (P : β → Prop) : Prop :=
  ∀ s, SameHandles s₀ s →
    SameHandles s₀ (m.run.run s).2 ∧ ∀ x, (m.run.run s).1 = .ok x → P x

variable {γ : Type} {P : γ → Prop}

theorem ends_bind {m : SolveM ν σ β} {f : β → SolveM ν σ γ} (hm : Keeps SameHandles m)
    (hf : ∀ x, Ends s₀ (f x) P) : Ends s₀ (m >>= f) P := by
  intro s hs
  have hs₁ := keeps_trans hs (hm s)
  rcases hr : m.run.run s with ⟨e | x, s₁⟩
  · rw [hr] at hs₁
    rw [run_bind_of_error hr]
    exact ⟨hs₁, fun _ h => nomatch h⟩
  · rw [hr] at hs₁
    rw [run_bind_of_ok hr]
    exact hf x s₁ hs₁

/-- What follows a result may use what it is the result of. -/
theorem ends_ofExcept {r : Except SolveError β} {f : β → SolveM ν σ γ}
    (hf : ∀ x, r = .ok x → Ends s₀ (f x) P) : Ends s₀ (ofExcept r >>= f) P := by
  cases r with
  | ok x => exact hf x rfl
  | error e => exact fun s hs => ⟨hs, fun _ h => nomatch h⟩

theorem ends_get {f : LoweringState ν σ → SolveM ν σ γ}
    (hf : ∀ s, SameHandles s₀ s → Ends s₀ (f s) P) : Ends s₀ (get >>= f) P :=
  fun s hs => hf s hs s hs

theorem ends_pure {x : γ} (h : P x) : Ends s₀ (pure x) P := fun _ hs => ⟨hs, by rintro _ ⟨⟩; exact h⟩

theorem ends_throw (e : SolveError) : Ends s₀ (throw e) P := fun _ hs => ⟨hs, fun _ h => nomatch h⟩

theorem ends_when {p : Prop} [Decidable p] {m : SolveM ν σ PUnit} {f : PUnit → SolveM ν σ γ}
    (hm : Keeps SameHandles m) (hf : Ends s₀ (f ⟨⟩) P) :
    Ends s₀ (if p then m >>= f else f ⟨⟩) P := by
  split
  · exact ends_bind hm fun _ => hf
  · exact hf

variable [Scalar α] {c : Context α} {value : Handle ν → Except SolveError (Number α)}
  {Gives : Handle ν → Number α → Prop} {incumbent : Prop}

theorem reads_congr (h : SameHandles s₀ s) : s.Reads Gives = s₀.Reads Gives := by
  unfold LoweringState.Reads LoweringState.handle?
  rw [h.handles]

/-- The last step: the solution is read from an incumbent. -/
theorem ends_solution (hgives : ∀ {h x}, value h = .ok x → Gives h x) (h : SameHandles s₀ s)
    (hincumbent : incumbent) {status : Status} (hstatus : status = .feasible ∨ status = .optimal)
    (objective : Option (Number α)) :
    Ends s₀ (ofExcept (Readout.solution c s value status objective)) fun sol =>
      ReadBack c.workspace c.model (s₀.Reads Gives c.config.precision) incumbent (.ok sol) := by
  intro s₁ hs₁
  cases hsol : Readout.solution c s value status objective with
  | error e => exact ⟨hs₁, fun _ h => nomatch h⟩
  | ok sol =>
    refine ⟨hs₁, ?_⟩
    rintro _ ⟨⟩
    obtain ⟨hstatus', hread⟩ := Readout.readFrom_of_solution hgives hsol
    rw [reads_congr h] at hread
    exact .found hincumbent (hstatus' ▸ hstatus) hread

/-- What solving does in any state: it refuses without doing anything, or ends as it may. -/
structure Sound (solve : SolveM ν σ (Solution α)) (c : Context α)
    (Gives : Handle ν → Number α → Prop) (incumbent : Prop) : Prop where
  keeps : Keeps SameHandles solve
  refuses {s : LoweringState ν σ} : s.violated ≠ [] →
    ∃ text, solve.run.run s = (.error (.alwaysFalse text), s)
  readBack (s : LoweringState ν σ) :
    ReadBack c.workspace c.model (s.Reads Gives c.config.precision) incumbent (solve.run.run s).1

/-- Solving begins with a look at the constraints that folded to false. -/
theorem sound_of_ends {m : SolveM ν σ (Solution α)}
    (hm : ∀ s₀, Ends s₀ m fun sol =>
      ReadBack c.workspace c.model (s₀.Reads Gives c.config.precision) incumbent (.ok sol)) :
    Sound (do ofExcept (← get).ensureSatisfiable; m) c Gives incumbent := by
  have hall : ∀ s₀, Ends s₀ (do ofExcept (← get).ensureSatisfiable; m : SolveM ν σ (Solution α))
      fun sol => ReadBack c.workspace c.model (s₀.Reads Gives c.config.precision) incumbent (.ok sol) :=
    fun s₀ => ends_get fun _ _ => ends_ofExcept fun _ _ => hm s₀
  refine ⟨fun s => (hall s s (keeps_refl s)).1, fun h => run_of_violated h m, fun s => ?_⟩
  have hends := (hall s s (keeps_refl s)).2
  rcases hr : ((do ofExcept (← get).ensureSatisfiable; m : SolveM ν σ (Solution α)).run.run s).1 with
    e | sol
  · exact .raised e
  · exact hends sol hr

end SolveM

end DecisionModel

/-! ### SCIP -/

namespace DecisionModel.Scip

open LoweringState SolveM Tolerant

variable {α : Type} [Scalar α]

/-- The search ended with an optimum, or was stopped after a solution had been found. -/
def Report.HasIncumbent (r : Report α) : Prop :=
  r.status = "optimal" ∨ r.status ∈ limitStatuses ∧ 0 < r.solutions

omit [Scalar α] in
theorem keeps_callWhileSolving (c : Call α) : Keeps SameHandles (callWhileSolving c) :=
  keeps_modify fun _ => ⟨rfl, rfl⟩

omit [Scalar α] in
/-- A status that promises values comes with an incumbent. -/
theorem Report.verdict_ok {r : Report α} {status : Status} (h : r.verdict = .ok status)
    (hne : status ≠ .unknown) :
    r.HasIncumbent ∧ (status = .feasible ∨ status = .optimal) := by
  unfold Report.verdict at h
  split at h
  · rename_i hopt
    cases h
    exact ⟨.inl hopt, .inr rfl⟩
  · split at h
    · cases h
    · split at h
      · cases h
      · split at h
        · rename_i hlimit
          cases h
          exact ⟨.inr hlimit, .inl rfl⟩
        · cases h
          exact absurd rfl hne

theorem sound_solve (c : Context α) (r : Report α) :
    Sound (solve c r) c r.Gives r.HasIncumbent := by
  refine sound_of_ends fun s₀ => ?_
  rcases c.config.timeLimit with _ | seconds
  rotate_left
  refine ends_bind (keeps_callWhileSolving _) fun _ => ?_
  -- A time limit is one call more; from here on the two runs are the same.
  all_goals
    refine ends_bind (keeps_log _ _ _) fun _ => ends_bind (keeps_callWhileSolving _) fun _ => ?_
    refine ends_bind (keeps_log _ _ _) fun _ => ends_bind (keeps_log _ _ _) fun _ => ?_
    refine ends_bind (keeps_log _ _ _) fun _ => ends_ofExcept fun status hverdict => ?_
    split
    · exact ends_pure .undecided
    · rename_i hne
      obtain ⟨hincumbent, hstatus⟩ := Report.verdict_ok hverdict hne
      exact ends_get fun s hs => ends_solution r.gives_of_valueOf hs hincumbent hstatus _

end DecisionModel.Scip

/-! ### Z3 -/

namespace DecisionModel.Z3

open LoweringState SolveM Tolerant

variable {α : Type} [Scalar α]

/-- The check found a model of the constraints. -/
def Report.HasIncumbent (r : Report α) : Prop := r.verdict = .sat

omit [Scalar α] in
theorem keeps_callWhileSolving (c : Call α) : Keeps SameHandles (callWhileSolving c) :=
  keeps_modify fun _ => ⟨rfl, rfl⟩

theorem keeps_setTimeLimit (c : Context α) : Keeps SameHandles (setTimeLimit c) := by
  unfold setTimeLimit
  split
  · refine keeps_ite (keeps_bind (keeps_ofExcept _) fun _ => keeps_callWhileSolving _) (keeps_pure _)
  · exact keeps_pure _

theorem keeps_prepare (c : Context α) : Keeps SameHandles (prepare c) := by
  refine keeps_look fun s => keeps_bind (keeps_callWhileSolving _) fun _ => ?_
  refine keeps_bind (keeps_forM fun r _ => keeps_callWhileSolving _) fun _ => ?_
  refine keeps_bind (keeps_setTimeLimit c) fun _ => ?_
  refine keeps_bind (keeps_forM fun o _ => keeps_callWhileSolving _) fun _ => ?_
  split
  · exact keeps_callWhileSolving _
  · exact keeps_pure _

omit [Scalar α] in
theorem keeps_check (c : Context α) : Keeps SameHandles (check c) := by
  refine keeps_when (keeps_callWhileSolving _) (keeps_bind (keeps_callWhileSolving _) fun _ => ?_)
  exact keeps_ite (keeps_callWhileSolving _) (keeps_pure _)

theorem sound_solve (c : Context α) (r : Report α) :
    Sound (solve c r) c r.Gives r.HasIncumbent := by
  refine sound_of_ends fun s₀ => ?_
  refine ends_bind (keeps_prepare c) fun _ => ends_bind (keeps_log _ _ _) fun _ => ?_
  refine ends_get fun s _ => ends_bind (keeps_log _ _ _) fun _ => ends_bind (keeps_check c) fun _ => ?_
  refine ends_bind (keeps_log _ _ _) fun _ => ends_bind (keeps_log _ _ _) fun _ => ?_
  refine ends_bind (keeps_forM fun e _ => keeps_log _ _ _) fun _ => ?_
  cases hverdict : r.verdict with
  | unsat => exact ends_throw _
  | undecided text => exact ends_bind (keeps_log _ _ _) fun _ => ends_pure .undecided
  | sat =>
    refine ends_get fun s hs => ?_
    dsimp only
    split
    · exact ends_solution r.gives_of_valueOf hs hverdict (.inr rfl) _
    · refine ends_when (keeps_throw _) (ends_ofExcept fun x _ => ?_)
      exact ends_solution r.gives_of_valueOf hs hverdict (.inr rfl) _

end DecisionModel.Z3

/-! ### CP-SAT -/

namespace DecisionModel.CpSat

open LoweringState SolveM

variable {α : Type} [Scalar α]

/-- The search found a solution, be it an optimal one or not. -/
def Report.HasIncumbent (r : Report α) : Prop := r.verdict = .optimal ∨ r.verdict = .feasible

theorem keeps_callWhileSolving (c : Call) : Keeps SameHandles (callWhileSolving c) :=
  keeps_modify fun _ => ⟨rfl, rfl⟩

/-- What no setting of a parameter affects. -/
theorem keeps_configure {R : CpSatState → CpSatState → Prop} [IsPreorder CpSatState R]
    (hset : ∀ name value, Keeps R (callWhileSolving (.parameter name value))) (c : Config α) :
    Keeps R (configure c) := by
  have hrest : Keeps R (do
      if 2 ≤ c.verbosity then callWhileSolving (.parameter "log_search_progress" "true")
      c.options.forM fun o => callWhileSolving (.parameter o.1 o.2.write)) :=
    keeps_when (hset _ _) (keeps_forM fun o _ => hset _ _)
  unfold configure
  cases c.timeLimit with
  | none => exact hrest
  | some seconds => exact keeps_bind (hset _ _) fun _ => hrest

omit [Scalar α] in
/-- A status that promises values comes with an incumbent. -/
theorem Report.status_ok {r : Report α} {status : Status} (h : r.status = .ok status)
    (hne : status ≠ .unknown) : r.HasIncumbent ∧ (status = .feasible ∨ status = .optimal) := by
  unfold Report.status at h
  split at h
  · rename_i hverdict
    cases h
    exact ⟨.inl hverdict, .inr rfl⟩
  · rename_i hverdict
    cases h
    exact ⟨.inr hverdict, .inl rfl⟩
  · cases h
  · cases h
  · cases h
    exact absurd rfl hne

theorem sound_solve (c : Context α) (r : Report α) :
    Sound (solve c r) c r.Gives r.HasIncumbent := by
  refine sound_of_ends fun s₀ => ?_
  refine ends_bind (keeps_configure (fun _ _ => keeps_callWhileSolving _) _) fun _ => ?_
  refine ends_bind (keeps_log _ _ _) fun _ => ends_bind (keeps_callWhileSolving _) fun _ => ?_
  refine ends_bind (keeps_log _ _ _) fun _ => ends_ofExcept fun status hstatus => ?_
  split
  · exact ends_pure .undecided
  · rename_i hne
    obtain ⟨hincumbent, hfound⟩ := Report.status_ok hstatus hne
    exact ends_get fun s hs => ends_solution r.gives_of_valueOf hs hincumbent hfound _

end DecisionModel.CpSat

/-! ### Sessions -/

namespace DecisionModel

open SolveM

variable {α : Type} [Scalar α]

namespace Session

/-- The kind of solver that the session is for. -/
def kind (s : Session α) : SolverKind :=
  match s.state with
  | .recording .. => .recording
  | .scip _ => .scip
  | .z3 _ => .z3
  | .cpSat _ => .cpSat

/-- What is read for a variable: the value that the solver of the session reports for its handle,
rounded to the places that the configuration asks for. -/
def Reads (s : Session α) (r : SearchReport α) : VarId → α → Prop :=
  match s.state with
  | .recording _ state => state.Reads (fun h x => x = r.recording.value h) s.config.precision
  | .scip state => state.Reads r.scip.Gives s.config.precision
  | .z3 state => state.Reads r.z3.Gives s.config.precision
  | .cpSat state => state.Reads r.cpSat.Gives s.config.precision

/-- The solver of the session reports an incumbent. -/
def HasIncumbent (s : Session α) (r : SearchReport α) : Prop :=
  match s.state with
  | .recording .. => False
  | .scip _ => r.scip.HasIncumbent
  | .z3 _ => r.z3.HasIncumbent
  | .cpSat _ => r.cpSat.HasIncumbent

/-- The session after searches that ended with these reports. -/
def afterSolves (s : Session α) (w : Workspace α) (reports : List (SearchReport α)) : Session α :=
  reports.foldl (fun s r => (s.solve w r).2) s

/-- What a search leaves for the next one. -/
structure SameReading (s s' : Session α) : Prop where
  model : s'.model = s.model
  kind : s'.kind = s.kind
  violated : s'.violated = s.violated
  reading : s'.Reads = s.Reads
  incumbent : s'.HasIncumbent = s.HasIncumbent

theorem SameReading.refl (s : Session α) : s.SameReading s := ⟨rfl, rfl, rfl, rfl, rfl⟩

theorem SameReading.trans {s s₁ s₂ : Session α} (h₁ : s.SameReading s₁) (h₂ : s₁.SameReading s₂) :
    s.SameReading s₂ :=
  ⟨h₂.model.trans h₁.model, h₂.kind.trans h₁.kind, h₂.violated.trans h₁.violated,
    h₂.reading.trans h₁.reading, h₂.incumbent.trans h₁.incumbent⟩

variable {s : Session α}

theorem sameReading_solve (s : Session α) (w : Workspace α) (r : SearchReport α) :
    s.SameReading (s.solve w r).2 := by
  obtain ⟨m, config, state⟩ := s
  cases state with
  | recording full state => exact .refl _
  | scip state =>
    have hs := (Scip.sound_solve ⟨w, m, config⟩ r.scip).keeps state
    refine ⟨rfl, rfl, hs.violated, ?_, rfl⟩
    funext r'
    exact congrFun (reads_congr hs) config.precision
  | z3 state =>
    have hs := (Z3.sound_solve ⟨w, m, config⟩ r.z3).keeps state
    refine ⟨rfl, rfl, hs.violated, ?_, rfl⟩
    funext r'
    exact congrFun (reads_congr hs) config.precision
  | cpSat state =>
    have hs := (CpSat.sound_solve ⟨w, m, config⟩ r.cpSat).keeps state
    refine ⟨rfl, rfl, hs.violated, ?_, rfl⟩
    funext r'
    exact congrFun (reads_congr hs) config.precision

/-- Where a constraint folded to false, a search is refused and nothing changes. -/
theorem solve_of_violated (hkind : s.kind ∈ SolverKind.known) (w : Workspace α) (r : SearchReport α)
    (hv : s.violated ≠ []) : ∃ text, s.solve w r = (.error (.alwaysFalse text), s) := by
  obtain ⟨m, config, state⟩ := s
  cases state with
  | recording full state => exact absurd hkind (show .recording ∉ SolverKind.known by decide)
  | scip state =>
    obtain ⟨text, hr⟩ := (Scip.sound_solve ⟨w, m, config⟩ r.scip).refuses hv
    refine ⟨text, ?_⟩
    simp only [solve, context, hr]
  | z3 state =>
    obtain ⟨text, hr⟩ := (Z3.sound_solve ⟨w, m, config⟩ r.z3).refuses hv
    refine ⟨text, ?_⟩
    simp only [solve, context, hr]
  | cpSat state =>
    obtain ⟨text, hr⟩ := (CpSat.sound_solve ⟨w, m, config⟩ r.cpSat).refuses hv
    refine ⟨text, ?_⟩
    simp only [solve, context, hr]

/-- What one search ends with. -/
theorem readBack_solve (hkind : s.kind ∈ SolverKind.known) (w : Workspace α) (r : SearchReport α) :
    ReadBack w s.model (s.Reads r) (s.HasIncumbent r) (s.solve w r).1 := by
  obtain ⟨m, config, state⟩ := s
  cases state with
  | recording full state => exact absurd hkind (show .recording ∉ SolverKind.known by decide)
  | scip state => exact (Scip.sound_solve ⟨w, m, config⟩ r.scip).readBack state
  | z3 state => exact (Z3.sound_solve ⟨w, m, config⟩ r.z3).readBack state
  | cpSat state => exact (CpSat.sound_solve ⟨w, m, config⟩ r.cpSat).readBack state

theorem sameReading_afterSolves (s : Session α) (w : Workspace α) (reports : List (SearchReport α)) :
    s.SameReading (s.afterSolves w reports) := by
  induction reports generalizing s with
  | nil => exact .refl s
  | cons r reports ih => exact (sameReading_solve s w r).trans (ih _)

theorem afterSolves_of_violated (hkind : s.kind ∈ SolverKind.known) (w : Workspace α)
    (reports : List (SearchReport α)) (hv : s.violated ≠ []) : s.afterSolves w reports = s := by
  induction reports with
  | nil => rfl
  | cons r reports ih =>
    obtain ⟨text, hr⟩ := solve_of_violated hkind w r hv
    rw [afterSolves, List.foldl_cons, hr]
    exact ih

/-- Whatever was lowered into a session and whatever its searches reported before: if a constraint folded
to false, solving is refused and the solver has not been called since; otherwise it ends with an error,
with a solution without values, or with one that was read from an incumbent. -/
theorem solve_readBack (hkind : s.kind ∈ SolverKind.known) (w : Workspace α)
    (reports : List (SearchReport α)) (r : SearchReport α) :
    (s.violated ≠ [] → ∃ text, (s.afterSolves w reports).solve w r = (.error (.alwaysFalse text), s)) ∧
    (s.violated = [] → ReadBack w s.model (s.Reads r) (s.HasIncumbent r)
      ((s.afterSolves w reports).solve w r).1) := by
  refine ⟨fun hv => ?_, fun _ => ?_⟩
  · rw [afterSolves_of_violated hkind w reports hv]
    exact solve_of_violated hkind w r hv
  · have hsame := sameReading_afterSolves s w reports
    have hread := readBack_solve (hsame.kind ▸ hkind) w r
    rwa [hsame.model, hsame.reading, hsame.incumbent] at hread

/-! ### The small model -/

/-- The small model, lowered for a solver. -/
def small (kind : SolverKind) : Session Exact := (start kind false Small.workspace ⟨0⟩ {}).2

/-- The small model with a constraint that folds to false. -/
def smallFolded : Session Exact :=
  ((small .scip).lower Small.workspace
    (.constraint (.term (.node ⟨9⟩ (.comparison .lt) [.const (.finite 2), .const (.finite 1)])))).2

/-- The search is stopped by a time limit, before or after a solution is found; in SCIP and Z3 the first
variable misses two by a little. -/
def smallReport (found : Bool) : SearchReport Exact where
  recording := { value := fun _ => .int 0 }
  scip := {
    status := "timelimit", nodes := 1, solutions := if found then 1 else 0, objective := .int 0
    value := fun h => if h.text = "x" then .real (.finite (19999999 / 10000000)) else .int 3 }
  z3 := {
    verdict := if found then .sat else .undecided "unknown", reason := "timeout", optimum := ""
    statistics := [], value := fun h => if h.text = "x" then .quotient 19999999 10000000 else .integer 3 }
  cpSat := {
    verdict := if found then .feasible else .undecided "UNKNOWN", complaint := "", objective := .int 0
    value := fun h => if h.text = "x" then .int 2 else .int 3 }

/-- The second search of a session, which finds a solution. -/
def secondSearch (s : Session Exact) : Except SolveError (Solution Exact) × Session Exact :=
  (s.afterSolves Small.workspace [smallReport false]).solve Small.workspace (smallReport true)

/-- The second search reads the incumbent back, with the values two and three. -/
structure ReadsSmall (kind : SolverKind) (status : Status) : Prop where
  known : (small kind).kind ∈ SolverKind.known
  satisfiable : (small kind).violated = []
  values : (secondSearch (small kind)).1.toOption.map
    (fun sol => (sol.status, sol.stored? ⟨0⟩, sol.stored? ⟨1⟩)) =
      some (status, some (.finite 2), some (.finite 3))
  readBack : ReadBack Small.workspace (small kind).model ((small kind).Reads (smallReport true))
    ((small kind).HasIncumbent (smallReport true)) (secondSearch (small kind)).1

/-- Each solver is asked twice and found a solution in between, and where a constraint folded to false none
is asked. -/
theorem small_solve_readBack :
    ReadsSmall .scip .feasible ∧ ReadsSmall .z3 .optimal ∧ ReadsSmall .cpSat .feasible ∧
      smallFolded.kind ∈ SolverKind.known ∧ smallFolded.violated ≠ [] ∧
      ∃ text, secondSearch smallFolded = (.error (.alwaysFalse text), smallFolded) := by
  have hread {kind : SolverKind} (hkind : (small kind).kind ∈ SolverKind.known)
      (hv : (small kind).violated = []) := (solve_readBack hkind Small.workspace [smallReport false]
    (smallReport true)).2 hv
  have hscip : (small .scip).kind ∈ SolverKind.known ∧ (small .scip).violated = [] := by decide +kernel
  have hz3 : (small .z3).kind ∈ SolverKind.known ∧ (small .z3).violated = [] := by decide +kernel
  have hcpSat : (small .cpSat).kind ∈ SolverKind.known ∧ (small .cpSat).violated = [] := by
    decide +kernel
  have hfolded : smallFolded.kind ∈ SolverKind.known ∧ smallFolded.violated ≠ [] := by decide +kernel
  exact ⟨⟨hscip.1, hscip.2, by decide +kernel, hread hscip.1 hscip.2⟩,
    ⟨hz3.1, hz3.2, by decide +kernel, hread hz3.1 hz3.2⟩,
    ⟨hcpSat.1, hcpSat.2, by decide +kernel, hread hcpSat.1 hcpSat.2⟩, hfolded.1, hfolded.2,
    (solve_readBack hfolded.1 Small.workspace [smallReport false] (smallReport true)).1 hfolded.2⟩

end Session

end DecisionModel
