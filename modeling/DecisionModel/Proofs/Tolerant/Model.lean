import DecisionModel.Proofs.Tolerant.Faithful
import DecisionModel.Proofs.Tolerant.Solvers
import DecisionModel.Proofs.Lowering.Solution

/-!
# Integral models lowered for algebraic solvers

For a model that builders made, whose variables, constants and collections are integral and which
neither divides nor takes means, lowering with a tolerance adds no solution: a point that satisfies all
variables and ranges gives integers to the variables, under which the model has no errors
(`errors_nil_of_admitted`). It loses no solution either (`exists_admitted`) of those that give each
conjunct other than a comparison a value of at least one, as long as no key without an upper bound is
farther away than lowering looks.
-/

namespace DecisionModel.Tolerant

open LowerM

variable {σ : Type} {P : Primitives Exact σ} {own : σ} {c : Context Exact} {known : List (Term Exact)}
  {s s' : TolerantState σ}

/-- Nothing lowered yet, with the solver's own part of the state. -/
def initial (own : σ) : TolerantState σ := { solver := { epsilon := realZero, solver := own } }

/-- The tolerance that is configured, or else that of the solver. -/
def chosenTolerance (P : Primitives Exact σ) (c : Context Exact) : TolerantM Exact σ (Number Exact) :=
  match c.config.epsilon with
  | some x => pure x
  | none => P.tolerance

/-- The tolerance that is in force while the model is lowered suits integers. -/
def Tolerable (P : Primitives Exact σ) (c : Context Exact) (own : σ) : Prop :=
  ∀ x s, (chosenTolerance P c).Runs (initial own) x s → ∃ ε, IsTolerance x ε

/-- Lowering fixes the tolerance first. -/
theorem runs_lowerModel (hr : (lowerModel P c).Runs s () s') :
    ∃ x s₁, (chosenTolerance P c).Runs s x s₁ ∧ (do
      modifyEncoding fun e => { e with epsilon := x }
      LowerM.log c.config 2 (("Using epsilon = " ++ Scalar.briefText ·) <$> x.toScalar?)
      Backend.lowerModel (backend P) c
      let e ← getEncoding
      LowerM.log c.config 1 (.ok (P.name ++ ": " ++ toString e.created.size ++ " variables, " ++
        toString e.posted.size ++ " constraints"))).Runs s₁ () s' := by
  unfold lowerModel at hr
  unfold chosenTolerance
  cases he : c.config.epsilon with
  | none =>
    rw [he] at hr
    exact runs_bind.mp hr
  | some x =>
    rw [he] at hr
    exact runs_bind.mp hr

/-- A log entry touches nothing else. -/
theorem same_log {config : Config Exact} {level : ℤ} {line : Except Fault String}
    (hr : (LowerM.log config level line : TolerantM Exact σ Unit).Runs s () s') :
    ∃ lines, s' = { s with log := lines } := by
  obtain ⟨text, -, rfl⟩ := runs_log.mp hr
  split
  · exact ⟨_, rfl⟩
  · exact ⟨s.log, rfl⟩

/-- Before the model is lowered the tolerance is fixed, and afterwards there is only a note. -/
theorem exists_run (hP : Documented P) (htolerable : Tolerable P c own)
    (hr : (lowerModel P c).Runs (initial own) () s') :
    ∃ G s₀ s₁ lines, (semantics σ).Valid G s₀ ∧ s₀.handles = [] ∧ s₀.memo = [] ∧
      (∀ ρ, (semantics σ).Admits ρ s₀) ∧ (Backend.lowerModel (backend P) c).Runs s₀ () s₁ ∧
      s' = { s₁ with log := lines } := by
  obtain ⟨x, t₁, htolerance, hr⟩ := runs_lowerModel hr
  obtain ⟨_, t₂, hset, hr⟩ := runs_bind.mp hr
  obtain ⟨_, t₃, hlog, hr⟩ := runs_bind.mp hr
  obtain ⟨_, t₄, hlower, hr⟩ := runs_bind.mp hr
  obtain ⟨_, _, hget, hlast⟩ := runs_bind.mp hr
  obtain ⟨-, rfl⟩ := runs_getSolver.mp hget
  obtain ⟨ε, hε⟩ := htolerable x t₁ htolerance
  obtain ⟨G, hs⟩ : ∃ G, Silent World.numbers (initial own) G t₁ := by
    unfold chosenTolerance at htolerance
    split at htolerance
    · obtain ⟨-, rfl⟩ := runs_pure.mp htolerance
      exact ⟨_, silent_refl (World.of_numbers _)⟩
    · exact hP.tolerance (World.of_numbers _) htolerance
  obtain ⟨own', hown⟩ := hs.same
  obtain rfl := runs_modifySolver.mp hset
  obtain ⟨lines, rfl⟩ := same_log hlog
  obtain ⟨lines', rfl⟩ := same_log hlast
  refine ⟨G, _, _, lines', ?_, ?_, ?_, fun ρ => ?_, hlower, rfl⟩
  · refine ⟨hs.world, ?_⟩
    rw [hown]
    exact ⟨⟨ε, hε⟩, fun hc => by simp [initial] at hc, fun hr => by simp [initial] at hr,
      fun hid => by simp [initial] at hid, fun he => by simp [initial] at he⟩
  all_goals rw [hown]
  · rfl
  · rfl
  · exact ⟨⟨fun hc => by simp [initial] at hc, fun hr => by simp [initial] at hr⟩, rfl⟩

/-- After lowering the state is in order, exactly the variables of the model have handles, and the
values of a point that is admitted solve the model. -/
theorem lowerModel_spec (hP : Documented P) {origin : NodeId → Option (Term Exact)}
    (hl : c.Lawful origin) (hcollections : IntegralCollections c) (hintegral : c.Integral)
    {model : Model Exact} (hmodel : c.workspace.findModel c.model = some model)
    (htolerable : Tolerable P c own) (hlowered : (lowerModel P c).Runs (initial own) () s) :
    (∃ G, Walked (semantics σ) c origin G s) ∧ (∀ v, v ∈ c.vars ↔ ∃ h, s.handle? v = some h) ∧
      ∀ ρ (r : Reader c.workspace c.model), Admitted ρ s → Matched (semantics σ) s ρ r →
        r.Solves origin model := by
  obtain ⟨G, s₀, s₁, lines, hv, hh, hm, -, hrun, rfl⟩ := exists_run hP htolerable hlowered
  obtain ⟨⟨G', hwalked⟩, hhandles, hsound⟩ := lowerModel_sound (faithful hP c) hcollections hl
    (fun _ => hintegral) hmodel hv hh hm hrun
  have hs : s₁.SameSolver { s₁ with log := lines } := ⟨rfl, id, le_rfl⟩
  exact ⟨⟨G', (hwalked.of_sameSolver (faithful hP c) hs rfl rfl).2⟩, hhandles, hsound⟩

/-- A solution that stores the values of the handles at an admitted point stores integers. -/
theorem exists_stores {origin : NodeId → Option (Term Exact)}
    {G : Set (Handle (Number Exact))} (hw : Walked (semantics σ) c origin G s)
    (hhandles : ∀ v, v ∈ c.vars ↔ ∃ h, s.handle? v = some h) {ρ : HandleId → ℚ}
    (hρ : Admitted ρ s) {sol : Solution Exact} (hsol : sol.model = c.model)
    (hevaluators : sol.evaluators = [])
    (hstored : ∀ v h, s.handle? v = some h → sol.stored? v = some (value ρ h)) :
    ∃ val, sol.Stores c val ∧ Assigns (semantics σ) s val ρ := by
  let val : VarId → ℤ := fun v => ((s.handle? v).map ((semantics σ).int ρ)).getD 0
  have hassigns : Assigns (semantics σ) s val ρ := fun v h hvh => by simp [val, hvh]
  refine ⟨val, ⟨hsol, hevaluators, fun {v} hv => ?_⟩, hassigns⟩
  obtain ⟨h, hvh⟩ := (hhandles v).mp hv
  rw [hstored v h hvh, value_eq ((hw.handles hvh).integral ρ hρ), hassigns v h hvh]

/-- Lowering adds no solution: after it exactly the variables of the model have handles, and a
solution that stores their values at a point that satisfies the solver makes every constraint a number
other than zero and every defined variable the value of its definition. -/
theorem errors_nil_of_admitted (hP : Documented P) (hbuilt : History c.workspace known)
    (hcollections : IntegralCollections c) (hintegral : c.Integral) {model : Model Exact}
    (hmodel : c.workspace.findModel c.model = some model) (htolerable : Tolerable P c own)
    (hlowered : (lowerModel P c).Runs (initial own) () s) (hviolated : s.violated = [])
    {ρ : HandleId → ℚ} (hρ : s.solver.Satisfied ρ) {sol : Solution Exact}
    (hsol : sol.model = c.model) (hevaluators : sol.evaluators = [])
    (hstored : ∀ v h, s.handle? v = some h → sol.stored? v = some (value ρ h)) :
    (∀ v, v ∈ c.vars ↔ ∃ h, s.handle? v = some h) ∧
      (∀ t ∈ model.constraints, ∃ n : ℤ,
        sol.evaluate c.workspace t = .ok (some (.finite n)) ∧ n ≠ 0) ∧
      (∀ v ∈ c.vars, ∀ t, c.workspace.definition? v = some t →
        sol.evaluate c.workspace t = .ok (sol.stored? v)) ∧
      sol.errors c.workspace = .ok [] := by
  obtain ⟨origin, hw, -⟩ := hbuilt.wellFormed
  have hl := hw.lawful (c := c)
  obtain ⟨⟨G, hwalked⟩, hhandles, hsound⟩ :=
    lowerModel_spec hP hl hcollections hintegral hmodel htolerable hlowered
  obtain ⟨val, hstores, hassigns⟩ :=
    exists_stores hwalked hhandles ⟨hρ, hviolated⟩ hsol hevaluators hstored
  have hsolves := hsound ρ hstores.reader ⟨hρ, hviolated⟩ (hstores.matched hhandles hassigns)
  refine ⟨hhandles, fun t => hstores.constraint_ne_zero hsolves, fun v hv t hdef => ?_,
    hstores.errors_of_solves hl hmodel hsolves⟩
  rw [hstores.evaluate_definition hsolves hv hdef, hstores.stored hv]

/-! ### The small model -/

/-- The state after the small model is lowered for Z3. -/
def smallState : Z3.Z3State Exact := ((lowerModel Z3.primitives Small.context).run.run (initial {})).2

/-- A point that satisfies what the small model is lowered to. -/
def smallPoint (id : HandleId) : ℚ := if id = ⟨0⟩ then 2 else 3

theorem isTolerance_default : IsTolerance Z3.defaultTolerance (1 / 1000000) where
  exact_eq := rfl
  pos := by norm_num
  le_one := by norm_num

theorem tolerable_default (hc : c.config.epsilon = none) : Tolerable Z3.primitives c {} := by
  intro x s hr
  rw [chosenTolerance, hc] at hr
  obtain ⟨rfl, -⟩ := runs_pure.mp hr
  exact ⟨_, isTolerance_default⟩

theorem small_lowered :
    ((lowerModel Z3.primitives Small.context).run.run (initial {})).1.toOption = some () ∧
    smallState.violated = [] ∧ smallState.solver.Satisfied smallPoint ∧
    ∀ e ∈ smallState.handles, Small.solution.stored? e.1 = some (value smallPoint e.2) := by
  decide +kernel

theorem small_runs : (lowerModel Z3.primitives Small.context).Runs (initial {}) () smallState :=
  runs_of_toOption small_lowered.1

theorem small_admitted_errors_nil : Small.solution.errors Small.workspace = .ok [] := by
  refine (errors_nil_of_admitted (c := Small.context) Z3.documented Small.history Small.integralCollections
    Small.integral Small.findModel_eq (tolerable_default rfl) small_runs
    small_lowered.2.1 small_lowered.2.2.1 rfl rfl fun v h hv => ?_).2.2.2
  exact small_lowered.2.2.2 (v, h) (Table.mem_of_get? hv)

/-- Lowering loses no solution of those that give every conjunct other than a comparison a value of at
least one: integers that may be chosen for the variables and under which everything in the model has a
value, every constraint is a number other than zero, and every defined variable has the value of its
definition, are the values of the handles at a point that satisfies the solver. -/
theorem exists_admitted (hP : Documented P) (hbuilt : History c.workspace known)
    (hcollections : IntegralCollections c) (hintegral : c.Integral) {model : Model Exact}
    (hmodel : c.workspace.findModel c.model = some model) (htolerable : Tolerable P c own)
    (hlowered : (lowerModel P c).Runs (initial own) () s) {val : VarId → ℤ}
    (hval : Eligible (semantics σ) c val) {sol : Solution Exact} (hsol : sol.Satisfies c val model)
    (haccepted : ∀ {t u : Term Exact} {n : ℤ}, t ∈ model.constraints → u.Conjunct t →
      (∀ k, u.operator? ≠ some (.comparison k)) →
        sol.evaluate c.workspace u = .ok (some (.finite n)) → 1 ≤ n)
    (hnear : ∀ {t key : Term Exact} {n : ℤ}, model.Expression c t → t.ReadsKey key →
      keyUpper c.workspace key = .posInf →
        sol.evaluate c.workspace key = .ok (some (.finite n)) → n ≤ Backend.farAway) :
    s.violated = [] ∧ ∃ ρ, s.solver.Satisfied ρ ∧
      ∀ v h, s.handle? v = some h → value ρ h = .finite (val v) := by
  obtain ⟨origin, hw, -⟩ := hbuilt.wellFormed
  have hl := hw.lawful (c := c)
  obtain ⟨⟨_, hwalked⟩, -, -⟩ :=
    lowerModel_spec hP hl hcollections hintegral hmodel htolerable hlowered
  obtain ⟨G, s₀, s₁, lines, hv, hh, hm, hρ₀, hrun, rfl⟩ := exists_run hP htolerable hlowered
  have hbounded : hsol.reader.Bounded := hsol.bounded fun v hv => by
    obtain ⟨d, hd⟩ := hl.declared hv
    exact ⟨d, hd, (hval.allowed hv hd).within⟩
  have hready : ∀ {t}, model.Expression c t → hsol.reader.Ready origin t := fun ht =>
    hsol.ready hbounded (fun ht hk n hn hupper _ =>
      hnear ht hk hupper (hsol.evaluate_of_means hn)) ht
  have hsolves : hsol.reader.SolvesStrictly origin (1 ≤ ·) model :=
    hsol.solvesStrictly hready fun ht hu hk hn =>
      haccepted ht hu hk (hsol.evaluate_of_means hn)
  obtain ⟨ρ, hρ, hassigns⟩ := lowerModel_complete (faithful hP c) hcollections hl
    (fun _ => hintegral) hmodel hv hh hm hrun (hρ₀ fun _ => 0) trivial hval
    (fun v hv => hsol.read_eq hv) hsolves
  refine ⟨hρ.2, ρ, hρ.1, fun v h hvh => ?_⟩
  rw [value_eq ((hwalked.handles hvh).integral ρ hρ), hassigns v h hvh]

theorem small_eligible : Eligible (semantics (Z3.Solver Exact)) Small.context Small.value where
  allowed hv hd := by
    refine ⟨Small.within hv hd, ?_⟩
    rcases Small.mem_vars hv with rfl | rfl <;> obtain rfl := Option.some.inj hd <;>
      exact fun hkind => nomatch hkind
  permutation hq := nomatch hq

theorem small_readsKey {t key : Term Exact} (ht : Small.model.Expression Small.context t) :
    ¬ t.ReadsKey key := by
  rcases Small.expression_cases ht with rfl | rfl <;>
  · rintro (_ | ⟨hm, -, -, hk⟩)
    rcases List.mem_pair.mp hm with rfl | rfl <;> cases hk

theorem small_exists_admitted : ∃ ρ, smallState.solver.Satisfied ρ := by
  have haccepted : ∀ {t u : Term Exact}, t ∈ Small.model.constraints → u.Conjunct t →
      ¬ ∀ k, u.operator? ≠ some (.comparison k) := by
    intro t u ht hu hk
    obtain rfl := List.mem_singleton.mp ht
    cases hu
    exact hk .ge rfl
  obtain ⟨-, ρ, hρ, -⟩ := exists_admitted (c := Small.context) Z3.documented Small.history
    Small.integralCollections Small.integral Small.findModel_eq (tolerable_default rfl)
    small_runs small_eligible Small.satisfies (fun ht hu hk => absurd hk (haccepted ht hu))
    fun ht hk => absurd hk (small_readsKey ht)
  exact ⟨ρ, hρ⟩

/-! ### A distant key -/

namespace Distant

/-- The position of the last key that lowering looks at, if the key has no upper bound. -/
def near : ℤ := 1000000000000000000

/-- A key beyond it. -/
def far : ℤ := 1000000000000000128

/-- There is a number under the far key, and none under the near one. -/
def lookup (key : ℤ) : LookupAnswer Exact :=
  if key = near then .values [] else if key = far then .values [.int 1] else .nothing

def count : Term Exact := .node ⟨2⟩ (.custom "count") [.node ⟨1⟩ .collection [.var ⟨0⟩]]

def constraint : Term Exact := .node ⟨3⟩ (.comparison .ge) [count, .const (.finite 1)]

/-- A variable without an upper bound, and the constraint that there is a number under it. -/
def workspace : Workspace Exact where
  vars := #[{ kind := .integer, name := "x", lower := .finite near, upper := .posInf }]
  models := #[{
    sense := .feasible
    objective := .node ⟨0⟩ .wrapper [.const (.finite 0)]
    vars := [⟨0⟩]
    constraints := [constraint]
    variableNames := ["x"]
    lookup := some lookup
    keyCount := 1000000000000000256 }]
  operators := ["count"]
  nextNode := 4

def context : Context Exact := ⟨workspace, ⟨0⟩, {}⟩

theorem history : ∃ known, History workspace known := by
  refine ⟨[] ++ [] ++ [] ++ [.var ⟨0⟩] ++ [.node ⟨1⟩ .collection [.var ⟨0⟩]] ++ [count] ++
    [constraint] ++ [constraint],
    .returned (.addConstraint ⟨0⟩ (.term constraint))
    (.returned (.relate .ge (.term count) (.literal (.int 1)))
      (.returned (.aggregate "count" [.term (.node ⟨1⟩ .collection [.var ⟨0⟩])])
        (.returned (.collection (.term (.var ⟨0⟩)))
          (.returned (.addVariable ⟨0⟩ .integer "x" (.int near) (.real .posInf) (.literal .absent))
            (.returned (.setCollections ⟨0⟩ lookup (.int 1000000000000000256))
              (.returned (.newModel .feasible) .start ?_ rfl) ?_ rfl) ?_ rfl) ?_ rfl) ?_ rfl) ?_ rfl)
                ?_ rfl⟩
  all_goals simp [Call.inputs, Input.Available, count, constraint]

def model : Model Exact where
  sense := .feasible
  objective := .node ⟨0⟩ .wrapper [.const (.finite 0)]
  vars := [⟨0⟩]
  constraints := [constraint]
  variableNames := ["x"]
  lookup := some lookup
  keyCount := 1000000000000000256

def solution : Solution Exact where
  model := ⟨0⟩
  values := [(⟨0⟩, .finite far)]

theorem mem_vars {v : VarId} (hv : v ∈ context.vars) : v = ⟨0⟩ := by
  have h : v ∈ [(⟨0⟩ : VarId)] := hv
  simpa using h

theorem expression_eq {t : Term Exact} (h : model.Expression context t) : t = constraint := by
  cases h with
  | constraint ht => exact List.mem_singleton.mp ht
  | definition hv hdef =>
    obtain rfl := mem_vars hv
    cases hdef
  | objective hsense => exact absurd rfl hsense

theorem integralCollections : IntegralCollections context := by
  intro k xs h
  simp only [Reader.CollectionAt, Workspace.collection, Workspace.collectionAt, Workspace.literalsAt,
    Workspace.integralKey, Workspace.keyPosition?, Option.bind_some,
    show context.workspace.findModel context.model = some model from rfl,
    show model.lookup = some lookup from rfl, lookup] at h
  split at h
  · split at h
    · rename_i literals hliterals
      split at hliterals
      · cases hliterals
        cases h
        exact ⟨[], rfl⟩
      · split at hliterals
        · cases hliterals
          cases h
          exact ⟨[1], rfl⟩
        · cases hliterals
    · cases h
    · cases h
  · cases h

theorem integral : context.Integral where
  kind hv hd := by
    obtain rfl := mem_vars hv
    obtain rfl := Option.some.inj hd
    decide
  definition hv hdef := by
    obtain rfl := mem_vars hv
    cases hdef
  constraint hm ht := by
    obtain rfl : model = _ := Option.some.inj hm
    obtain rfl := List.mem_singleton.mp ht
    have hcount : count.Integral := Term.integral_node (by decide) (by decide) (by decide) (by
      simpa using Term.integral_node (by decide) (by decide) (by decide)
        (by simpa using Term.integral_var _))
    exact Term.integral_node (by decide) (by decide) (by decide)
      (by simpa using ⟨hcount, Term.integral_const ⟨1, rfl⟩⟩)
  objective hm := by
    obtain rfl : model = _ := Option.some.inj hm
    exact Term.integral_node (by decide) (by decide) (by decide)
      (by simpa using Term.integral_const ⟨0, rfl⟩)

theorem eligible : Eligible (semantics (Z3.Solver Exact)) context fun _ => far where
  allowed hv hd := by
    obtain rfl := mem_vars hv
    obtain rfl := Option.some.inj hd
    exact ⟨by decide, fun hkind => nomatch hkind⟩
  permutation hq := nomatch hq

theorem evaluated :
    (solution.evaluate context.workspace count).toOption = some (some (.finite 1)) ∧
    (solution.evaluate context.workspace constraint).toOption = some (some (.finite 1)) ∧
    ((lowerModel Z3.primitives context).run.run (initial {})).1.toOption = some () ∧
    ((lowerModel Z3.primitives context).run.run (initial {})).2.violated ≠ [] := by decide +kernel

theorem evaluate_count : solution.evaluate context.workspace count = .ok (some (.finite 1)) :=
  eq_ok_of_toOption evaluated.1

theorem evaluate_constraint : solution.evaluate context.workspace constraint = .ok (some (.finite 1)) :=
  eq_ok_of_toOption evaluated.2.1

theorem satisfies : solution.Satisfies context (fun _ => far) model where
  model_eq := rfl
  evaluators_eq := rfl
  stored hv := by
    obtain rfl := mem_vars hv
    rfl
  defined {t u} ht hu hcollection := by
    obtain rfl := expression_eq ht
    cases hu with
    | refl => exact ⟨_, evaluate_constraint⟩
    | operand hm hu =>
      rcases List.mem_pair.mp hm with rfl | rfl
      · cases hu with
        | refl => exact ⟨_, evaluate_count⟩
        | operand hm hu =>
          obtain rfl := List.mem_singleton.mp hm
          cases hu with
          | refl => cases hcollection
          | operand hm hu =>
            obtain rfl := List.mem_singleton.mp hm
            cases hu
            exact ⟨_, rfl⟩
      · cases hu
        exact ⟨_, rfl⟩
  constraint ht := by
    obtain rfl := List.mem_singleton.mp ht
    exact ⟨_, evaluate_constraint, by simp⟩
  definition hv hdef := by
    obtain rfl := mem_vars hv
    cases hdef

/-- A solution of the model may be lost only because its key is far away: it is eligible and satisfies
the model, whose only conjunct is a comparison, but the constraint folds to false. -/
theorem far_key_violates : (∃ known, History workspace known) ∧ IntegralCollections context ∧
    context.Integral ∧ context.workspace.findModel context.model = some model ∧
    Tolerable Z3.primitives context {} ∧ Eligible (semantics (Z3.Solver Exact)) context (fun _ => far) ∧
    solution.Satisfies context (fun _ => far) model ∧
    (∀ t ∈ model.constraints, ∀ u : Term Exact, u.Conjunct t → u.operator? = some (.comparison .ge)) ∧
    ∃ s, (lowerModel Z3.primitives context).Runs (initial {}) () s ∧ s.violated ≠ [] := by
  refine ⟨history, integralCollections, integral, rfl, tolerable_default rfl, eligible, satisfies, ?_,
    _, runs_of_toOption evaluated.2.2.1, evaluated.2.2.2⟩
  intro t ht u hu
  obtain rfl := List.mem_singleton.mp ht
  cases hu
  rfl

end Distant

end DecisionModel.Tolerant
