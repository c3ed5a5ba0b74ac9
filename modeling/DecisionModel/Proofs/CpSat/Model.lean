import DecisionModel.Proofs.CpSat.Faithful
import DecisionModel.Proofs.Lowering.Solution

/-!
# Models lowered for CP-SAT

For a model that builders made and whose collections are integral, lowering neither adds nor loses
solutions: a point that satisfies all domains and constraints gives values to the variables under
which the model has no errors (`errors_nil_of_satisfied`), and integers that solve the model are the
values of such a point (`exists_satisfied`), as long as no interval was cut off.
-/

namespace DecisionModel.CpSat

open LowerM

variable {c : Context Exact} {known : List (Term Exact)} {model : Model Exact} {s : CpSatState}

/-- Nothing is in circulation before lowering but the numbers. -/
theorem valid_initial : semantics.Valid World.numbers initial where
  world := World.of_numbers _
  tables := {
    calls := fun h => by simp [initial] at h
    bounds_fresh := fun h => by simp [initial] at h
    bounds := fun _ h => by simp [initial] at h
    literals_fresh := fun h => by simp [initial] at h
    literals := fun h => by simp [initial] at h
    negations := fun h => by simp [initial] at h }

theorem admitted_initial (ρ : HandleId → ℤ) : semantics.Admits ρ initial := by
  refine ⟨fun call h => ?_, rfl⟩
  simp [initial] at h

/-- Lowering adds no solution: after it exactly the variables of the model have handles, and a
solution that stores their values at a point that satisfies the solver makes every constraint a number
other than zero and every defined variable the value of its definition. -/
theorem errors_nil_of_satisfied (hbuilt : History c.workspace known)
    (hcollections : IntegralCollections c)
    (hmodel : c.workspace.findModel c.model = some model)
    (hlowered : (lowerModel c).Runs initial () s) (hviolated : s.violated = [])
    {ρ : HandleId → ℤ} (hρ : s.solver.Satisfied ρ) {val : VarId → ℤ}
    (hval : ∀ v h, s.handle? v = some h → value ρ h = val v)
    {sol : Solution Exact} (hsol : sol.Stores c val) :
    (∀ v, v ∈ c.vars ↔ ∃ h, s.handle? v = some h) ∧
      (∀ t ∈ model.constraints, ∃ n : ℤ,
        sol.evaluate c.workspace t = .ok (some (.finite n)) ∧ n ≠ 0) ∧
      (∀ v ∈ c.vars, ∀ t, c.workspace.definition? v = some t →
        sol.evaluate c.workspace t = .ok (some (.finite (val v)))) ∧
      sol.errors c.workspace = .ok [] := by
  obtain ⟨origin, hw, -⟩ := hbuilt.wellFormed
  have hl := hw.lawful (c := c)
  obtain ⟨-, hhandles, hsound⟩ := lowerModel_sound (faithful c) hcollections hl (fun h => h.elim) hmodel
    valid_initial rfl rfl hlowered
  have hsolves := hsound ρ hsol.reader ⟨hρ, hviolated⟩ (hsol.matched hhandles hval)
  exact ⟨hhandles, fun t => hsol.constraint_ne_zero hsolves,
    fun v hv t => hsol.evaluate_definition hsolves hv, hsol.errors_of_solves hl hmodel hsolves⟩

/-- The state after the small model is lowered. -/
def smallState : CpSatState := ((lowerModel Small.context).run.run initial).2

/-- A point that satisfies what the small model is lowered to. -/
def smallPoint (id : HandleId) : ℤ := if id = ⟨0⟩ then 2 else 3

theorem small_lowered : ((lowerModel Small.context).run.run initial).1.toOption = some () ∧
    smallState.violated = [] ∧ smallState.solver.cut = false ∧
    smallState.solver.Satisfied smallPoint ∧
    ∀ e ∈ smallState.handles, value smallPoint e.2 = Small.value e.1 := by decide +kernel

theorem small_runs : (lowerModel Small.context).Runs initial () smallState :=
  runs_of_toOption small_lowered.1

theorem smallPoint_value (v : VarId) (h : Expr) (hv : smallState.handle? v = some h) :
    value smallPoint h = Small.value v := by
  exact small_lowered.2.2.2.2 (v, h) (Table.mem_of_get? hv)

theorem small_errors_nil : Small.solution.errors Small.workspace = .ok [] := by
  exact (errors_nil_of_satisfied (c := Small.context) Small.history Small.integralCollections
    Small.findModel_eq small_runs small_lowered.2.1 small_lowered.2.2.2.1
    smallPoint_value Small.stores).2.2.2

/-- Lowering loses no solution: integers that may be chosen for the variables and under which
everything in the model has a value, every constraint is a number other than zero, and every defined
variable has the value of its definition, are the values of the handles at a point that satisfies the
solver, as long as no interval was cut off. -/
theorem exists_satisfied (hbuilt : History c.workspace known)
    (hcollections : IntegralCollections c)
    (hmodel : c.workspace.findModel c.model = some model)
    (hlowered : (lowerModel c).Runs initial () s) (hcut : s.solver.cut = false)
    {val : VarId → ℤ} (hval : Eligible semantics c val)
    {sol : Solution Exact} (hsol : sol.Satisfies c val model) :
    s.violated = [] ∧ ∃ ρ, s.solver.Satisfied ρ ∧
      ∀ v h, s.handle? v = some h → value ρ h = val v := by
  obtain ⟨origin, hw, -⟩ := hbuilt.wellFormed
  have hl := hw.lawful (c := c)
  have hallowed : ∀ v ∈ c.vars, ∃ d, c.workspace.findVariable v = some d ∧ Allowed d (val v) := by
    intro v hv
    obtain ⟨d, hd⟩ := hl.declared hv
    exact ⟨d, hd, hval.allowed hv hd⟩
  have hbounded : hsol.reader.Bounded := hsol.bounded fun v hv => by
    obtain ⟨d, hd, ha⟩ := hallowed v hv
    exact ⟨d, hd, ha.within⟩
  have hnear : ∀ key, hsol.reader.Near origin key := hsol.near fun v hv => by
    obtain ⟨d, -, ha⟩ := hallowed v hv
    exact ha.limited.2.trans (by decide)
  have hready : ∀ {t}, model.Expression c t → hsol.reader.Ready origin t :=
    fun ht => hsol.ready hbounded (fun _ _ => hnear _) ht
  have hmeets : hsol.reader.SolvesStrictly origin (fun _ => True) model :=
    hsol.solvesStrictly hready fun _ _ _ _ => trivial
  have hsolves : hsol.reader.SolvesStrictly origin (· ≠ 0) model :=
    hsol.solvesStrictly hready fun ht hu _ hn =>
      (hmeets.meets ht).conjunct_ne_zero hu (hl.constraint hmodel ht) hn
  obtain ⟨ρ, ⟨hρ, hviolated⟩, hassigns⟩ := lowerModel_complete (faithful c) hcollections hl
    (fun h => h.elim) hmodel valid_initial rfl rfl hlowered (admitted_initial fun _ => 0) hcut hval
    (fun v hv => hsol.read_eq hv) hsolves
  exact ⟨hviolated, ρ, hρ, hassigns⟩

theorem small_eligible : Eligible semantics Small.context Small.value where
  allowed hv hd := by
    refine ⟨Small.within hv hd, ?_, ?_⟩
    · unfold Small.value
      split <;> decide
    · rcases Small.mem_vars hv with rfl | rfl <;> obtain rfl := Option.some.inj hd <;>
        exact fun hkind => nomatch hkind
  permutation hq := nomatch hq

theorem small_exists_satisfied : ∃ ρ, smallState.solver.Satisfied ρ := by
  obtain ⟨-, ρ, hρ, -⟩ := exists_satisfied (c := Small.context) Small.history Small.integralCollections
    Small.findModel_eq small_runs small_lowered.2.2.1 small_eligible Small.satisfies
  exact ⟨ρ, hρ⟩

end DecisionModel.CpSat
