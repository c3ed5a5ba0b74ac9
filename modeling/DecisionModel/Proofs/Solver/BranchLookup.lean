import DecisionModel.Proofs.CpSat.Model
import DecisionModel.Proofs.Lowering.Branch
import DecisionModel.Proofs.Tolerant.Model

/-!
# Lookups on branches not taken

Algebraic solvers and CP-SAT alike: a constraint with a lookup on a branch loses no solution that
evaluation accepts and under which the index is a position of the family, also where evaluation does not
reach the lookup. Solutions with another index are lost (`branch_lookup_represents`), though evaluation
accepts them as long as the branch is not taken (`Gated.off_the_family`).
-/

namespace DecisionModel

section

variable {c : Context Exact} {known : List (Term Exact)} {model : Model Exact} {sol : Solution Exact}
  {val : VarId → ℤ} {id : NodeId} {f : FamilyId} {i : VarId} {t : Term Exact}
  {others : List (Term Exact)}

namespace Tolerant

variable {σ : Type} {P : Primitives Exact σ} {own : σ} {s : TolerantState σ}

theorem limitsLookup (hP : Documented P) (hbuilt : History c.workspace known)
    (hcollections : IntegralCollections c) (hintegral : c.Integral)
    (hmodel : c.workspace.findModel c.model = some model) (ht : model.BranchesOn c t others id f i)
    (htolerable : Tolerable P c own) (hlowered : (lowerModel P c).Runs (initial own) () s)
    (hval : Eligible (semantics σ) c val) (hsol : sol.Accepts c val model t others)
    (haccepted : ∀ {t' u : Term Exact} {n : ℤ}, t' ∈ model.constraints → t' ≠ t → u.Conjunct t' →
      (∀ k, u.operator? ≠ some (.comparison k)) →
        sol.evaluate c.workspace u = .ok (some (.finite n)) → 1 ≤ n)
    (hnear : ∀ {t key : Term Exact} {n : ℤ}, model.Expression c t → t.ReadsKey key →
      keyUpper c.workspace key = .posInf →
        sol.evaluate c.workspace key = .ok (some (.finite n)) → n ≤ Backend.farAway) :
    (semantics σ).LimitsLookup s val id i (c.workspace.members f).length := by
  obtain ⟨origin, hw, -⟩ := hbuilt.wellFormed
  have hl := hw.lawful (c := c)
  obtain ⟨⟨G, hwalked⟩, hhandles, -⟩ :=
    lowerModel_spec hP hl hcollections hintegral hmodel htolerable hlowered
  refine limitsLookup_of_satisfies hl hmodel hwalked hhandles ht hsol fun hs => ?_
  obtain ⟨G, s₀, s₁, lines, hv, hh, hm, hρ₀, hrun, rfl⟩ := exists_run hP htolerable hlowered
  suffices h : (semantics σ).Represents s₁ val from h
  refine represents_of_satisfies (faithful hP c) hcollections hl (fun _ => hintegral) hmodel hv hh hm
    hrun (hρ₀ fun _ => 0) trivial hval hs (hs.bounded fun v hv => ?_)
    (fun ht hk n hn hupper _ => hnear ht hk hupper (hs.evaluate_of_means hn))
    fun {t'} _ _ ht' hu hk hn hne => ?_
  · obtain ⟨d, hd⟩ := hl.declared hv
    exact ⟨d, hd, (hval.allowed hv hd).within⟩
  · by_cases heq : t' = t
    · subst heq
      exact (ht.branch.eq_one hu hk hn hne).ge
    · exact haccepted ht' heq hu hk (hs.evaluate_of_means hn)

end Tolerant

namespace CpSat

variable {s : CpSatState}

theorem limitsLookup (hbuilt : History c.workspace known) (hcollections : IntegralCollections c)
    (hmodel : c.workspace.findModel c.model = some model) (ht : model.BranchesOn c t others id f i)
    (hlowered : (lowerModel c).Runs initial () s) (hcut : s.solver.cut = false)
    (hval : Eligible semantics c val) (hsol : sol.Accepts c val model t others) :
    semantics.LimitsLookup s val id i (c.workspace.members f).length := by
  obtain ⟨origin, hw, -⟩ := hbuilt.wellFormed
  have hl := hw.lawful (c := c)
  obtain ⟨⟨G, hwalked⟩, hhandles, -⟩ := lowerModel_sound (faithful c) hcollections hl
    (fun h => h.elim) hmodel valid_initial rfl rfl hlowered
  refine limitsLookup_of_satisfies hl hmodel hwalked hhandles ht hsol fun hs => ?_
  have hallowed : ∀ v ∈ c.vars, ∃ d, c.workspace.findVariable v = some d ∧ Allowed d (val v) := by
    intro v hv
    obtain ⟨d, hd⟩ := hl.declared hv
    exact ⟨d, hd, hval.allowed hv hd⟩
  refine represents_of_satisfies (faithful c) hcollections hl (fun h => h.elim) hmodel valid_initial
    rfl rfl hlowered (admitted_initial fun _ => 0) hcut hval hs (hs.bounded fun v hv => ?_)
    (fun _ _ => hs.near (fun v hv => ?_) _) fun _ _ _ _ hne => hne
  · obtain ⟨d, hd, ha⟩ := hallowed v hv
    exact ⟨d, hd, ha.within⟩
  · obtain ⟨d, -, ha⟩ := hallowed v hv
    exact ha.limited.2.trans (by decide)

end CpSat

/-! ### Both kinds of solvers -/

/-- A constraint that has a lookup on a branch loses no solution that evaluation accepts, and in which
the other operands have values, as long as the index is a position of the family, be the branch taken or
not. If it is no position, the solution is lost with the lowering of the lookup. -/
theorem branch_lookup_represents {σ : Type} {P : Tolerant.Primitives Exact σ}
    (hP : Tolerant.Documented P) (hbuilt : History c.workspace known)
    (hcollections : IntegralCollections c) (hmodel : c.workspace.findModel c.model = some model)
    (ht : model.BranchesOn c t others id f i) (hsol : sol.Accepts c val model t others) :
    (∀ (own : σ) (s : Tolerant.TolerantState σ), c.Integral → Tolerant.Tolerable P c own →
      (Tolerant.lowerModel P c).Runs (Tolerant.initial own) () s →
      Eligible (Tolerant.semantics σ) c val →
      (∀ {t' u : Term Exact} {n : ℤ}, t' ∈ model.constraints → t' ≠ t → u.Conjunct t' →
        (∀ k, u.operator? ≠ some (.comparison k)) →
          sol.evaluate c.workspace u = .ok (some (.finite n)) → 1 ≤ n) →
      (∀ {t key : Term Exact} {n : ℤ}, model.Expression c t → t.ReadsKey key →
        keyUpper c.workspace key = .posInf →
          sol.evaluate c.workspace key = .ok (some (.finite n)) → n ≤ Backend.farAway) →
      (Tolerant.semantics σ).LimitsLookup s val id i (c.workspace.members f).length) ∧
    ∀ s : CpSat.CpSatState, (CpSat.lowerModel c).Runs CpSat.initial () s → s.solver.cut = false →
      Eligible CpSat.semantics c val →
      CpSat.semantics.LimitsLookup s val id i (c.workspace.members f).length :=
  ⟨fun _ _ hintegral htolerable hlowered hval haccepted hnear =>
    Tolerant.limitsLookup hP hbuilt hcollections hintegral hmodel ht htolerable hlowered hval hsol
      haccepted hnear,
    fun _ hlowered hcut hval => CpSat.limitsLookup hbuilt hcollections hmodel ht hlowered hcut hval hsol⟩

end

/-! ### A switch before a family of two -/

namespace Gated

def switch : Term Exact := .var ⟨0⟩

def lookup : Term Exact := .selected ⟨1⟩ ⟨0⟩ ⟨3⟩

def one : Term Exact := .const (.finite (1 : ℤ))

/-- The member at the index if the switch is on, else one. -/
def conditional : Term Exact := .node ⟨2⟩ (.custom "if_then_else") [switch, lookup, one]

def constraint : Term Exact := .node ⟨3⟩ (.comparison .eq) [conditional, one]

/-- A binary variable and a family of two. -/
def declared : Workspace Exact where
  vars := #[{ kind := .boolean, name := "b", lower := .finite 0, upper := .finite 1 },
    { kind := .integer, name := "a[0]", lower := .finite 5, upper := .finite 6 },
    { kind := .integer, name := "a[1]", lower := .finite 7, upper := .finite 8 }]
  families := #[{ model := ⟨0⟩, kind := .integer, name := "a", members := [⟨1⟩, ⟨2⟩] }]
  models := #[{
    sense := .feasible
    objective := .node ⟨0⟩ .wrapper [.const (.finite 0)]
    vars := [⟨0⟩]
    families := [⟨0⟩]
    variableNames := ["a[1]", "a[0]", "b"]
    familyNames := ["a"] }]
  nextNode := 1

def model : Model Exact where
  sense := .feasible
  objective := .node ⟨0⟩ .wrapper [.const (.finite 0)]
  vars := [⟨0⟩, ⟨3⟩]
  families := [⟨0⟩]
  constraints := [constraint]
  variableNames := ["i", "a[1]", "a[0]", "b"]
  familyNames := ["a"]

/-- With an index that goes up to five, and the constraint. -/
def workspace : Workspace Exact where
  vars := declared.vars.push { kind := .integer, name := "i", lower := .finite 0, upper := .finite 5 }
  families := declared.families
  models := #[model]
  operators := ["if_then_else"]
  nextNode := 4

def context : Context Exact := ⟨workspace, ⟨0⟩, {}⟩

theorem history_declared :
    History declared ([] ++ [] ++ [.var ⟨0⟩] ++ [] ++ [.var ⟨1⟩] ++ [.var ⟨2⟩]) := by
  refine .returned (.addMember ⟨0⟩ (.int 7) (.int 8) (.literal .absent))
    (.returned (.addMember ⟨0⟩ (.int 5) (.int 6) (.literal .absent))
      (.returned (.addFamily ⟨0⟩ .integer "a")
        (.returned (.addVariable ⟨0⟩ .boolean "b" .absent .absent (.literal .absent))
          (.returned (.newModel .feasible) .start ?_ rfl) ?_ rfl) ?_ rfl) ?_ rfl) ?_ rfl
  all_goals simp [Call.inputs, Input.Available]

theorem history : ∃ known, History workspace known := by
  refine ⟨[] ++ [] ++ [.var ⟨0⟩] ++ [] ++ [.var ⟨1⟩] ++ [.var ⟨2⟩] ++ [.var ⟨3⟩] ++ [lookup] ++
    [conditional] ++ [constraint] ++ [constraint], .returned (.addConstraint ⟨0⟩ (.term constraint))
    (.returned (.relate .eq (.term conditional) (.literal (.int 1)))
      (.returned (.custom "if_then_else" [.term switch, .term lookup, .literal (.int 1)])
        (.returned (.familyEntry ⟨0⟩ (.term (.var ⟨3⟩)))
          (.returned (.addVariable ⟨0⟩ .integer "i" (.int 0) (.int 5) (.literal .absent))
            history_declared ?_ rfl) ?_ rfl) ?_ rfl) ?_ rfl) ?_ rfl⟩
  all_goals simp [Call.inputs, Input.Available, switch, lookup, conditional, constraint]

/-- The switch is off, and the index is `n`. -/
def value (n : ℤ) (v : VarId) : ℤ :=
  if v = ⟨1⟩ then 5 else if v = ⟨2⟩ then 7 else if v = ⟨3⟩ then n else 0

def solution (n : ℤ) : Solution Exact where
  model := ⟨0⟩
  values := [(⟨0⟩, .finite (0 : ℤ)), (⟨1⟩, .finite (5 : ℤ)), (⟨2⟩, .finite (7 : ℤ)), (⟨3⟩, .finite n)]

theorem mem_vars {v : VarId} (hv : v ∈ context.vars) : v = ⟨0⟩ ∨ v = ⟨3⟩ ∨ v = ⟨1⟩ ∨ v = ⟨2⟩ := by
  have h : v ∈ [(⟨0⟩ : VarId), ⟨3⟩, ⟨1⟩, ⟨2⟩] := hv
  simpa using h

theorem definition?_eq_none {v : VarId} (hv : v ∈ context.vars) : workspace.definition? v = none := by
  rcases mem_vars hv with rfl | rfl | rfl | rfl <;> rfl

/-- Evaluation does not come to the lookup, whatever the index is. -/
theorem evaluate_constraint (n : ℤ) :
    (solution n).evaluate workspace constraint = .ok (some (.finite 1)) := rfl

theorem branchesOn : model.BranchesOn context constraint [switch, one] ⟨1⟩ ⟨0⟩ ⟨3⟩ where
  branch := .conditional _ _ _ _ _ _
  constraint := List.mem_singleton_self _
  index := by decide
  members {v} := (by decide : ∀ v ∈ context.workspace.members ⟨0⟩, v ∈ context.vars) v

theorem accepts (n : ℤ) :
    (solution n).Accepts context (value n) model constraint [switch, one] where
  model_eq := rfl
  evaluators_eq := rfl
  stored hv := by
    rcases mem_vars hv with rfl | rfl | rfl | rfl <;> rfl
  elsewhere he hne := by
    cases he with
    | constraint ht => exact absurd (List.mem_singleton.mp ht) hne
    | definition hv hdef => exact nomatch (definition?_eq_none hv).symm.trans hdef
    | objective hsense => exact absurd rfl hsense
  operands ho hs _ := by
    rcases List.mem_pair.mp ho with rfl | rfl <;> cases hs <;> exact ⟨_, rfl⟩
  constraint ht := by
    obtain rfl := List.mem_singleton.mp ht
    exact ⟨_, evaluate_constraint n, by simp⟩
  definition hv hdef := nomatch (definition?_eq_none hv).symm.trans hdef

theorem integral : context.Integral where
  kind hv hd := by
    rcases mem_vars hv with rfl | rfl | rfl | rfl <;> obtain rfl := Option.some.inj hd <;> decide
  definition hv hdef := nomatch (definition?_eq_none hv).symm.trans hdef
  constraint hm ht := by
    obtain rfl : model = _ := Option.some.inj hm
    obtain rfl := List.mem_singleton.mp ht
    have hone : one.Integral := Term.integral_const ⟨1, rfl⟩
    have hconditional : conditional.Integral :=
      Term.integral_node (by decide) (by decide) (by decide)
        (by simpa using ⟨Term.integral_var _, Term.integral_selected _ _ _, hone⟩)
    exact Term.integral_node (by decide) (by decide) (by decide) (by simpa using ⟨hconditional, hone⟩)
  objective hm := by
    obtain rfl : model = _ := Option.some.inj hm
    exact Term.integral_node (by decide) (by decide) (by decide)
      (by simpa using Term.integral_const ⟨0, rfl⟩)

theorem within {n : ℤ} (hn : n = 1 ∨ n = 5) {v : VarId} {d : Variable Exact} (hv : v ∈ context.vars)
    (hd : context.workspace.findVariable v = some d) : d.Within (value n v) := by
  have hall : ∀ n ∈ [(1 : ℤ), 5], ∀ v ∈ context.vars, ∀ d ∈ context.workspace.findVariable v,
      d.Within (value n v) := by decide
  exact hall n (by simpa using hn) v hv d hd

theorem eligible {σ : Type} {n : ℤ} (hn : n = 1 ∨ n = 5) :
    Eligible (Tolerant.semantics σ) context (value n) where
  allowed hv hd := by
    refine ⟨within hn hv hd, fun hkind => ?_⟩
    rcases mem_vars hv with rfl | rfl | rfl | rfl <;> obtain rfl := Option.some.inj hd
    · exact .inl rfl
    all_goals cases hkind
  permutation hq := nomatch hq

theorem cpSat_eligible {n : ℤ} (hn : n = 1 ∨ n = 5) : Eligible CpSat.semantics context (value n) where
  allowed hv hd := by
    refine ⟨within hn hv hd, ?_, fun hkind => ?_⟩
    · have hall : ∀ n ∈ [(1 : ℤ), 5], ∀ v ∈ context.vars,
          -CpSat.unboundedLimit ≤ value n v ∧ value n v ≤ CpSat.unboundedLimit := by decide
      exact hall n (by simpa using hn) _ hv
    · rcases mem_vars hv with rfl | rfl | rfl | rfl <;> obtain rfl := Option.some.inj hd
      · exact .inl rfl
      all_goals cases hkind
  permutation hq := nomatch hq

/-- The state after the model is lowered for Z3. -/
def state : Z3.Z3State Exact :=
  ((Tolerant.lowerModel Z3.primitives context).run.run (Tolerant.initial {})).2

/-- The state after the model is lowered for CP-SAT. -/
def cpSatState : CpSat.CpSatState := ((CpSat.lowerModel context).run.run CpSat.initial).2

theorem lowered : ((Tolerant.lowerModel Z3.primitives context).run.run
      (Tolerant.initial {})).1.toOption = some () ∧ (state.memo? ⟨1⟩).isSome ∧
    ((CpSat.lowerModel context).run.run CpSat.initial).1.toOption = some () ∧
    cpSatState.solver.cut = false ∧ (cpSatState.memo? ⟨1⟩).isSome := by decide +kernel

theorem integralCollections : IntegralCollections context := fun _ _ h => nomatch h

theorem not_readsKey {t key : Term Exact} (ht : model.Expression context t) : ¬ t.ReadsKey key := by
  cases ht with
  | constraint ht =>
    obtain rfl := List.mem_singleton.mp ht
    rintro (_ | ⟨hm, -, -, hk⟩)
    rcases List.mem_pair.mp hm with rfl | rfl
    · obtain _ | ⟨hm, -, -, hk⟩ := hk
      obtain rfl | rfl | rfl : _ = switch ∨ _ = lookup ∨ _ = one := by simpa using hm
      all_goals cases hk
    · cases hk
  | definition hv hdef => exact nomatch (definition?_eq_none hv).symm.trans hdef
  | objective hsense => exact absurd rfl hsense

/-- The index is a position: the solution with the second member is represented. -/
theorem second_member : (Tolerant.semantics (Z3.Solver Exact)).Represents state (value 1) ∧
    CpSat.semantics.Represents cpSatState (value 1) := by
  obtain ⟨known, hbuilt⟩ := history
  obtain ⟨hruns, -, hcpSat, hcut, -⟩ := lowered
  obtain ⟨htolerant, hexact⟩ := branch_lookup_represents (c := context) Z3.documented hbuilt
    integralCollections rfl branchesOn (accepts 1)
  exact ⟨(htolerant {} state integral (Tolerant.tolerable_default rfl) (LowerM.runs_of_toOption hruns)
      (eligible (.inl rfl)) (fun ht hne => absurd (List.mem_singleton.mp ht) hne)
      fun ht hk => absurd hk (not_readsKey ht)).1 (by decide),
    (hexact cpSatState (LowerM.runs_of_toOption hcpSat) hcut (cpSat_eligible (.inl rfl))).1
      (by decide)⟩

/-- Evaluation accepts the index five as long as the switch is off, but neither kind of solver represents
it: there is no fifth member. -/
theorem off_the_family : (∃ known, History workspace known) ∧ IntegralCollections context ∧
    context.Integral ∧ context.workspace.findModel context.model = some model ∧
    model.BranchesOn context constraint [switch, one] ⟨1⟩ ⟨0⟩ ⟨3⟩ ∧
    (solution 5).Accepts context (value 5) model constraint [switch, one] ∧
    Eligible (Tolerant.semantics (Z3.Solver Exact)) context (value 5) ∧
    Eligible CpSat.semantics context (value 5) ∧ Tolerant.Tolerable Z3.primitives context {} ∧
    (Tolerant.lowerModel Z3.primitives context).Runs (Tolerant.initial {}) () state ∧
    ¬ (Tolerant.semantics (Z3.Solver Exact)).Represents state (value 5) ∧
    (CpSat.lowerModel context).Runs CpSat.initial () cpSatState ∧ cpSatState.solver.cut = false ∧
    ¬ CpSat.semantics.Represents cpSatState (value 5) := by
  obtain ⟨known, hbuilt⟩ := history
  obtain ⟨hruns, hlookup, hcpSat, hcut, hcpSatLookup⟩ := lowered
  have htolerable : Tolerant.Tolerable Z3.primitives context {} := Tolerant.tolerable_default rfl
  have htolerant := Tolerant.limitsLookup (c := context) (s := state) Z3.documented hbuilt
    integralCollections integral rfl branchesOn htolerable (LowerM.runs_of_toOption hruns)
    (eligible (.inr rfl)) (accepts 5) (fun ht hne => absurd (List.mem_singleton.mp ht) hne)
    fun ht hk => absurd hk (not_readsKey ht)
  have hexact := CpSat.limitsLookup (c := context) (s := cpSatState) hbuilt integralCollections rfl
    branchesOn (LowerM.runs_of_toOption hcpSat) hcut (cpSat_eligible (.inr rfl)) (accepts 5)
  refine ⟨⟨known, hbuilt⟩, integralCollections, integral, rfl, branchesOn, accepts 5,
    eligible (.inr rfl), cpSat_eligible (.inr rfl), htolerable, LowerM.runs_of_toOption hruns,
    fun h => ?_, LowerM.runs_of_toOption hcpSat, hcut, fun h => ?_⟩
  · have hlt : (5 : ℤ) < 2 := (htolerant.2 hlookup h).2
    exact absurd hlt (by decide)
  · have hlt : (5 : ℤ) < 2 := (hexact.2 hcpSatLookup h).2
    exact absurd hlt (by decide)

end Gated

end DecisionModel
