import DecisionModel.Solution.Diagnostics
import DecisionModel.Proofs.Builder.History
import DecisionModel.Proofs.Lowering.Model

/-!
# Solutions and lowering

A solution that stores integers for the variables of a model reads them (`Solution.reader`), so what
is proved of readers holds of evaluation: a solved model has no errors (`errors_of_solves`), and a
solution under which all expressions of a model can be evaluated strictly solves it strictly
(`solvesStrictly`). A model with a history of building is lawful (`Workspace.WellFormed.lawful`).
-/

namespace DecisionModel

/-! ### Models with a history -/

/-- What a model contains is well built. -/
theorem Workspace.WellFormed.contains {α : Type} [Scalar α] {c : Context α}
    {origin : NodeId → Option (Term α)} {t : Term α} (hw : c.workspace.WellFormed origin)
    (ht : c.Contains t) : t.WellBuilt origin := by
  cases ht with
  | definition h => exact hw.definition h
  | constraint hm h => exact hw.constraint hm h
  | objective hm => exact hw.objective hm

theorem Variable.IsMember.within {d : Variable Exact} {n : ℕ} (h : d.IsMember n) {k : ℤ}
    (h1 : 1 ≤ k) (hn : k ≤ n) : d.Within k := by
  constructor
  · rw [h.lower, Scalar.one_exact, Exact.finite_le, decide_eq_true_iff]
    exact_mod_cast h1
  · rw [h.upper, Scalar.ofInt_exact, Exact.finite_le, decide_eq_true_iff]
    exact_mod_cast hn

theorem Workspace.WellFormed.lawful {c : Context Exact} {origin : NodeId → Option (Term Exact)}
    (hw : c.workspace.WellFormed origin) : c.Lawful origin where
  declared {v} hv := by
    cases hm : c.workspace.findModel c.model with
    | none => simp [Context.vars, allVariables, hm] at hv
    | some model =>
      rw [c.vars_eq hm] at hv
      rcases List.mem_append.mp hv with hv | hv
      · rcases List.mem_append.mp hv with hv | hv
        · obtain ⟨q, -, hv⟩ := List.mem_flatMap.mp hv
          obtain ⟨d, hd, -⟩ := hw.sequence hv
          exact ⟨d, hd⟩
        · exact hw.declared hm hv
      · obtain ⟨f, -, hv⟩ := List.mem_flatMap.mp hv
        exact hw.member hv
  member _ hv hd := by
    obtain ⟨d', hd', hm⟩ := hw.sequence hv
    obtain rfl := Option.some.inj (hd.symm.trans hd')
    exact ⟨hm.kind, fun n => hm.within⟩
  definition _ h := hw.definition h
  constraint h := hw.constraint h
  objective h := hw.objective h

/-! ### Readers of solutions -/

/-- The solution is one of the model, evaluates named operators in their fixed meaning, and stores
integers for the variables of the model. -/
structure Solution.Stores (sol : Solution Exact) (c : Context Exact) (val : VarId → ℤ) : Prop where
  model_eq : sol.model = c.model
  evaluators_eq : sol.evaluators = []
  stored {v : VarId} : v ∈ c.vars → sol.stored? v = some (.finite (val v))

variable {c : Context Exact} {sol : Solution Exact} {val : VarId → ℤ}
  {origin : NodeId → Option (Term Exact)}

/-- A solution of the model as a reader of it. -/
def Solution.Stores.reader (h : sol.Stores c val) : Reader c.workspace c.model where
  assignment := sol.assignment
  read := sol.assignment.readVariable c.workspace (c.workspace.vars.size + 1)
  model_eq := h.model_eq
  evaluators_eq name := by simp [Solution.assignment, h.evaluators_eq]

namespace Solution.Stores

variable (h : sol.Stores c val)

theorem read_eq {v : VarId} (hv : v ∈ c.vars) :
    h.reader.read v = .ok (some ⟨.finite (val v), some (.stored v)⟩) := by
  simp [reader, Assignment.readVariable, Solution.assignment, h.stored hv]

/-- A solution that stores the values of the handles matches the point. -/
theorem matched {ν σ V : Type} {S : Semantics ν σ V} {s : LoweringState ν σ} {ρ : HandleId → V}
    (hknown : ∀ v, v ∈ c.vars ↔ ∃ h, s.handle? v = some h) (hval : Assigns S s val ρ) :
    Matched S s ρ h.reader := by
  intro v k hk
  rw [h.read_eq ((hknown v).mpr ⟨k, hk⟩), hval v k hk]

theorem evaluate_eq (t : Term Exact) :
    sol.evaluate c.workspace t = Outcome.ofReading ((h.reader.argument none t).value ()) := rfl

theorem evaluate_of_means {t : Term Exact} {n : ℤ} (hn : h.reader.Means origin t n) :
    sol.evaluate c.workspace t = .ok (some (.finite n)) := by
  obtain ⟨x, hx, hv, -⟩ := hn.gives
  rw [h.evaluate_eq, hx, ← hv]
  rfl

theorem exists_reading {t : Term Exact} {x : Exact}
    (hx : sol.evaluate c.workspace t = .ok (some x)) :
    ∃ y, (h.reader.argument none t).value () = .ok (some y) ∧ y.value = x := by
  rw [h.evaluate_eq] at hx
  rcases hread : (h.reader.argument none t).value () with e | _ | y
  · rw [hread] at hx
    cases hx
  · rw [hread] at hx
    cases hx
  · rw [hread] at hx
    cases hx
    exact ⟨y, rfl, rfl⟩

/-- A term that is an integer and evaluates to a number is that integer. -/
theorem eq_of_means {t : Term Exact} {x : Exact} {n : ℤ}
    (hx : sol.evaluate c.workspace t = .ok (some x)) (hn : h.reader.Means origin t n) :
    x = .finite n := by
  rw [h.evaluate_of_means hn] at hx
  cases hx
  rfl

/-- Variables that are within their bounds. -/
theorem bounded (hval : ∀ v ∈ c.vars, ∃ d, c.workspace.findVariable v = some d ∧ d.Within (val v)) :
    h.reader.Bounded := by
  intro v hv
  obtain ⟨d, hd, hwithin⟩ := hval v hv
  refine ⟨d, hd, fun x hx => ?_⟩
  obtain rfl : ⟨.finite (val v), some (.stored v)⟩ = x := by
    simpa using (h.read_eq hv).symm.trans hx
  exact hwithin

/-- Keys are near where all variables are. -/
theorem near (hval : ∀ v ∈ c.vars, val v ≤ Backend.farAway) (key : Term Exact) :
    h.reader.Near origin key := by
  intro n hn hupper hvars
  unfold keyUpper at hupper
  unfold keyVariables at hvars
  split at hupper
  · rename_i v hkey
    have hv : v ∈ c.vars := by simpa [hkey, Context.vars] using hvars
    have hx := (gives_unwrapped (by simp [hkey, Term.isNode]) (by simp [hkey, Term.isConst]) hn)
    rw [hkey] at hx
    rw [hx.unique (Reader.means_var (h.read_eq hv)).gives]
    exact hval v hv
  · rename_i id f i hkey
    obtain ⟨x, hx, hxn, -⟩ :=
      gives_unwrapped (by simp [hkey, Term.isNode]) (by simp [hkey, Term.isConst]) hn
    rw [hkey] at hx
    obtain ⟨v, hmem, hread⟩ := exists_member hx
    have hv : v ∈ c.vars := by
      rw [hkey] at hvars
      exact hvars v hmem
    obtain rfl : ⟨.finite (val v), some (.stored v)⟩ = x := by
      simpa using (h.read_eq hv).symm.trans hread
    obtain rfl : val v = n := by simpa using hxn
    exact hval v hv
  · cases hupper

end Solution.Stores

/-! ### Solved models -/

theorem mapM_none {β : Type} {f : β → Except Fault (Option (Diagnostic Exact))} {xs : List β}
    (h : ∀ x ∈ xs, f x = .ok none) : xs.mapM f = .ok (xs.map fun _ => none) := by
  induction xs with
  | nil => rfl
  | cons x xs ih =>
    simp [List.mapM_cons, h x (by simp), ih fun y hy => h y (by simp [hy]), bind, Except.bind, pure,
      Except.pure]

/-- Nothing is wrong with a solution that makes the constraints true and stores the values of the
definitions. -/
theorem Solution.Stores.errors_of_solves (h : sol.Stores c val) (hl : c.Lawful origin)
    {model : Model Exact} (hm : c.workspace.findModel c.model = some model)
    (hs : h.reader.Solves origin model) : sol.errors c.workspace = .ok [] := by
  have hconstraints : ∀ t ∈ model.constraints, sol.checkConstraint c.workspace t = .ok none := by
    intro t ht
    obtain ⟨text, htext⟩ := Workspace.termText_ok (w := c.workspace) (hl.constraint hm ht)
    obtain ⟨n, hn, hne⟩ := hs.holds ht
    simp [Solution.checkConstraint, htext, h.evaluate_of_means hn, hne, bind, Except.bind, pure,
      Except.pure]
  have hvars : ∀ v ∈ c.workspace.allVariables c.model,
      sol.checkVariable c.workspace v = .ok none := by
    intro v hv
    unfold Solution.checkVariable
    cases hdef : c.workspace.definition? v with
    | none => rfl
    | some t =>
      obtain ⟨n, hn, hread⟩ := hs.agrees hv t hdef
      have hval : n = val v := by
        have heq := hread.symm.trans (h.read_eq hv)
        simpa using heq
      subst hval
      simp [h.stored hv, h.evaluate_of_means hn, Outcome.ignoringUndefined, Scalar.isClose, bind,
        Except.bind, pure, Except.pure]
  have hfirst := mapM_none hconstraints
  have hsecond := mapM_none hvars
  simp [Solution.errors, Solution.diagnostics, h.model_eq, hm, hfirst, hsecond, bind, Except.bind,
    pure, Except.pure, List.filterMap_append]

/-- Every constraint of a solved model is a number other than zero. -/
theorem Solution.Stores.constraint_ne_zero (h : sol.Stores c val) {model : Model Exact}
    (hs : h.reader.Solves origin model) {t : Term Exact} (ht : t ∈ model.constraints) :
    ∃ n : ℤ, sol.evaluate c.workspace t = .ok (some (.finite n)) ∧ n ≠ 0 := by
  obtain ⟨n, hn, hne⟩ := hs.holds ht
  exact ⟨n, h.evaluate_of_means hn, hne⟩

/-- Every defined variable of a solved model has the value of its definition. -/
theorem Solution.Stores.evaluate_definition (h : sol.Stores c val) {model : Model Exact}
    (hs : h.reader.Solves origin model) {v : VarId} (hv : v ∈ c.vars) {t : Term Exact}
    (hdef : c.workspace.definition? v = some t) :
    sol.evaluate c.workspace t = .ok (some (.finite (val v))) := by
  obtain ⟨n, hn, hread⟩ := hs.agrees hv t hdef
  obtain rfl : n = val v := by simpa using hread.symm.trans (h.read_eq hv)
  exact h.evaluate_of_means hn

/-- An expression of the model that is lowered. -/
inductive Model.Expression (c : Context Exact) (model : Model Exact) : Term Exact → Prop
  | constraint {t : Term Exact} : t ∈ model.constraints → Expression c model t
  | definition {v : VarId} {t : Term Exact} : v ∈ c.vars → c.workspace.definition? v = some t →
    Expression c model t
  | objective : model.sense ≠ .feasible → Expression c model model.objective

/-- All subterms of the expressions of the model have values, those that evaluation passes over
among them; the constraints are not zero, and the definitions have the values of their variables. -/
structure Solution.Satisfies (sol : Solution Exact) (c : Context Exact) (val : VarId → ℤ)
    (model : Model Exact) : Prop extends sol.Stores c val where
  defined {t s : Term Exact} : model.Expression c t → s.Within t → s.isCollection = false →
    ∃ x, sol.evaluate c.workspace s = .ok (some x)
  constraint {t : Term Exact} : t ∈ model.constraints →
    ∃ x, sol.evaluate c.workspace t = .ok (some x) ∧ Scalar.isZero x = false
  definition {v : VarId} {t : Term Exact} : v ∈ c.vars → c.workspace.definition? v = some t →
    sol.evaluate c.workspace t = .ok (some (.finite (val v)))

namespace Solution.Satisfies

variable {model : Model Exact} (h : sol.Satisfies c val model)

/-- The expressions of the model are ready to be lowered. -/
theorem ready (hbounded : h.reader.Bounded)
    (hnear : ∀ {t key : Term Exact}, model.Expression c t → t.ReadsKey key →
      h.reader.Near origin key) {t : Term Exact} (ht : model.Expression c t) :
    h.reader.Ready origin t where
  defined s hs hc := by
    obtain ⟨x, hx⟩ := h.defined ht hs hc
    obtain ⟨y, hy, -⟩ := h.exists_reading hx
    exact ⟨y, hy⟩
  bounded := hbounded
  near hk := hnear ht hk

theorem solvesStrictly {accepted : ℤ → Prop}
    (hready : ∀ {t}, model.Expression c t → h.reader.Ready origin t)
    (haccepts : ∀ {t u : Term Exact} {n : ℤ}, t ∈ model.constraints → u.Conjunct t →
      (∀ k, u.operator? ≠ some (.comparison k)) → h.reader.Means origin u n → accepted n) :
    h.reader.SolvesStrictly origin accepted model where
  deduces {v} hv t hdef := by
    refine ⟨hready (.definition hv hdef), fun n hn => ?_⟩
    obtain rfl : val v = n := by simpa using h.eq_of_means (h.definition hv hdef) hn
    exact h.read_eq hv
  meets {t} ht := by
    refine ⟨hready (.constraint ht), fun {n} hn => ?_, haccepts ht⟩
    obtain ⟨x, hx, hzero⟩ := h.constraint ht
    rw [h.eq_of_means hx hn] at hzero
    rintro rfl
    simp at hzero
  objective hs := hready (.objective hs)

end Solution.Satisfies

/-! ### The small model solved -/

namespace Small

def context : Context Exact := ⟨workspace, ⟨0⟩, {}⟩

def model : Model Exact where
  sense := .feasible
  objective := .node ⟨0⟩ .wrapper [.const (.finite 0)]
  vars := [⟨0⟩, ⟨1⟩]
  constraints := [constraint]
  variableNames := ["y", "x"]

theorem findModel_eq : context.workspace.findModel context.model = some model := rfl

/-- Two for the first variable, and three for the other. -/
def value (v : VarId) : ℤ := if v = ⟨0⟩ then 2 else 3

def solution : Solution Exact where
  model := ⟨0⟩
  values := [(⟨0⟩, .finite 2), (⟨1⟩, .finite 3)]

theorem mem_vars {v : VarId} (hv : v ∈ context.vars) : v = ⟨0⟩ ∨ v = ⟨1⟩ := by
  have h : v ∈ [(⟨0⟩ : VarId), ⟨1⟩] := hv
  simpa using h

theorem stores : solution.Stores context value where
  model_eq := rfl
  evaluators_eq := rfl
  stored hv := by
    rcases mem_vars hv with rfl | rfl <;> rfl

/-- The expressions of the model are the constraint and one definition. -/
theorem expression_cases {t : Term Exact} (h : model.Expression context t) :
    t = constraint ∨ t = successor := by
  cases h with
  | constraint ht => exact .inl (List.mem_singleton.mp ht)
  | definition hv hdef =>
    rcases mem_vars hv with rfl | rfl
    · cases hdef
    · exact .inr (Option.some.inj hdef).symm
  | objective hsense => exact absurd rfl hsense

theorem evaluate_constraint :
    solution.evaluate context.workspace constraint = .ok (some (.finite 1)) :=
  eq_ok_of_toOption (by decide +kernel)

theorem evaluate_successor :
    solution.evaluate context.workspace successor = .ok (some (.finite 3)) :=
  eq_ok_of_toOption (by decide +kernel)

theorem satisfies : solution.Satisfies context value model where
  toStores := stores
  defined {t u} ht hu _ := by
    rcases expression_cases ht with rfl | rfl
    · cases hu with
      | refl => exact ⟨_, evaluate_constraint⟩
      | operand hm hu =>
        rcases List.mem_pair.mp hm with rfl | rfl <;> cases hu <;> exact ⟨_, rfl⟩
    · cases hu with
      | refl => exact ⟨_, evaluate_successor⟩
      | operand hm hu =>
        rcases List.mem_pair.mp hm with rfl | rfl <;> cases hu <;> exact ⟨_, rfl⟩
  constraint ht := by
    obtain rfl := List.mem_singleton.mp ht
    exact ⟨_, evaluate_constraint, by simp⟩
  definition hv hdef := by
    rcases mem_vars hv with rfl | rfl
    · cases hdef
    · obtain rfl : successor = _ := Option.some.inj hdef
      exact evaluate_successor

theorem within {v : VarId} {d : Variable Exact} (hv : v ∈ context.vars)
    (hd : context.workspace.findVariable v = some d) : d.Within (value v) := by
  have hall : ∀ v ∈ context.vars, ∀ d ∈ context.workspace.findVariable v, d.Within (value v) := by
    decide +kernel
  exact hall v hv d hd

theorem integralCollections : IntegralCollections context := fun _ _ h => nomatch h

theorem integral : context.Integral where
  kind hv hd := by
    rcases mem_vars hv with rfl | rfl <;> obtain rfl := Option.some.inj hd <;> decide
  definition hv hdef := by
    rcases mem_vars hv with rfl | rfl
    · cases hdef
    · obtain rfl : successor = _ := Option.some.inj hdef
      exact Term.integral_node (by decide) (by decide) (by decide)
        (by simpa using ⟨Term.integral_var _, Term.integral_const ⟨1, rfl⟩⟩)
  constraint hm ht := by
    obtain rfl : model = _ := Option.some.inj hm
    obtain rfl := List.mem_singleton.mp ht
    exact Term.integral_node (by decide) (by decide) (by decide)
      (by simpa using ⟨Term.integral_var _, Term.integral_const ⟨3, rfl⟩⟩)
  objective hm := by
    obtain rfl : model = _ := Option.some.inj hm
    exact Term.integral_node (by decide) (by decide) (by decide)
      (by simpa using Term.integral_const ⟨0, rfl⟩)

end Small

end DecisionModel
