import DecisionModel.Proofs.Tolerant.Model

/-!
# Posting of numbers

After a model is lowered, more constraints may be posted. A term that is neither a comparison nor taken
apart is posted through its handle, and what that asks for depends on the handle: of the values that
are represented so far those remain under which the term is at least one, or, if it folded to a number,
those under which it is not zero (`represented_post_iff`). Evaluation takes any number other than zero
for true, so a term with a negative value holds for it but is not represented
(`Negative.negative_not_represented`).
-/

namespace DecisionModel.Tolerant

open LowerM

variable {σ : Type} {P : Primitives Exact σ} {own : σ} {c : Context Exact} {known : List (Term Exact)}
  {s₀ s s' : TolerantState σ}

/-- The solution stores the values of the handles at some point that is admitted. -/
def Represented (s : TolerantState σ) (sol : Solution Exact) : Prop :=
  ∃ ρ, Admitted ρ s ∧ ∀ v h, s.handle? v = some h → sol.stored? v = some (value ρ h)

/-- The state is in order after constraints were posted, and no variable got another handle. -/
theorem walked_posts (hP : Documented P) {origin : NodeId → Option (Term Exact)}
    (hcollections : IntegralCollections c) {G : Set (Handle (Number Exact))}
    (hw : Walked (semantics σ) c origin G s) {ts : List (Term Exact)}
    (hts : ∀ t ∈ ts, t.WellBuilt origin ∧ t.Integral)
    (hr : (ts.forM (Backend.post (backend P) c)).Runs s () s') :
    ∃ G', (semantics σ).Grows G s G' s' ∧ Walked (semantics σ) c origin G' s' := by
  obtain ⟨G', g, hw', -⟩ := requires_forM (faithful hP c) ts (fun t ht =>
    post_asserts (faithful hP c) hcollections (hts t ht).1 fun _ => (hts t ht).2) hw hr
  exact ⟨G', g, hw'⟩

/-- Variables of the model are within their bounds at an admitted point. -/
theorem bounded_of_admitted {origin : NodeId → Option (Term Exact)} (hl : c.Lawful origin)
    {G : Set (Handle (Number Exact))} (hw : Walked (semantics σ) c origin G s)
    (hhandles : ∀ v, v ∈ c.vars ↔ ∃ h, s.handle? v = some h) {ρ : HandleId → ℚ}
    (hρ : Admitted ρ s) {sol : Solution Exact} {val : VarId → ℤ} (hsol : sol.Stores c val)
    (hassigns : Assigns (semantics σ) s val ρ) : hsol.reader.Bounded := by
  refine hsol.bounded fun v hv => ?_
  obtain ⟨d, hd⟩ := hl.declared hv
  obtain ⟨h, hh⟩ := (hhandles v).mp hv
  have hfits : d.Within ((semantics σ).int ρ h) := hw.fits hh hd ρ hρ
  rw [hassigns v h hh] at hfits
  exact ⟨d, hd, hfits⟩

/-- A term that is neither a comparison nor taken apart is posted after the model and other constraints
were lowered. Of the solutions that were represented before and evaluate all of it, those are
represented afterwards for which the value of the term is asked for: a value other than zero if the
handle is a number, and a value of at least one if it is not. -/
theorem represented_post_iff (hP : Documented P) (hbuilt : History c.workspace known)
    (hcollections : IntegralCollections c) (hintegral : c.Integral) {model : Model Exact}
    (hmodel : c.workspace.findModel c.model = some model) (htolerable : Tolerable P c own)
    (hlowered : (lowerModel P c).Runs (initial own) () s₀) {posted : List (Term Exact)}
    (hposted : ∀ t ∈ posted, t ∈ known ∧ t.Integral)
    (hbefore : (posted.forM (Backend.post (backend P) c)).Runs s₀ () s) {t : Term Exact}
    (hknown : t ∈ known) (ht : t.Integral) (hsplit : t.isSplit = false)
    (hcomparison : ∀ k, t.operator? ≠ some (.comparison k))
    (hr : (Backend.post (backend P) c t).Runs s () s') {sol : Solution Exact}
    (hsol : sol.model = c.model) (hevaluators : sol.evaluators = []) (hsolution : Represented s sol)
    (hdefined : ∀ u : Term Exact, u.Within t → u.isCollection = false →
      ∃ x, sol.evaluate c.workspace u = .ok (some x))
    (hnear : ∀ {key : Term Exact} {n : ℤ}, t.ReadsKey key → keyUpper c.workspace key = .posInf →
      sol.evaluate c.workspace key = .ok (some (.finite n)) → n ≤ Backend.farAway) :
    ∃ h s₁, (Backend.translate (backend P) c t).Runs s h s₁ ∧ ∃ n : ℤ,
      sol.evaluate c.workspace t = .ok (some (.finite n)) ∧
        (Represented s' sol ↔ if h.isNumber then n ≠ 0 else 1 ≤ n) := by
  obtain ⟨origin, hw, hwell⟩ := hbuilt.wellFormed
  have hl := hw.lawful (c := c)
  have hB := faithful hP c
  obtain ⟨⟨G₀, hw₀⟩, hhandles₀, -⟩ :=
    lowerModel_spec hP hl hcollections hintegral hmodel htolerable hlowered
  obtain ⟨G, g₀, hwalked⟩ := walked_posts hP hcollections hw₀
    (fun u hu => ⟨hwell u (hposted u hu).1, (hposted u hu).2⟩) hbefore
  have hhandles : ∀ v, v ∈ c.vars ↔ ∃ h, s.handle? v = some h := fun v => by
    rw [hhandles₀, handle?_eq g₀.handles_eq]
  rw [post_eq_postHandle (hwell t hknown) hsplit hcomparison] at hr
  obtain ⟨h, s₁, G', htranslate, g, hwalked', hsound, hcomplete⟩ :=
    postHandle_step hB hcollections (hwell t hknown) (fun _ => ht) hwalked hr
  obtain ⟨ρ, hρ, hstored⟩ := hsolution
  obtain ⟨val, hstores, hassigns⟩ := exists_stores hwalked hhandles hρ hsol hevaluators hstored
  have hready : hstores.reader.Ready origin t := {
    defined := fun u hu hc => by
      obtain ⟨x, hx⟩ := hdefined u hu hc
      obtain ⟨y, hy, -⟩ := hstores.exists_reading hx
      exact ⟨y, hy⟩
    bounded := bounded_of_admitted hl hwalked hhandles hρ hstores hassigns
    near := fun hk n hn hupper _ => hnear hk hupper (hstores.evaluate_of_means hn) }
  have hmatched := hstores.matched hhandles hassigns
  obtain ⟨G₁, -, -, -, -, hvalue, hextends⟩ :=
    translate_lowers hB hcollections (hwell t hknown) (fun _ => ht) hwalked htranslate
  -- The term has a value because the point extends to what its lowering adds.
  obtain ⟨ρ₁, ha₁, hρ₁⟩ := hextends ρ trivial hρ ⟨_, hmatched, by simpa using hready⟩
  have hn := (hvalue ρ₁ _ hρ₁ (hmatched.congr hB hwalked ha₁)).means
  refine ⟨h, s₁, htranslate, _, hstores.evaluate_of_means hn, ?_, fun hasks => ?_⟩
  · rintro ⟨ρ', hρ', hstored'⟩
    have hassigns' : Assigns (semantics σ) s val ρ' := fun v k hk => by
      have hk' : s'.handle? v = some k := (handle?_eq g.handles_eq v).trans hk
      have heq := hstored' v k hk'
      rw [hstores.stored (hwalked.known hk)] at heq
      exact int_eq (Option.some.inj heq).symm
    obtain ⟨n, hn', hasks⟩ := hsound ρ' _ hρ' (hstores.matched hhandles hassigns')
    rw [hn.unique hn'.means]
    exact hasks
  · obtain ⟨ρ', ha, hρ'⟩ := hcomplete ρ trivial hρ
      ⟨_, hmatched, hready, fun n hn' => hn.unique hn' ▸ hasks⟩
    refine ⟨ρ', hρ', fun v k hk => ?_⟩
    rw [handle?_eq g.handles_eq] at hk
    rw [hstored v k hk, value_congr hwalked.valid.world (hwalked.handles hk).mem ha]

/-! ### The small model -/

/-- The state after one more than the first variable is posted. -/
def smallPosted : Z3.Z3State Exact :=
  ((Backend.post (backend Z3.primitives) Small.context Small.successor).run.run smallState).2

theorem smallPosted_runs : (Backend.post (backend Z3.primitives) Small.context Small.successor).Runs
    smallState () smallPosted := runs_of_toOption (by decide +kernel)

theorem small_represented : Represented smallState Small.solution := by
  refine ⟨smallPoint, ⟨small_lowered.2.2.1, small_lowered.2.1⟩, fun v h hv => ?_⟩
  exact small_lowered.2.2.2 (v, h) (Table.mem_of_get? hv)

theorem small_represented_post : Represented smallPosted Small.solution := by
  have hv : (⟨1⟩ : VarId) ∈ Small.context.vars := .tail _ (.head _)
  have hexpression : Small.model.Expression Small.context Small.successor := .definition hv rfl
  have hnone : (([] : List (Term Exact)).forM (Backend.post (backend Z3.primitives) Small.context)).Runs
      smallState () smallState := runs_forM_nil.mpr rfl
  obtain ⟨h, s₁, -, n, hn, hiff⟩ := represented_post_iff (c := Small.context)
    (t := Small.successor) Z3.documented Small.history Small.integralCollections Small.integral
    Small.findModel_eq (tolerable_default rfl) small_runs (by simp) hnone
    (by simp [Small.known]) (Small.integral.definition hv rfl) rfl
    (by simp [Small.successor, Term.operator?]) smallPosted_runs rfl rfl small_represented
    (fun u hu hc => Small.satisfies.defined hexpression hu hc)
    fun hk => absurd hk (small_readsKey hexpression)
  have h3 : (n : ℚ) = 3 := by simpa using hn.symm.trans Small.evaluate_successor
  have h3 : n = 3 := by exact_mod_cast h3
  refine hiff.mpr ?_
  split <;> omega

/-! ### A negative value -/

theorem value_of_isLeaf {ρ : HandleId → ℚ} {h : Expr} {id : HandleId}
    (hh : h.isLeaf = true ∧ h.id? = some id) : value ρ h = .finite (ρ id) := by
  cases h with
  | leaf k name integral => rw [value_leaf, Option.some.inj hh.2]
  | const x => cases hh.2
  | node k f args => cases hh.1

namespace Negative

/-- The variable stands for a truth value. -/
def constraint : Term Exact := .node ⟨1⟩ .wrapper [.var ⟨0⟩]

def model : Model Exact where
  sense := .feasible
  objective := .node ⟨0⟩ .wrapper [.const (.finite 0)]
  vars := [⟨0⟩]
  constraints := [constraint]
  variableNames := ["x"]

/-- A negative variable that has to be true. -/
def workspace : Workspace Exact where
  vars := #[{ kind := .integer, name := "x", lower := .finite (-3), upper := .finite (-1) }]
  models := #[model]
  nextNode := 2

def context : Context Exact := ⟨workspace, ⟨0⟩, {}⟩

def solution : Solution Exact where
  model := ⟨0⟩
  values := [(⟨0⟩, .finite (-2))]

/-- The state after the model is lowered for Z3. -/
def state : Z3.Z3State Exact := ((lowerModel Z3.primitives context).run.run (initial {})).2

theorem history : History workspace [.var ⟨0⟩, constraint] := by
  refine (.returned (.addConstraint ⟨0⟩ (.term (.var ⟨0⟩)))
    (.returned (.addVariable ⟨0⟩ .integer "x" (.int (-3)) (.int (-1)) (.literal .absent))
      (.returned (.newModel .feasible) .start ?_ rfl) ?_ rfl) ?_ rfl :
    History workspace ([] ++ [] ++ [.var ⟨0⟩] ++ [constraint]))
  all_goals simp [Call.inputs, Input.Available]

theorem mem_vars {v : VarId} (hv : v ∈ context.vars) : v = ⟨0⟩ := by
  have h : v ∈ [(⟨0⟩ : VarId)] := hv
  simpa using h

theorem integral : context.Integral where
  kind hv hd := by
    obtain rfl := mem_vars hv
    obtain rfl := Option.some.inj hd
    decide
  definition hv hdef := by
    obtain rfl := mem_vars hv
    cases hdef
  constraint hm ht := by
    obtain rfl : model = _ := Option.some.inj hm
    obtain rfl := List.mem_singleton.mp ht
    exact Term.integral_node (by decide) (by decide) (by decide)
      (by simpa using Term.integral_var _)
  objective hm := by
    obtain rfl : model = _ := Option.some.inj hm
    exact Term.integral_node (by decide) (by decide) (by decide)
      (by simpa using Term.integral_const ⟨0, rfl⟩)

/-- The model is lowered, the variable gets a handle of its own, and a range is posted that keeps the
handle above the value of the solution. -/
theorem lowered : ((lowerModel Z3.primitives context).run.run (initial {})).1.toOption = some () ∧
    (solution.evaluate workspace constraint).toOption = some (some (.finite (-2))) ∧
    (solution.errors workspace).toOption.map List.length = some 0 ∧
    (state.handle? ⟨0⟩).bind (fun h => if h.isLeaf then h.id? else none) = some ⟨0⟩ ∧
    ∃ r ∈ state.solver.posted.toList, r.expression.isLeaf ∧ r.expression.id? = some ⟨0⟩ ∧
      r.lower.exact.le (.finite (-2)) = false := by decide +kernel

/-- The constraint is true for evaluation, but the solution is not represented. -/
theorem negative_not_represented : History workspace [.var ⟨0⟩, constraint] ∧
    context.workspace.findModel context.model = some model ∧ constraint ∈ model.constraints ∧
    context.Integral ∧ Tolerable Z3.primitives context {} ∧
    (lowerModel Z3.primitives context).Runs (initial {}) () state ∧
    solution.evaluate workspace constraint = .ok (some (.finite (-2))) ∧
    solution.errors workspace = .ok [] ∧ ¬ Represented state solution := by
  obtain ⟨hruns, hevaluate, herrors, hhandle, r, hr, hleaf, hid, hlower⟩ := lowered
  refine ⟨history, rfl, List.mem_singleton_self _, integral, tolerable_default rfl,
    runs_of_toOption hruns, eq_ok_of_toOption hevaluate, ?_, ?_⟩
  · obtain ⟨errors, herrors, hlength⟩ := Option.map_eq_some_iff.mp herrors
    rw [eq_ok_of_toOption herrors, List.length_eq_zero_iff.mp hlength]
  · rintro ⟨ρ, hρ, hstored⟩
    obtain ⟨h, hh, hvariable⟩ := Option.bind_eq_some_iff.mp hhandle
    have hv : value ρ h = .finite (ρ ⟨0⟩) := value_of_isLeaf (by simpa using hvariable)
    have hpoint : (Exact.finite (-2) : Exact) = .finite (ρ ⟨0⟩) :=
      hv ▸ Option.some.inj (hstored ⟨0⟩ h hh)
    have hholds : Between r.lower.exact r.upper.exact (value ρ r.expression) := hρ.1.posted hr
    rw [value_of_isLeaf ⟨hleaf, hid⟩, ← hpoint] at hholds
    exact Bool.false_ne_true (hlower.symm.trans hholds.1)

end Negative

end DecisionModel.Tolerant
