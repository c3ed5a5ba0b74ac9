import DecisionModel.Proofs.Lowering.Creation

/-!
# Lowering of a model

After its variables are created, definitions, constraints and the objective of a model are posted,
which only adds to the state. `lowerModel_sound` and `lowerModel_complete` put the stages together
for any faithful back-end: the values of an admitted point make the constraints true and are those of
the definitions, and eligible values with these properties are the values of some admitted point.
-/

namespace DecisionModel

open LowerM Backend

variable {ν σ V : Type} [Numeral ν] {B : Backend Exact ν σ} {S : Semantics ν σ V} {c : Context Exact}
  {origin : NodeId → Option (Term Exact)} {G : Set (Handle ν)} {s s' : LoweringState ν σ}

/-! ### Definitions and the objective -/

/-- A defined variable reads the value of its definition. -/
def Reader.Agrees {w : Workspace Exact} {m : ModelId} (r : Reader w m)
    (origin : NodeId → Option (Term Exact)) (v : VarId) : Prop :=
  ∀ t, w.definition? v = some t → ∃ n, r.Means origin t n ∧
    r.read v = .ok (some ⟨.finite n, some (.stored v)⟩)

/-- The definition of a variable is ready, and its value is that of the variable. -/
def Reader.Deduces {w : Workspace Exact} {m : ModelId} (r : Reader w m)
    (origin : NodeId → Option (Term Exact)) (v : VarId) : Prop :=
  ∀ t, w.definition? v = some t → r.Ready origin t ∧ ∀ n, r.Means origin t n →
    r.read v = .ok (some ⟨.finite n, some (.stored v)⟩)

theorem postDefinitionOf_requires (hB : Faithful B S c) (hc : IntegralCollections c) {v : VarId}
    (ht : ∀ t, c.workspace.definition? v = some t → t.WellBuilt origin ∧ (S.limited → t.Integral)) :
    Requires S c origin (postDefinitionOf B c v) (fun r => r.Agrees origin v)
      fun r => r.Deduces origin v := by
  unfold postDefinitionOf
  split
  · rename_i t hdef
    intro G s s' hw hr
    simp only [runs_bind, runs_assumedHandle] at hr
    obtain ⟨h, s₁, hh, k, _, ⟨hk, rfl⟩, _, s₂, hpost, hlog⟩ := hr
    obtain ⟨G₁, g₁, w₁, u₁, -, b₁, e₁⟩ := translate_lowers hB hc (ht t hdef).1 (ht t hdef).2 hw hh
    have uk := w₁.handles hk
    obtain ⟨G₂, g₂, b₂, e₂⟩ := hB.postDefinition _ k h w₁.valid (by
      simpa using ⟨uk.toHeld, u₁.toHeld⟩) hpost
    obtain ⟨g₃, w₃, e₃⟩ := (w₁.step g₂).log hB hlog
    have hkv : s.handle? v = some k := (handle?_eq g₁.handles_eq v).symm.trans hk
    refine ⟨G₂, (g₁.trans g₂.toGrows).trans g₃.toGrows, w₃, fun ρ r hρ hm t' ht' => ?_, ?_⟩
    · obtain rfl : t = t' := Option.some.inj (hdef.symm.trans ht')
      have hρ₂ := g₃.admits ρ hρ
      have hvalue := (b₁ ρ r (g₂.admits ρ hρ₂) hm).means
      refine ⟨_, hvalue, ?_⟩
      rw [hm v k hkv, b₂ ρ hρ₂]
    · have e₁₂ := e₁.trans g₁ g₂.toGrows e₂
        (D := fun ρ => ∃ r : Reader c.workspace c.model, Matched S s ρ r ∧ r.Deduces origin v)
        (fun ρ _ ⟨r, hm, hd⟩ => ⟨r, hm, by simpa using (hd t hdef).1⟩) ?_
      · exact e₁₂.trans_always (g₁.trans g₂.toGrows) g₃.toGrows (e₃ fun _ => True)
      · rintro ρ ρ₁ - ⟨r, hm, hd⟩ ha hρ₁
        have hm₁ := hm.congr hB hw ha
        have hvalue := (hd t hdef).2 _ (b₁ ρ₁ r hρ₁ hm₁).means
        rw [hm₁ v k hkv] at hvalue
        simpa using hvalue
  · rename_i hnone
    refine (requires_pure ()).mono (fun r _ t ht => ?_) (fun _ _ => trivial)
    exact absurd ht (hnone t)

theorem postObjective_requires (hB : Faithful B S c) (hc : IntegralCollections c) {t : Term Exact}
    (ht : t.WellBuilt origin) (hint : S.limited → t.Integral) (sense : Sense) :
    Requires S c origin (do B.postObjective sense (← translate B c t)) (fun _ => True)
      fun r => r.Ready origin t := by
  intro G s s' hw hr
  obtain ⟨h, s₁, hh, hpost⟩ := runs_bind.mp hr
  obtain ⟨G₁, g₁, w₁, u₁, -, -, e₁⟩ := translate_lowers hB hc ht hint hw hh
  obtain ⟨G₂, g₂, -, e₂⟩ := hB.postObjective sense h w₁.valid (by simpa using u₁.toHeld) hpost
  refine ⟨G₂, g₁.trans g₂.toGrows, w₁.step g₂, fun _ _ _ _ => trivial, ?_⟩
  refine e₁.trans g₁ g₂.toGrows e₂ ?_ fun _ _ _ _ _ _ => trivial
  rintro ρ - ⟨r, hm, hready⟩
  exact ⟨r, hm, by simpa using hready⟩

omit [Numeral ν] in
/-- What is required whatever the state is, is required of a step that looks at the state. -/
theorem requires_get {f : LoweringState ν σ → LowerM Exact ν σ Unit}
    {P D : Reader c.workspace c.model → Prop} (h : ∀ s, Requires S c origin (f s) P D) :
    Requires S c origin (get >>= f) P D := by
  intro G s s' hw hr
  simp only [runs_bind, runs_get] at hr
  obtain ⟨_, _, ⟨rfl, rfl⟩, hr⟩ := hr
  exact h _ hw hr

/-! ### The whole model -/

/-- The reader makes the constraints of the model true and reads the values of the definitions. -/
structure Reader.Solves {w : Workspace Exact} {m : ModelId} (r : Reader w m)
    (origin : NodeId → Option (Term Exact)) (model : Model Exact) : Prop where
  agrees {v : VarId} : v ∈ w.allVariables m → r.Agrees origin v
  holds {t : Term Exact} : t ∈ model.constraints → ∃ n, r.Means origin t n ∧ n ≠ 0

/-- The reader solves the model, with values for all subterms and accepted values for conjuncts. -/
structure Reader.SolvesStrictly {w : Workspace Exact} {m : ModelId} (r : Reader w m)
    (origin : NodeId → Option (Term Exact)) (accepted : ℤ → Prop) (model : Model Exact) : Prop where
  deduces {v : VarId} : v ∈ w.allVariables m → r.Deduces origin v
  meets {t : Term Exact} : t ∈ model.constraints → r.Meets origin accepted t
  objective : model.sense ≠ .feasible → r.Ready origin model.objective

theorem postConstraints_asserts (hB : Faithful B S c) (hc : IntegralCollections c)
    {ts : List (Term Exact)} (ht : ∀ t ∈ ts, t.WellBuilt origin)
    (hint : S.limited → ∀ t ∈ ts, t.Integral) :
    Asserts S c origin ts (ts.forM fun t => do
      post B c t
      LowerM.log c.config 2 (("Added constraint " ++ ·) <$> c.workspace.termText t)) := by
  have hstep := requires_forM hB _ fun t htm =>
    (post_asserts hB hc (ht t htm) fun hl => hint hl t htm).append hB (requires_log hB 2
      (("Added constraint " ++ ·) <$> c.workspace.termText t))
  exact hstep.mono (fun r h t htm => (h t htm).1 t (by simp)) fun r h t htm =>
    ⟨fun u hu => by obtain rfl := List.mem_singleton.mp hu; exact h u htm, trivial⟩

/-- A model is lowered in two stages: its variables are created, and the rest is posted. -/
theorem stages_of_lowerModel (hB : Faithful B S c) (hc : IntegralCollections c)
    (hl : c.Lawful origin) (hint : S.limited → c.Integral) {model : Model Exact}
    (hm : c.workspace.findModel c.model = some model) (hr : (lowerModel B c).Runs s () s') :
    ∃ s₁, (do
        model.sequences.forM (createSequenceOf B c)
        model.vars.forM (createVariableOf B c)
        (model.families.flatMap c.workspace.members).forM (createVariableOf B c) :
          LowerM Exact ν σ Unit).Runs { s with lowered := true } () s₁ ∧
      ∃ m : LowerM Exact ν σ Unit, m.Runs s₁ () s' ∧ Requires S c origin m
        (fun r => r.Solves origin model) fun r => r.SolvesStrictly origin S.Accepts model := by
  have hdefinitions := requires_forM hB c.vars fun v hv =>
    postDefinitionOf_requires hB hc (v := v) fun t hdef =>
      ⟨hl.definition hv hdef, fun hlim => (hint hlim).definition hv hdef⟩
  have hconstraints := postConstraints_asserts hB hc (fun t => hl.constraint hm)
    fun hlim t => (hint hlim).constraint hm
  have hobjective := (postObjective_requires hB hc (hl.objective hm)
    (fun hlim => (hint hlim).objective hm) model.sense).append hB (requires_log hB 2
      (("Added objective " ++ model.sense.tag ++ " " ++ ·) <$> c.workspace.termText model.objective))
  have hlast := requires_get (f := fun s => LowerM.log c.config 1 (.ok ("Lowered " ++
    toString s.handles.length ++ " variables and " ++ toString model.constraints.length ++
      " constraints for " ++ B.name ++ " in 0.000s"))) fun s =>
        (requires_log hB 1 _ : Requires S c origin _ _ _)
  have hposted := hdefinitions.append hB hconstraints
  unfold lowerModel at hr
  rw [hm] at hr
  simp only [runs_bind (m := get), runs_get] at hr
  obtain ⟨_, _, ⟨rfl, rfl⟩, hr⟩ := hr
  split at hr
  · simp [runs_bind] at hr
  · obtain ⟨_, _, hmark, hr⟩ := runs_bind.mp hr
    obtain rfl := runs_modify.mp hmark
    obtain ⟨_, s₁, hsequences, hr⟩ := runs_bind.mp hr
    obtain ⟨_, s₂, hvars, hr⟩ := runs_bind.mp hr
    obtain ⟨_, s₃, hfamilies, hr⟩ := runs_bind.mp hr
    obtain ⟨_, s₄, hd, hr⟩ := runs_bind.mp hr
    obtain ⟨_, s₅, hcs, hr⟩ := runs_bind.mp hr
    have hfirst := runs_seq hd hcs
    refine ⟨s₃, runs_seq hsequences (runs_seq hvars hfamilies), ?_⟩
    have hsolves : ∀ r : Reader c.workspace c.model, (∀ v ∈ c.vars, r.Agrees origin v) →
        (∀ t ∈ model.constraints, ∃ n, r.Holds origin t n ∧ n ≠ 0) → r.Solves origin model := by
      intro r hagrees hholds
      refine ⟨fun hv => hagrees _ hv, fun ht => ?_⟩
      obtain ⟨n, hn, hne⟩ := hholds _ ht
      exact ⟨n, hn.means, hne⟩
    split at hr
    · rename_i hsense
      simp only [runs_bind (m := translate B c model.objective)] at hr
      obtain ⟨h, s₆, htranslate, hr⟩ := hr
      obtain ⟨_, s₇, hobj, hr⟩ := runs_bind.mp hr
      obtain ⟨_, s₈, hlog, hr⟩ := runs_bind.mp hr
      have hsecond := runs_seq (runs_seq (runs_bind.mpr ⟨h, s₆, htranslate, hobj⟩) hlog) hr
      refine ⟨_, runs_seq hfirst hsecond,
        (hposted.append hB (hobjective.append hB hlast)).mono ?_ ?_⟩
      · rintro r ⟨⟨hagrees, hholds⟩, -⟩
        exact hsolves r hagrees hholds
      · intro r h
        exact ⟨⟨fun v hv => h.deduces hv, fun t ht => h.meets ht⟩, ⟨h.objective hsense, trivial⟩,
          trivial⟩
    · refine ⟨_, runs_seq hfirst hr, (hposted.append hB hlast).mono ?_ ?_⟩
      · rintro r ⟨⟨hagrees, hholds⟩, -⟩
        exact hsolves r hagrees hholds
      · intro r h
        exact ⟨⟨fun v hv => h.deduces hv, fun t ht => h.meets ht⟩, trivial⟩

omit [Numeral ν] in
/-- Before lowering there is nothing to be in order but the tables of the back-end. -/
theorem walked_initial (hv : S.Valid G s) (hh : s.handles = []) (hm : s.memo = []) :
    Walked S c origin G s where
  valid := hv
  known h := by simp [LoweringState.handle?, hh] at h
  handles h := by simp [LoweringState.handle?, hh] at h
  fits h := by simp [LoweringState.handle?, hh] at h
  memo_usable h := by simp [hm] at h
  memo_holds h := by simp [hm] at h

/-- From a state with nothing lowered yet, the variables of a model are created and all have
handles; what is posted then requires that the model is solved. -/
theorem lowerModel_stages (hB : Faithful B S c) (hc : IntegralCollections c) (hl : c.Lawful origin)
    (hint : S.limited → c.Integral) {model : Model Exact}
    (hm : c.workspace.findModel c.model = some model) (hv : S.Valid G s) (hh : s.handles = [])
    (hmemo : s.memo = []) (hr : (lowerModel B c).Runs s () s') :
    ∃ G₁ G' s₁, Creates S c origin c.vars { s with lowered := true } G₁ s₁ ∧
      S.Grows G₁ s₁ G' s' ∧ Walked S c origin G' s' ∧
      (∀ ρ (r : Reader c.workspace c.model), S.Admits ρ s' → Matched S s₁ ρ r →
        r.Solves origin model) ∧
      S.Extends s₁ s' fun ρ => ∃ r : Reader c.workspace c.model, Matched S s₁ ρ r ∧
        r.SolvesStrictly origin S.Accepts model := by
  obtain ⟨s₁, hcreate, m, hpost, hrequires⟩ := stages_of_lowerModel hB hc hl hint hm hr
  have hs : s.SameSolver { s with lowered := true } := ⟨rfl, id, le_rfl⟩
  have hw : Walked S c origin G { s with lowered := true } :=
    walked_initial ⟨hv.world, hB.tables_congr hs hv.tables⟩ hh hmemo
  obtain ⟨G₁, c₁⟩ := createAll_creates hB hl hint hm hw hcreate
  obtain ⟨G', g, w, b, e⟩ := hrequires c₁.walked hpost
  exact ⟨G₁, G', s₁, c₁, g, w, b, e⟩

/-- After lowering exactly the variables of the model have handles, and the values of a point that is
admitted solve the model. -/
theorem lowerModel_sound (hB : Faithful B S c) (hc : IntegralCollections c) (hl : c.Lawful origin)
    (hint : S.limited → c.Integral) {model : Model Exact}
    (hm : c.workspace.findModel c.model = some model) (hv : S.Valid G s) (hh : s.handles = [])
    (hmemo : s.memo = []) (hr : (lowerModel B c).Runs s () s') :
    (∃ G', Walked S c origin G' s') ∧ (∀ v, v ∈ c.vars ↔ ∃ h, s'.handle? v = some h) ∧
      ∀ ρ (r : Reader c.workspace c.model), S.Admits ρ s' → Matched S s' ρ r →
        r.Solves origin model := by
  obtain ⟨G₁, G', s₁, c₁, g, w, b, -⟩ := lowerModel_stages hB hc hl hint hm hv hh hmemo hr
  refine ⟨⟨G', w⟩, fun v => ?_, fun ρ r hρ hr => b ρ r hρ ((matched_iff g.handles_eq).mp hr)⟩
  rw [handle?_eq g.handles_eq]
  exact ⟨fun hv => c₁.enters hv (hl.declared hv), fun ⟨h, hh⟩ => c₁.walked.known hh⟩

/-- Eligible values that solve the model strictly are those of a point that is admitted after
lowering. -/
theorem lowerModel_complete (hB : Faithful B S c) (hc : IntegralCollections c)
    (hl : c.Lawful origin) (hint : S.limited → c.Integral) {model : Model Exact}
    (hm : c.workspace.findModel c.model = some model) (hv : S.Valid G s) (hh : s.handles = [])
    (hmemo : s.memo = []) (hr : (lowerModel B c).Runs s () s') {ρ₀ : HandleId → V}
    (hρ₀ : S.Admits ρ₀ s) (hcalm : S.Calm s'.solver) {val : VarId → ℤ} (hval : Eligible S c val)
    {r : Reader c.workspace c.model}
    (hread : ∀ v ∈ c.vars, r.read v = .ok (some ⟨.finite (val v), some (.stored v)⟩))
    (hsolves : r.SolvesStrictly origin S.Accepts model) :
    ∃ ρ, S.Admits ρ s' ∧ Assigns S s' val ρ := by
  obtain ⟨G₁, G', s₁, c₁, g, -, -, e⟩ := lowerModel_stages hB hc hl hint hm hv hh hmemo hr
  obtain ⟨ρ₁, hρ₁, ha₁⟩ := c₁.extends_ hval (g.calm hcalm) (ρ := ρ₀) ⟨hρ₀.1, hρ₀.2⟩
    fun v h hv => by simp [LoweringState.handle?, hh] at hv
  have hmatched : Matched S s₁ ρ₁ r := by
    intro v h hv
    rw [hread v (c₁.walked.known hv), ha₁ v h hv]
  obtain ⟨ρ₂, hagree, hρ₂⟩ := e ρ₁ hcalm hρ₁ ⟨r, hmatched, hsolves⟩
  refine ⟨ρ₂, hρ₂, fun v h hv => ?_⟩
  rw [handle?_eq g.handles_eq] at hv
  rw [← hB.int_congr c₁.walked.valid.world (c₁.walked.handles hv).mem hagree]
  exact ha₁ v h hv

end DecisionModel
