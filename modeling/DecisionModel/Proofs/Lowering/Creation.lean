import DecisionModel.Proofs.Lowering.Constraint

/-!
# Creation of variables

The first stage of lowering a model creates its variables. `Creates` says of a run of this stage
that the handles entered can be used, and that any eligible values, which are within bounds and form
permutations where sequences ask for them, can be taken by the new variables.
`createAll_creates` is the whole stage.
-/

namespace DecisionModel

open LowerM Backend

/-- The sequences of the model to lower. -/
def Context.sequences (c : Context Exact) : List SequenceId :=
  ((c.workspace.findModel c.model).map (·.sequences)).getD []

theorem Context.sequences_eq (c : Context Exact) {model : Model Exact}
    (hm : c.workspace.findModel c.model = some model) : c.sequences = model.sequences := by
  simp [Context.sequences, hm]

theorem Context.vars_eq (c : Context Exact) {model : Model Exact}
    (hm : c.workspace.findModel c.model = some model) :
    c.vars = model.sequences.flatMap c.workspace.sequenceMembers ++ model.vars ++
      model.families.flatMap c.workspace.members := by
  simp [Context.vars, Workspace.allVariables, hm]

theorem Context.mem_vars_of_mem_sequence (c : Context Exact) {q : SequenceId} {v : VarId}
    (hq : q ∈ c.sequences) (hv : v ∈ c.workspace.sequenceMembers q) : v ∈ c.vars := by
  cases hm : c.workspace.findModel c.model with
  | none => simp [Context.sequences, hm] at hq
  | some model =>
    rw [c.sequences_eq hm] at hq
    rw [c.vars_eq hm]
    exact List.mem_append_left _ (List.mem_append_left _ (List.mem_flatMap.mpr ⟨q, hq, hv⟩))

/-- What is true of a model that builders made. -/
structure Context.Lawful (c : Context Exact) (origin : NodeId → Option (Term Exact)) : Prop where
  declared {v : VarId} : v ∈ c.vars → ∃ d, c.workspace.findVariable v = some d
  member {q : SequenceId} {v : VarId} {d : Variable Exact} : q ∈ c.sequences →
    v ∈ c.workspace.sequenceMembers q → c.workspace.findVariable v = some d →
      d.kind = .integer ∧ ∀ n : ℤ, 1 ≤ n → n ≤ (c.workspace.sequenceMembers q).length → d.Within n
  definition {v : VarId} {t : Term Exact} : v ∈ c.vars → c.workspace.definition? v = some t →
    t.WellBuilt origin
  constraint {model : Model Exact} {t : Term Exact} : c.workspace.findModel c.model = some model →
    t ∈ model.constraints → t.WellBuilt origin
  objective {model : Model Exact} : c.workspace.findModel c.model = some model →
    model.objective.WellBuilt origin

/-- Variables, constants and operators of the model are integral. -/
structure Context.Integral (c : Context Exact) : Prop where
  kind {v : VarId} {d : Variable Exact} : v ∈ c.vars → c.workspace.findVariable v = some d →
    d.kind ≠ .real
  definition {v : VarId} {t : Term Exact} : v ∈ c.vars → c.workspace.definition? v = some t →
    t.Integral
  constraint {model : Model Exact} {t : Term Exact} : c.workspace.findModel c.model = some model →
    t ∈ model.constraints → t.Integral
  objective {model : Model Exact} : c.workspace.findModel c.model = some model →
    model.objective.Integral

variable {ν σ V : Type} [Numeral ν] {B : Backend Exact ν σ} {S : Semantics ν σ V} {c : Context Exact}
  {origin : NodeId → Option (Term Exact)} {G G₁ G₂ : Set (Handle ν)}
  {s s' s₁ s₂ : LoweringState ν σ}

/-! ### Entering handles -/

omit [Numeral ν] in
theorem handle?_enter {entries : List (VarId × Handle ν)} {v : VarId} {h : Handle ν}
    (hv : (s.enter entries).handle? v = some h) : s.handle? v = some h ∨ (v, h) ∈ entries := by
  simp only [LoweringState.handle?, LoweringState.enter, List.find?_append, Option.map_or,
    Option.or_eq_some_iff] at hv
  rcases hv with hv | ⟨-, hv⟩
  · exact .inl hv
  · exact .inr (Table.mem_of_get? hv)

omit [Numeral ν] in
theorem handle?_enter_of_some {entries : List (VarId × Handle ν)} {v : VarId} {h : Handle ν}
    (hv : s.handle? v = some h) : (s.enter entries).handle? v = some h :=
  handle?_of_entered (List.prefix_append _ _) hv

omit [Numeral ν] in
theorem exists_handle_enter {entries : List (VarId × Handle ν)} {v : VarId}
    (hv : v ∈ entries.map (·.1)) : ∃ h, (s.enter entries).handle? v = some h := by
  obtain ⟨e, he, rfl⟩ := List.mem_map.mp hv
  simp only [LoweringState.handle?, LoweringState.enter, List.find?_append, Option.map_or,
    ← Option.isSome_iff_exists, Option.isSome_or, Option.isSome_map, Bool.or_eq_true]
  exact .inr (List.find?_isSome.mpr ⟨e, he, by simp⟩)

theorem Walked.enter (hB : Faithful B S c) (hw : Walked S c origin G s)
    {entries : List (VarId × Handle ν)}
    (he : ∀ e ∈ entries, e.1 ∈ c.vars ∧ S.Usable G s e.2 ∧ ∀ d,
      c.workspace.findVariable e.1 = some d → ∀ ρ, S.Admits ρ s → S.Fits d (S.int ρ e.2)) :
    Walked S c origin G (s.enter entries) where
  valid := by
    have hs : s.SameSolver (s.enter entries) := ⟨rfl, fun h => h, le_rfl⟩
    exact ⟨hw.valid.world, hB.tables_congr hs hw.valid.tables⟩
  known hv := by
    rcases handle?_enter hv with hv | hv
    · exact hw.known hv
    · exact (he _ hv).1
  handles hv := by
    rcases handle?_enter hv with hv | hv
    · have hu := hw.handles hv
      exact ⟨⟨hu.mem, hu.integral⟩, hu.noted⟩
    · have hu := (he _ hv).2.1
      exact ⟨⟨hu.mem, hu.integral⟩, hu.noted⟩
  fits hv hd ρ hρ := by
    rcases handle?_enter hv with hv | hv
    · exact hw.fits hv hd ρ hρ
    · exact (he _ hv).2.2 _ hd ρ hρ
  memo_usable hm := by
    have hu := hw.memo_usable hm
    exact ⟨⟨hu.mem, hu.integral⟩, hu.noted⟩
  memo_holds hm := by
    obtain ⟨t, ht, hk, hh⟩ := hw.memo_holds hm
    refine ⟨t, ht, ?_, fun ρ r hρ hmr => hh ρ r hρ fun v h hv => hmr v h (handle?_enter_of_some hv)⟩
    intro id f i hf v hv
    obtain ⟨h, hh⟩ := hk id f i hf v hv
    exact ⟨h, handle?_enter_of_some hh⟩

/-! ### Creation of variables -/

/-- The values may be chosen for the variables of the model. -/
structure Eligible (S : Semantics ν σ V) (c : Context Exact) (val : VarId → ℤ) : Prop where
  allowed {v : VarId} {d : Variable Exact} : v ∈ c.vars → c.workspace.findVariable v = some d →
    S.Allowed d (val v)
  permutation {q : SequenceId} : q ∈ c.sequences → ((c.workspace.sequenceMembers q).map val).Perm
    ((List.range (c.workspace.sequenceMembers q).length).map fun i : ℕ => (i : ℤ) + 1)

/-- The handles of variables have these values. -/
def Assigns (S : Semantics ν σ V) (s : LoweringState ν σ) (val : VarId → ℤ) (ρ : HandleId → V) : Prop :=
  ∀ v h, s.handle? v = some h → S.int ρ h = val v

/-- Between the states the variables were created. -/
structure Creates (S : Semantics ν σ V) (c : Context Exact) (origin : NodeId → Option (Term Exact))
    (vs : List VarId) (s : LoweringState ν σ) (G' : Set (Handle ν)) (s' : LoweringState ν σ) :
    Prop where
  walked : Walked S c origin G' s'
  keeps {v : VarId} {h : Handle ν} : s.handle? v = some h → s'.handle? v = some h
  enters {v : VarId} : v ∈ vs → (∃ d, c.workspace.findVariable v = some d) →
    ∃ h, s'.handle? v = some h
  calm : S.Calm s'.solver → S.Calm s.solver
  extends_ {val : VarId → ℤ} {ρ : HandleId → V} : Eligible S c val → S.Calm s'.solver →
    S.Admits ρ s → Assigns S s val ρ → ∃ ρ', S.Admits ρ' s' ∧ Assigns S s' val ρ'

omit [Numeral ν] in
/-- Variables that were never declared are not created. -/
theorem Creates.refl (hw : Walked S c origin G s) {vs : List VarId}
    (hvs : ∀ v ∈ vs, c.workspace.findVariable v = none) : Creates S c origin vs s G s where
  walked := hw
  keeps := id
  enters hv hd := by
    obtain ⟨d, hd⟩ := hd
    exact nomatch (hvs _ hv).symm.trans hd
  calm := id
  extends_ _ _ hρ ha := ⟨_, hρ, ha⟩

omit [Numeral ν] in
theorem Creates.trans {vs ws : List VarId} (h₁ : Creates S c origin vs s G₁ s₁)
    (h₂ : Creates S c origin ws s₁ G₂ s₂) : Creates S c origin (vs ++ ws) s G₂ s₂ where
  walked := h₂.walked
  keeps hv := h₂.keeps (h₁.keeps hv)
  enters hv hd := by
    rcases List.mem_append.mp hv with hv | hv
    · obtain ⟨h, hh⟩ := h₁.enters hv hd
      exact ⟨h, h₂.keeps hh⟩
    · exact h₂.enters hv hd
  calm hc := h₁.calm (h₂.calm hc)
  extends_ hval hc hρ ha := by
    obtain ⟨ρ₁, hρ₁, ha₁⟩ := h₁.extends_ hval (h₂.calm hc) hρ ha
    exact h₂.extends_ hval hc hρ₁ ha₁

/-- Writing to the log creates nothing. -/
theorem Creates.log (hB : Faithful B S c) {vs : List VarId} (h : Creates S c origin vs s G s₁)
    {level : ℤ} {line : Except Fault String} {u : Unit}
    (hr : (LowerM.log c.config level line : LowerM Exact ν σ Unit).Runs s₁ u s') :
    Creates S c origin vs s G s' := by
  obtain ⟨g, w, e⟩ := h.walked.log hB hr
  have hhandle := fun v => handle?_eq g.handles_eq v
  refine ⟨w, fun hv => (hhandle _).trans (h.keeps hv), fun hv hd => ?_, fun hc => h.calm (g.calm hc),
    fun hval hc hρ ha => ?_⟩
  · obtain ⟨k, hk⟩ := h.enters hv hd
    exact ⟨k, (hhandle _).trans hk⟩
  · obtain ⟨ρ₁, hρ₁, ha₁⟩ := h.extends_ hval (g.calm hc) hρ ha
    obtain ⟨ρ₂, hagree, hρ₂⟩ := e (fun _ => True) ρ₁ hc hρ₁ trivial
    refine ⟨ρ₂, hρ₂, fun v k hv => ?_⟩
    rw [hhandle] at hv
    rw [← hB.int_congr h.walked.valid.world (h.walked.handles hv).mem hagree]
    exact ha₁ v k hv

omit [Numeral ν] in
theorem Creates.forM {β : Type} {f : β → LowerM Exact ν σ Unit} (vs : β → List VarId) {xs : List β}
    (hf : ∀ x ∈ xs, ∀ ⦃G s s'⦄, Walked S c origin G s → (f x).Runs s () s' →
      ∃ G', Creates S c origin (vs x) s G' s')
    (hw : Walked S c origin G s) (hr : (xs.forM f).Runs s () s') :
    ∃ G', Creates S c origin (xs.flatMap vs) s G' s' := by
  induction xs generalizing G s with
  | nil =>
    obtain rfl := runs_forM_nil.mp hr
    exact ⟨G, .refl hw (by simp)⟩
  | cons x xs ih =>
    obtain ⟨s₁, h₁, h₂⟩ := runs_forM_cons.mp hr
    obtain ⟨G₁, c₁⟩ := hf x (by simp) hw h₁
    obtain ⟨G₂, c₂⟩ := ih (fun y hy => hf y (by simp [hy])) c₁.walked h₂
    exact ⟨G₂, c₁.trans c₂⟩

/-- Handles made by a step that lets them take the values are entered. -/
theorem creates_entries (hB : Faithful B S c) (hw : Walked S c origin G s)
    (entries : List (VarId × Handle ν)) (g : S.Step G s G₁ s₁)
    (he : ∀ e ∈ entries, e.1 ∈ c.vars ∧ S.Usable G₁ s₁ e.2 ∧ ∀ d,
      c.workspace.findVariable e.1 = some d → ∀ ρ, S.Admits ρ s₁ → S.Fits d (S.int ρ e.2))
    (hval : ∀ val, Eligible S c val → ∀ ρ, S.Calm s₁.solver → S.Admits ρ s → ∃ ρ',
      Agree s.nextHandle ρ ρ' ∧ S.Admits ρ' s₁ ∧ ∀ e ∈ entries, S.int ρ' e.2 = val e.1) :
    Creates S c origin (entries.map (·.1)) s G₁ (s₁.enter entries) where
  walked := (hw.step g).enter hB he
  keeps hv := handle?_enter_of_some ((handle?_eq g.handles_eq _).trans hv)
  enters hv _ := exists_handle_enter hv
  calm := g.calm
  extends_ {val ρ} hval' hc hρ ha := by
    obtain ⟨ρ', hagree, hρ', hnew⟩ := hval val hval' ρ hc hρ
    refine ⟨ρ', hρ', fun v h hv => ?_⟩
    rcases handle?_enter hv with hv | hv
    · rw [handle?_eq g.handles_eq] at hv
      rw [← hB.int_congr hw.valid.world (hw.handles hv).mem hagree]
      exact ha v h hv
    · exact hnew _ hv

theorem createVariableOf_creates (hB : Faithful B S c)
    (hkind : ∀ v ∈ c.vars, ∀ d, c.workspace.findVariable v = some d → S.limited → d.kind ≠ .real)
    {v : VarId} (hv : v ∈ c.vars) (hw : Walked S c origin G s)
    (hr : (createVariableOf B c v).Runs s () s') : ∃ G', Creates S c origin [v] s G' s' := by
  unfold createVariableOf at hr
  split at hr
  · rename_i d hd
    simp only [enterHandle, runs_bind, runs_modify] at hr
    obtain ⟨h, s₁, hcreate, rfl⟩ := hr
    obtain ⟨G₁, g, u, hfits, hreach⟩ := hB.createVariable (hkind v hv d hd) hw.valid hcreate
    refine ⟨G₁, creates_entries hB hw [(v, h)] g ?_ ?_⟩
    · intro e he
      obtain rfl := List.mem_singleton.mp he
      refine ⟨hv, u, fun d' hd' => ?_⟩
      obtain rfl : d = d' := Option.some.inj (hd.symm.trans hd')
      exact hfits
    · intro val hval ρ hc hρ
      obtain ⟨ρ', ha, hρ', hn⟩ := hreach (val v) (hval.allowed hv hd) ρ hc hρ
      refine ⟨ρ', ha, hρ', fun e he => ?_⟩
      obtain rfl := List.mem_singleton.mp he
      exact hn
  · rename_i hnone
    obtain ⟨-, rfl⟩ := runs_pure.mp hr
    refine ⟨G, .refl hw fun v' hv' => ?_⟩
    obtain rfl := List.mem_singleton.mp hv'
    exact Option.eq_none_iff_forall_not_mem.mpr fun d hd => hnone d hd

theorem createSequenceOf_creates (hB : Faithful B S c) (hl : c.Lawful origin) {q : SequenceId}
    (hq : q ∈ c.sequences) (hw : Walked S c origin G s)
    (hr : (createSequenceOf B c q).Runs s () s') :
    ∃ G', Creates S c origin (c.workspace.sequenceMembers q) s G' s' := by
  simp only [createSequenceOf, runs_bind, runs_enterHandles] at hr
  obtain ⟨hs, s₁, hcreate, _, _, rfl, hlog⟩ := hr
  obtain ⟨hlen, G₁, g, u, hrange, hreach⟩ := hB.createSequence hw.valid hcreate
  rw [List.length_map] at hlen hrange hreach
  have hfst : ((c.workspace.sequenceMembers q).zip hs).map (·.1) = c.workspace.sequenceMembers q :=
    List.map_fst_zip hlen.ge
  have hc : Creates S c origin (((c.workspace.sequenceMembers q).zip hs).map (·.1)) s G₁
      (s₁.enter ((c.workspace.sequenceMembers q).zip hs)) := by
    refine creates_entries hB hw _ g ?_ ?_
    · rintro ⟨v, h⟩ he
      obtain ⟨hv, hh⟩ := List.of_mem_zip he
      refine ⟨c.mem_vars_of_mem_sequence hq hv, u h hh, fun d hd ρ hρ => ?_⟩
      obtain ⟨hkind, hwithin⟩ := hl.member hq hv hd
      obtain ⟨hlower, hupper⟩ := hrange ρ hρ h hh
      exact hB.fits_member hkind (hwithin _ hlower hupper)
    · intro val hval ρ hcalm hρ
      obtain ⟨ρ', ha, hρ', hvalues⟩ := hreach _ (hval.permutation hq) ρ hcalm hρ
      refine ⟨ρ', ha, hρ', fun e he => ?_⟩
      obtain ⟨k, hk⟩ := List.getElem?_of_mem he
      obtain ⟨hv, hh⟩ := List.getElem?_zip_eq_some.mp hk
      have hvalue := congrArg (·[k]?) hvalues
      simpa [hv, hh] using hvalue
  rw [hfst] at hc
  exact ⟨G₁, hc.log hB hlog⟩

/-- The variables of a model are created in the order in which the model lists them. -/
theorem createAll_creates (hB : Faithful B S c) (hl : c.Lawful origin)
    (hint : S.limited → c.Integral) {model : Model Exact}
    (hm : c.workspace.findModel c.model = some model) (hw : Walked S c origin G s)
    (hr : (do
      model.sequences.forM (createSequenceOf B c)
      model.vars.forM (createVariableOf B c)
      (model.families.flatMap c.workspace.members).forM (createVariableOf B c)).Runs s () s') :
    ∃ G', Creates S c origin c.vars s G' s' := by
  have hkind : ∀ v ∈ c.vars, ∀ d, c.workspace.findVariable v = some d → S.limited → d.kind ≠ .real :=
    fun v hv d hd hlim => (hint hlim).kind hv hd
  have hvars := c.vars_eq hm
  simp only [runs_bind] at hr
  obtain ⟨_, s₁, hr₁, _, s₂, hr₂, hr₃⟩ := hr
  obtain ⟨G₁, c₁⟩ := Creates.forM c.workspace.sequenceMembers (fun q hq _ _ _ hw hr =>
    createSequenceOf_creates hB hl (by rwa [c.sequences_eq hm]) hw hr) hw hr₁
  obtain ⟨G₂, c₂⟩ := Creates.forM (fun v => [v]) (fun v hv _ _ _ hw hr =>
    createVariableOf_creates hB hkind (by simp [hvars, hv]) hw hr) c₁.walked hr₂
  obtain ⟨G₃, c₃⟩ := Creates.forM (fun v => [v]) (fun v hv _ _ _ hw hr =>
    createVariableOf_creates hB hkind (by rw [hvars]; exact List.mem_append_right _ hv) hw hr)
    c₂.walked hr₃
  have hall := (c₁.trans c₂).trans c₃
  simp only [List.flatMap_singleton', ← hvars] at hall
  exact ⟨G₃, hall⟩

end DecisionModel
