import DecisionModel.Proofs.CpSat.Meaning

/-!
# Steps of lowering for CP-SAT

What each primitive does to the handles in circulation and to the tables: a new variable, a call, a
note about bounds, a literal, a negation. `computes_new` is the form of most encodings: a new
variable, and constraints that determine its value.
-/

namespace DecisionModel.CpSat

open LowerM

variable {α : Type} {G G' : Set Expr} {s s' : CpSatState} {h k x y : Expr} {b : Bounds}
  {ρ ρ' : HandleId → ℤ} {args : List Expr}

theorem admits_iff : semantics.Admits ρ s ↔ Admitted ρ s := Iff.rfl

theorem usable_iff : semantics.Usable G s h ↔ h ∈ G ∧ Noted s.solver h :=
  ⟨fun u => ⟨u.mem, u.noted⟩, fun u => ⟨⟨u.1, fun _ _ => trivial⟩, u.2⟩⟩

theorem held_iff : semantics.Held G s h ↔ h ∈ G :=
  ⟨fun u => u.mem, fun u => ⟨u, fun _ _ => trivial⟩⟩

theorem usable_number (hv : semantics.Valid G s) (n : ℤ) : semantics.Usable G s (.const n) :=
  usable_iff.mpr ⟨hv.world.const_mem n, fun _ h => nomatch h⟩

/-- What returns a number. -/
theorem computes_number (n : ℤ) {R : (HandleId → ℤ) → ℤ → Prop} (hR : ∀ ρ, R ρ n) :
    semantics.Computes (α := α) (pure (.const n)) args R fun _ => True := by
  intro G s h s' hv _ hr
  obtain ⟨rfl, rfl⟩ := runs_pure.mp hr
  refine ⟨G, .refl hv, usable_number hv n, fun ρ _ => ?_, .refl⟩
  show R ρ (value ρ (.const n))
  rw [value_const]
  exact hR ρ

theorem satisfied_congr (hv : semantics.Valid G s) (ha : Agree s.nextHandle ρ ρ')
    (hs : s.solver.Satisfied ρ) : s.solver.Satisfied ρ' := fun c hc =>
  Call.holds_congr (fun _ hx => value_congr hv.world (hv.tables.calls hc hx) ha) (hs c hc)

/-! ### Changes that satisfy nothing new -/

/-- A change after which the same calls stand. -/
theorem step_of_calls (hG : G ⊆ G') (hv : semantics.Valid G' s')
    (hnext : s.nextHandle ≤ s'.nextHandle) (hhandles : s'.handles = s.handles)
    (hmemo : s'.memo = s.memo) (hviolated : s'.violated = s.violated)
    (hcalls : s'.solver.calls = s.solver.calls)
    (hcut : s'.solver.cut = false → s.solver.cut = false)
    (hbounds : ∀ e ∈ s.solver.bounds, e ∈ s'.solver.bounds) :
    semantics.Step G s G' s' ∧ ∀ D, semantics.Extends s s' D := by
  have hadmits : ∀ ρ, semantics.Admits ρ s' ↔ semantics.Admits ρ s := fun ρ => by
    simp only [admits_iff, Admitted, Solver.Satisfied, hcalls, hviolated]
  refine ⟨⟨⟨hG, hv, hnext, hhandles, fun ρ => (hadmits ρ).mp, hcut, fun h hn id hid => ?_⟩, hmemo⟩,
    fun D ρ _ hρ _ => ⟨ρ, Agree.refl _ ρ, (hadmits ρ).mpr hρ⟩⟩
  obtain ⟨b, hb⟩ := hn id hid
  exact ⟨b, hbounds _ hb⟩

/-- A handle with a new identity enters circulation. -/
theorem step_enter (hv : semantics.Valid G s) (hid : h.id? = some ⟨s.nextHandle⟩)
    (hargs : ∀ id f args, h = .node id f args → ∀ a ∈ args, a ∈ G) :
    semantics.Step G s (insert h G) { s with nextHandle := s.nextHandle + 1 } ∧
      ∀ D, semantics.Extends s { s with nextHandle := s.nextHandle + 1 } D := by
  have ht := hv.tables
  have hne : ∀ {k : Expr} {id : HandleId}, k ∈ insert h G → k.id? = some id →
      id.index < s.nextHandle → k ∈ G := by
    rintro k id (rfl | hk) hkid hlt
    · rw [hid] at hkid
      cases hkid
      exact absurd hlt (Nat.lt_irrefl _)
    · exact hk
  refine step_of_calls (Set.subset_insert _ _) ⟨hv.world.insert hid (Nat.lt_succ_self _) hargs, ?_⟩
    (Nat.le_succ _) rfl rfl rfl rfl (fun hc => hc) fun _ he => he
  exact {
    calls := fun hc hx => .inr (ht.calls hc hx)
    bounds_fresh := fun hb => Nat.lt_succ_of_lt (ht.bounds_fresh hb)
    bounds := fun hc hb hk hkid hρ => ht.bounds hc hb (hne hk hkid (ht.bounds_fresh hb)) hkid hρ
    literals_fresh := fun hl => Nat.lt_succ_of_lt (ht.literals_fresh hl)
    literals := fun hl hk hkid hρ => ht.literals hl (hne hk hkid (ht.literals_fresh hl)) hkid hρ
    negations := fun hn => by
      obtain ⟨hk, x, hx, hxid, hval⟩ := ht.negations hn
      exact ⟨.inr hk, x, .inr hx, hxid, hval⟩ }

/-- A change of the state outside the solver. -/
theorem step_auxiliary (hv : semantics.Valid G s) (n : ℕ) :
    semantics.Step G s G { s with auxiliaries := n } ∧
      ∀ D, semantics.Extends s { s with auxiliaries := n } D := by
  have ht := hv.tables
  exact step_of_calls subset_rfl ⟨hv.world, ⟨ht.calls, ht.bounds_fresh, ht.bounds,
    ht.literals_fresh, ht.literals, ht.negations⟩⟩ le_rfl rfl rfl rfl rfl (fun hc => hc) fun _ he => he

theorem runs_track {u : Expr} : (track h b : CpSatM α Expr).Runs s u s' ↔ u = h ∧
    s' = { s with solver.bounds := (h.id?.map fun id => (id, b)).toList ++ s.solver.bounds } := by
  unfold track
  cases hid : h.id? with
  | none =>
    simp only [runs_pure, Option.map_none, Option.toList_none, List.nil_append]
    exact and_congr eq_comm eq_comm
  | some id =>
    simp only [runs_bind, runs_modifySolver, runs_pure]
    constructor
    · rintro ⟨_, _, rfl, rfl, rfl⟩
      exact ⟨rfl, rfl⟩
    · rintro ⟨rfl, rfl⟩
      exact ⟨(), _, rfl, rfl, rfl⟩

/-- The bounds that are noted hold as long as no interval was cut off. -/
theorem step_track (hv : semantics.Valid G s) (hh : h ∈ G)
    (hb : s.solver.cut = false → ∀ ρ, Admitted ρ s → b.Contains (value ρ h)) {u : Expr}
    (hr : (track h b : CpSatM α Expr).Runs s u s') :
    u = h ∧ semantics.Step G s G s' ∧ semantics.Usable G s' h ∧ ∀ D, semantics.Extends s s' D := by
  obtain ⟨rfl, rfl⟩ := runs_track.mp hr
  have ht := hv.tables
  have hmem : ∀ {id : HandleId} {b' : Bounds}, (id, b') ∈ (u.id?.map fun id => (id, b)).toList ++
      s.solver.bounds → u.id? = some id ∧ b' = b ∨ (id, b') ∈ s.solver.bounds := by
    intro id b' he
    rcases List.mem_append.mp he with he | he
    · obtain ⟨id', hid', heq⟩ := Option.map_eq_some_iff.mp (Option.mem_toList.mp he)
      cases heq
      exact .inl ⟨hid', rfl⟩
    · exact .inr he
  have hvalid : semantics.Valid G { s with
      solver.bounds := (u.id?.map fun id => (id, b)).toList ++ s.solver.bounds } := ⟨hv.world, {
    calls := ht.calls
    bounds_fresh := fun he => by
      rcases hmem he with ⟨hid, -⟩ | he
      · exact hv.world.fresh hh hid
      · exact ht.bounds_fresh he
    bounds := fun hc he hk hkid hρ => by
      rcases hmem he with ⟨hid, rfl⟩ | he
      · rw [hv.world.unique hk hh hkid hid]
        exact hb hc _ hρ
      · exact ht.bounds hc he hk hkid hρ
    literals_fresh := ht.literals_fresh
    literals := ht.literals
    negations := ht.negations }⟩
  obtain ⟨g, e⟩ := step_of_calls (s := s) subset_rfl hvalid le_rfl rfl rfl rfl rfl
    (fun hc => hc) fun _ he => List.mem_append_right _ he
  refine ⟨rfl, g, usable_iff.mpr ⟨hh, fun id hid => ⟨b, ?_⟩⟩, e⟩
  exact List.mem_append_left _ (by simp [hid])

theorem runs_boundsOf {c : Bounds} :
    (boundsOf h : CpSatM α Bounds).Runs s c s' ↔ c = s.solver.boundsOf h ∧ s' = s := by
  simp only [boundsOf, runs_bind, runs_getSolver, runs_pure]
  constructor
  · rintro ⟨_, _, ⟨rfl, rfl⟩, rfl, rfl⟩
    exact ⟨rfl, rfl⟩
  · rintro ⟨rfl, rfl⟩
    exact ⟨_, _, ⟨rfl, rfl⟩, rfl, rfl⟩

/-- What is known of the bounds of a term is right as long as no interval was cut off. -/
theorem boundsOf_contains (hv : semantics.Valid G s) (hu : semantics.Usable G s h)
    (hc : s.solver.cut = false) (hρ : Admitted ρ s) :
    (s.solver.boundsOf h).Contains (value ρ h) := by
  obtain ⟨hh, hn⟩ := usable_iff.mp hu
  cases h with
  | const n => simp [Solver.boundsOf, Bounds.Contains]
  | leaf | node => exact hv.tables.bounds hc (hn.boundsOf_mem rfl) hh rfl hρ

theorem clamp_contains {n : ℤ} (h : b.clamp.Contains n) : b.Contains n :=
  ⟨(le_max_right _ _).trans h.1, h.2.trans (min_le_right _ _)⟩

theorem step_confine (hv : semantics.Valid G s) {c : Bounds}
    (hr : (confine b : CpSatM α Bounds).Runs s c s') :
    c = b.clamp ∧ semantics.Step G s G s' ∧ (s'.solver.cut = false → b.clamp = b) ∧
      s'.nextHandle = s.nextHandle ∧ ∀ D, semantics.Extends s s' D := by
  unfold confine at hr
  have ht := hv.tables
  by_cases hb : b.clamp = b
  · rw [if_neg (not_not.mpr hb)] at hr
    obtain ⟨rfl, rfl⟩ := runs_pure.mp hr
    exact ⟨rfl, .refl hv, fun _ => hb, rfl, fun _ => .refl⟩
  · rw [if_pos hb] at hr
    simp only [runs_bind, runs_modifySolver, runs_pure] at hr
    obtain ⟨_, _, rfl, rfl, rfl⟩ := hr
    have hvalid : semantics.Valid G { s with solver.cut := true } := ⟨hv.world, {
      calls := ht.calls
      bounds_fresh := ht.bounds_fresh
      bounds := fun hc => by cases hc
      literals_fresh := ht.literals_fresh
      literals := ht.literals
      negations := ht.negations }⟩
    obtain ⟨g, e⟩ := step_of_calls (s := s) subset_rfl hvalid le_rfl rfl rfl rfl rfl
      (fun hc => by cases hc) fun _ he => he
    exact ⟨rfl, g, (fun hc => by cases hc), rfl, e⟩

/-! ### Calls -/

/-- A call about terms in circulation. -/
theorem step_call (hv : semantics.Valid G s) {c : Call} (hc : ∀ x ∈ c.handles, x ∈ G)
    (hr : (call c : CpSatM α Unit).Runs s () s') :
    semantics.Step G s G s' ∧ (∀ ρ, Admitted ρ s' → c.Holds ρ) ∧
      ∀ ρ, Admitted ρ s → c.Holds ρ → Admitted ρ s' := by
  obtain rfl := runs_modifySolver.mp hr
  have ht := hv.tables
  have hcalls : ∀ c', c' ∈ (s.solver.calls.push c).toList ↔ c' ∈ s.solver.calls.toList ∨ c' = c := by
    simp
  have hback : ∀ ρ, Admitted ρ { s with solver.calls := s.solver.calls.push c } → Admitted ρ s :=
    fun ρ hρ => ⟨fun c' hc' => hρ.1 c' ((hcalls c').mpr (.inl hc')), hρ.2⟩
  refine ⟨⟨⟨subset_rfl, ⟨hv.world, ?_⟩, le_rfl, rfl, hback, fun hc => hc, fun _ hn => hn⟩, rfl⟩,
    fun ρ hρ => hρ.1 c ((hcalls c).mpr (.inr rfl)), fun ρ hρ hhold => ⟨fun c' hc' => ?_, hρ.2⟩⟩
  · exact {
      calls := fun hc' hx => by
        rcases (hcalls _).mp hc' with hc' | rfl
        · exact ht.calls hc' hx
        · exact hc _ hx
      bounds_fresh := ht.bounds_fresh
      bounds := fun hcut hb hk hkid hρ => ht.bounds hcut hb hk hkid (hback _ hρ)
      literals_fresh := ht.literals_fresh
      literals := fun hl hk hkid hρ => ht.literals hl hk hkid (hback _ hρ)
      negations := ht.negations }
  · rcases (hcalls c').mp hc' with hc' | rfl
    · exact hρ.1 c' hc'
    · exact hhold

/-- A constraint that stands always. -/
theorem posts_require (args : List Expr) {c : Constraint} (hc : ∀ x ∈ c.handles, x ∈ args) :
    semantics.Posts (α := α) (require c) args (fun ρ => c.Holds ρ) fun ρ => c.Holds ρ := by
  intro G s s' hv hargs hr
  have hmem : ∀ x ∈ (Call.require c none).handles, x ∈ G := fun x hx =>
    (hargs x (hc x (by simpa [Call.handles] using hx))).mem
  obtain ⟨g, b, e⟩ := step_call hv hmem hr
  exact ⟨G, g, b, fun ρ _ hρ hhold => ⟨ρ, Agree.refl _ ρ, e ρ hρ hhold⟩⟩

/-- A constraint that stands where a literal is true. -/
theorem posts_requireIf {literal : Expr} {c : Constraint} (hl : literal ∈ args)
    (hc : ∀ x ∈ c.handles, x ∈ args) :
    semantics.Posts (α := α) (requireIf literal c) args
      (fun ρ => value ρ literal = 1 → c.Holds ρ) fun ρ => value ρ literal = 1 → c.Holds ρ := by
  intro G s s' hv hargs hr
  have hmem : ∀ x ∈ (Call.require c (some literal)).handles, x ∈ G := by
    intro x hx
    rcases List.mem_append.mp hx with hx | hx
    · obtain rfl : x = literal := by simpa using hx
      exact (hargs _ hl).mem
    · exact (hargs x (hc x hx)).mem
  obtain ⟨g, b, e⟩ := step_call hv hmem hr
  exact ⟨G, g, b, fun ρ _ hρ hhold => ⟨ρ, Agree.refl _ ρ, e ρ hρ hhold⟩⟩

/-! ### New variables -/

/-- A new variable that may take any value of which the call that creates it holds. -/
theorem step_variable (hv : semantics.Valid G s) {name : String} {c : Call}
    (hc : c.handles = [.leaf ⟨s.nextHandle⟩ name true])
    (hr : (do let h ← leaf name true; call c; return h : CpSatM α Expr).Runs s h s') :
    ∃ G', semantics.Step G s G' s' ∧ h = .leaf ⟨s.nextHandle⟩ name true ∧ h ∈ G' ∧
      s'.solver.literals = s.solver.literals ∧ (∀ ρ, Admitted ρ s' → c.Holds ρ) ∧
      ∀ ρ n, (∀ ρ', value ρ' h = n → c.Holds ρ') → Admitted ρ s →
        ∃ ρ', Agree s.nextHandle ρ ρ' ∧ Admitted ρ' s' ∧ value ρ' h = n := by
  simp only [runs_bind, runs_leaf, runs_pure] at hr
  obtain ⟨_, _, ⟨rfl, rfl⟩, _, s₂, hcall, rfl, rfl⟩ := hr
  obtain ⟨g₁, e₁⟩ := step_enter hv (h := .leaf ⟨s.nextHandle⟩ name true) rfl (by simp)
  obtain ⟨g₂, b₂, e₂⟩ := step_call g₁.valid (by simp [hc]) hcall
  refine ⟨_, g₁.trans g₂, rfl, .inl rfl, ?_, b₂, fun ρ n hn hρ => ?_⟩
  · rw [runs_modifySolver.mp hcall]
  · have ha := Agree.update ρ (le_refl s.nextHandle) n
    have hvalue : value (Function.update ρ ⟨s.nextHandle⟩ n) (.leaf ⟨s.nextHandle⟩ name true) = n := by
      simp
    exact ⟨_, ha, e₂ _ ⟨satisfied_congr (s := s) hv ha hρ.1, hρ.2⟩ (hn _ hvalue), hvalue⟩

theorem newInteger_spec (hv : semantics.Valid G s) {hint : String}
    (hr : (newInteger b hint : CpSatM α Expr).Runs s h s') :
    ∃ G', semantics.Step G s G' s' ∧ semantics.Usable G' s' h ∧ h.number? = none ∧
      (∀ ρ, semantics.Admits ρ s' → b.Contains (value ρ h)) ∧
      ∀ n, b.Contains n → semantics.Reaches s s' h n := by
  simp only [newInteger, runs_bind] at hr
  obtain ⟨c, s₁, hconfine, name, s₂, haux, l, s₃, hleaf, _, s₄, hcall, htrack⟩ := hr
  obtain ⟨rfl, g₁, hclamp, hnext, e₁⟩ := step_confine hv hconfine
  obtain ⟨-, rfl⟩ := runs_auxiliaryName.mp haux
  obtain ⟨g₂, e₂⟩ := step_auxiliary g₁.valid (s₁.auxiliaries + 1)
  have hvariable : (do
      let h ← leaf name true
      call (.newInteger b.clamp.lower b.clamp.upper (.leaf ⟨s₁.nextHandle⟩ name true))
      return h : CpSatM α Expr).Runs { s₁ with auxiliaries := s₁.auxiliaries + 1 } l s₄ := by
    obtain ⟨rfl, -⟩ := runs_leaf.mp hleaf
    exact runs_bind.mpr ⟨_, s₃, hleaf, runs_bind.mpr ⟨_, s₄, hcall, runs_pure.mpr ⟨rfl, rfl⟩⟩⟩
  obtain ⟨G₄, g₄, hl, hmem, -, b₄, e₄⟩ := step_variable g₂.valid (by rfl) hvariable
  obtain ⟨rfl, g₅, u₅, e₅⟩ := step_track g₄.valid hmem (fun _ ρ hρ => by
    rw [hl]
    exact b₄ ρ hρ) htrack
  refine ⟨G₄, g₁.trans (g₂.trans (g₄.trans g₅)), u₅, by rw [hl]; rfl, fun ρ hρ => ?_,
    fun n hn ρ hcalm hρ => ?_⟩
  · rw [hl]
    exact clamp_contains (b₄ ρ (g₅.admits ρ hρ))
  · have hn' : b.clamp.Contains n := by
      rw [hclamp (g₂.calm (g₄.calm (g₅.calm hcalm)))]
      exact hn
    obtain ⟨ρ₂, ha₂, hρ₂⟩ := (e₁ fun _ => True).trans g₁.toGrows g₂.toGrows (e₂ fun _ => True)
      (fun _ _ h => h) (fun _ _ _ _ _ _ => trivial) ρ (g₄.calm (g₅.calm hcalm)) hρ trivial
    obtain ⟨ρ₄, ha₄, hρ₄, hvalue⟩ := e₄ ρ₂ n (fun ρ' hρ' => by
      rw [hl] at hρ'
      show b.clamp.Contains _
      rw [hρ']
      exact hn') hρ₂
    obtain ⟨ρ₅, ha₅, hρ₅⟩ := e₅ (fun _ => True) ρ₄ hcalm hρ₄ trivial
    have hle : s.nextHandle ≤ s₄.nextHandle := (g₁.trans (g₂.trans g₄)).next_le
    refine ⟨ρ₅, ?_, hρ₅, ?_⟩
    · exact ha₂.trans le_rfl ((ha₄.mono hnext.ge).trans hle ha₅)
    · exact (value_congr g₄.valid.world hmem ha₅).symm.trans hvalue

/-! ### Literals -/

/-- A term that is zero or one is noted as a literal. -/
theorem step_literals (hv : semantics.Valid G s) (hh : h ∈ G)
    (hb : ∀ ρ, Admitted ρ s → value ρ h = 0 ∨ value ρ h = 1)
    (hr : (modifySolver fun t => { t with literals := h.id?.toList ++ t.literals } :
      CpSatM α Unit).Runs s () s') :
    semantics.Step G s G s' ∧ ∀ D, semantics.Extends s s' D := by
  obtain rfl := runs_modifySolver.mp hr
  have ht := hv.tables
  have hvalid : semantics.Valid G { s with
      solver.literals := h.id?.toList ++ s.solver.literals } := ⟨hv.world, {
    calls := ht.calls
    bounds_fresh := ht.bounds_fresh
    bounds := ht.bounds
    literals_fresh := fun hl => by
      rcases List.mem_append.mp hl with hl | hl
      · exact hv.world.fresh hh (Option.mem_toList.mp hl)
      · exact ht.literals_fresh hl
    literals := fun hl hk hkid hρ => by
      rcases List.mem_append.mp hl with hl | hl
      · rw [hv.world.unique hk hh hkid (Option.mem_toList.mp hl)]
        exact hb _ hρ
      · exact ht.literals hl hk hkid hρ
    negations := ht.negations }⟩
  exact step_of_calls (s := s) subset_rfl hvalid le_rfl rfl rfl rfl rfl (fun hc => hc)
    fun _ he => he

theorem step_trackLiteral (hv : semantics.Valid G s) (hh : h ∈ G)
    (hb : ∀ ρ, Admitted ρ s → value ρ h = 0 ∨ value ρ h = 1) {u : Expr}
    (hr : (trackLiteral h : CpSatM α Expr).Runs s u s') :
    u = h ∧ semantics.Step G s G s' ∧ semantics.Usable G s' h ∧ ∀ D, semantics.Extends s s' D := by
  obtain ⟨_, s₁, hliterals, htrack⟩ := runs_bind.mp hr
  obtain ⟨g₁, e₁⟩ := step_literals hv hh hb hliterals
  have hbounds : ∀ ρ, Admitted ρ s₁ → Bounds.Contains ⟨0, 1⟩ (value ρ h) := by
    intro ρ hρ
    rcases hb ρ (g₁.admits ρ hρ) with h0 | h1
    · simp [Bounds.Contains, h0]
    · simp [Bounds.Contains, h1]
  obtain ⟨hu, g₂, u₂, e₂⟩ := step_track g₁.valid hh (fun _ => hbounds) htrack
  exact ⟨hu, g₁.trans g₂, u₂, fun D => (e₁ D).trans g₁.toGrows g₂.toGrows (e₂ fun _ => True)
    (fun _ _ h => h) fun _ _ _ _ _ _ => trivial⟩

theorem newLiteral_spec (hv : semantics.Valid G s) {hint : String}
    (hr : (newLiteral hint : CpSatM α Expr).Runs s h s') :
    ∃ G', semantics.Step G s G' s' ∧ semantics.Usable G' s' h ∧ h.number? = none ∧
      (∀ ρ, semantics.Admits ρ s' → value ρ h = 0 ∨ value ρ h = 1) ∧
      ∀ n, n = 0 ∨ n = 1 → semantics.Reaches s s' h n := by
  simp only [newLiteral, runs_bind] at hr
  obtain ⟨name, s₂, haux, l, s₃, hleaf, _, s₄, hcall, htrack⟩ := hr
  obtain ⟨-, rfl⟩ := runs_auxiliaryName.mp haux
  obtain ⟨g₂, e₂⟩ := step_auxiliary hv (s.auxiliaries + 1)
  have hvariable : (do
      let h ← leaf name true
      call (.newBoolean (.leaf ⟨s.nextHandle⟩ name true))
      return h : CpSatM α Expr).Runs { s with auxiliaries := s.auxiliaries + 1 } l s₄ := by
    obtain ⟨rfl, -⟩ := runs_leaf.mp hleaf
    exact runs_bind.mpr ⟨_, s₃, hleaf, runs_bind.mpr ⟨_, s₄, hcall, runs_pure.mpr ⟨rfl, rfl⟩⟩⟩
  obtain ⟨G₄, g₄, hl, hmem, -, b₄, e₄⟩ := step_variable g₂.valid (by rfl) hvariable
  subst hl
  obtain ⟨rfl, g₅, u₅, e₅⟩ := step_trackLiteral g₄.valid hmem b₄ htrack
  refine ⟨G₄, g₂.trans (g₄.trans g₅), u₅, rfl, fun ρ hρ => b₄ ρ (g₅.admits ρ hρ),
    fun n hn ρ hcalm hρ => ?_⟩
  obtain ⟨ρ₂, ha₂, hρ₂⟩ := e₂ (fun _ => True) ρ (g₄.calm (g₅.calm hcalm)) hρ trivial
  obtain ⟨ρ₄, ha₄, hρ₄, hvalue⟩ := e₄ ρ₂ n (fun ρ' hρ' => hn.imp hρ'.trans hρ'.trans) hρ₂
  obtain ⟨ρ₅, ha₅, hρ₅⟩ := e₅ (fun _ => True) ρ₄ hcalm hρ₄ trivial
  have hle : s.nextHandle ≤ s₄.nextHandle := (g₂.trans g₄).next_le
  refine ⟨ρ₅, ha₂.trans le_rfl (ha₄.trans hle ha₅), hρ₅, ?_⟩
  exact (value_congr g₄.valid.world hmem ha₅).symm.trans hvalue

/-- The negation of a term. -/
theorem negation_spec (hv : semantics.Valid G s) (hh : h ∈ G) (hnum : h.number? = none)
    (hr : (negation h : CpSatM α Expr).Runs s k s') :
    ∃ G', semantics.Step G s G' s' ∧ k ∈ G' ∧ (∀ ρ, value ρ k = 1 - value ρ h) ∧
      ∀ D, semantics.Extends s s' D := by
  unfold negation at hr
  split at hr
  · obtain ⟨rfl, rfl⟩ := runs_pure.mp hr
    exact ⟨G, .refl hv, hv.world.args_mem hh _ (by simp), fun ρ => by simp, fun _ => .refl⟩
  · rename_i hnone
    exact absurd hnone (Handle.id?_ne_none hnum)
  · rename_i h _ _ id _ hsome
    simp only [runs_bind, runs_getSolver] at hr
    obtain ⟨_, s, ⟨rfl, rfl⟩, hr⟩ := hr
    split at hr
    · rename_i l hl
      obtain ⟨rfl, rfl⟩ := runs_pure.mp hr
      obtain ⟨hmem, x, hx, hxid, hval⟩ := hv.tables.negations (Table.mem_of_get? hl)
      refine ⟨G, .refl hv, hmem, fun ρ => ?_, fun _ => .refl⟩
      rw [hval, hv.world.unique hx hh hxid hsome]
    · simp only [runs_bind, runs_node, runs_modifySolver, runs_pure] at hr
      obtain ⟨_, _, ⟨rfl, rfl⟩, _, _, rfl, rfl, rfl⟩ := hr
      obtain ⟨g₁, e₁⟩ := step_enter hv (h := .node ⟨s.nextHandle⟩ .not [h]) rfl (by
        intro id f args heq a ha
        cases heq
        obtain rfl := List.mem_singleton.mp ha
        exact hh)
      have ht := g₁.valid.tables
      have hvalid : semantics.Valid (insert (.node ⟨s.nextHandle⟩ .not [h]) G) { s with
          nextHandle := s.nextHandle + 1
          solver.negations := (id, .node ⟨s.nextHandle⟩ .not [h]) :: s.solver.negations } :=
        ⟨g₁.valid.world, {
          calls := ht.calls
          bounds_fresh := ht.bounds_fresh
          bounds := ht.bounds
          literals_fresh := ht.literals_fresh
          literals := ht.literals
          negations := fun hn => by
            rcases List.mem_cons.mp hn with heq | hn
            · cases heq
              exact ⟨.inl rfl, h, .inr hh, hsome, fun ρ => by simp⟩
            · exact ht.negations hn }⟩
      obtain ⟨g₂, e₂⟩ := step_of_calls (s := { s with nextHandle := s.nextHandle + 1 }) subset_rfl
        hvalid le_rfl rfl rfl rfl rfl (fun hc => hc) fun _ he => he
      refine ⟨_, g₁.trans g₂, .inl rfl, fun ρ => by simp, fun D => ?_⟩
      exact (e₁ D).trans g₁.toGrows g₂.toGrows (e₂ fun _ => True) (fun _ _ h => h)
        fun _ _ _ _ _ _ => trivial

/-! ### New variables with determined values -/

/-- A new variable whose value is determined by what is posted next. -/
theorem computes_new (args : List Expr) (make : CpSatM α Expr) {post : Expr → CpSatM α Unit}
    {P : ℤ → Prop} {Q R : (HandleId → ℤ) → ℤ → Prop} {D : (HandleId → ℤ) → Prop}
    (f : (HandleId → ℤ) → ℤ)
    (hmake : ∀ ⦃G s h s'⦄, semantics.Valid G s → (∀ a ∈ args, semantics.Usable G s a) →
      make.Runs s h s' → ∃ G', semantics.Step G s G' s' ∧ semantics.Usable G' s' h ∧
        h.number? = none ∧ (∀ ρ, semantics.Admits ρ s' → P (value ρ h)) ∧
        ∀ ρ, s'.solver.cut = false → semantics.Admits ρ s → D ρ → ∃ ρ', Agree s.nextHandle ρ ρ' ∧
          semantics.Admits ρ' s' ∧ value ρ' h = f ρ)
    (hpost : ∀ h, h.number? = none → semantics.Imposes (post h) (h :: args)
      (fun ρ => Q ρ (value ρ h)) fun ρ => value ρ h = f ρ ∧ D ρ)
    (hR : ∀ ρ n, P n → Q ρ n → R ρ n)
    (hf : ∀ ⦃G n ρ ρ'⦄, World G n → (∀ a ∈ args, a ∈ G) → Agree n ρ ρ' →
      f ρ = f ρ' ∧ (D ρ → D ρ')) :
    semantics.Computes (do let h ← make; post h; return h) args R D := by
  intro G s h s' hv hargs hr
  simp only [runs_bind, runs_pure] at hr
  obtain ⟨h, s₁, hmake', _, s₂, hpost', rfl, rfl⟩ := hr
  obtain ⟨G₁, g₁, u₁, hnum, b₁, e₁⟩ := hmake hv hargs hmake'
  have hargs₁ : ∀ a ∈ h :: args, semantics.Usable G₁ s₁ a := by
    intro a ha
    rcases List.mem_cons.mp ha with rfl | ha
    · exact u₁
    · exact (hargs a ha).mono g₁.toGrows
  obtain ⟨G₂, g₂, b₂, e₂⟩ := hpost h hnum g₁.valid hargs₁ hpost'
  refine ⟨G₂, g₁.trans g₂, u₁.mono g₂.toGrows, fun ρ hρ => ?_, fun ρ hcalm hρ hD => ?_⟩
  · exact hR ρ _ (b₁ ρ (g₂.admits ρ hρ)) (b₂ ρ hρ)
  · obtain ⟨ρ₁, ha₁, hρ₁, hvalue⟩ := e₁ ρ (g₂.calm hcalm) hρ hD
    obtain ⟨hf₁, hD₁⟩ := hf hv.world (fun a ha => (hargs a ha).mem) ha₁
    obtain ⟨ρ₂, ha₂, hρ₂⟩ := e₂ ρ₁ hcalm hρ₁ ⟨hvalue.trans hf₁, hD₁ hD⟩
    exact ⟨ρ₂, ha₁.trans g₁.next_le ha₂, hρ₂⟩

/-- A new integer in an interval that holds the value it gets wherever the point has the property
`D`. -/
theorem computes_newInteger_where (args : List Expr) (hint : String) (b : Solver → Bounds)
    (post : Expr → CpSatM α Unit) {R : (HandleId → ℤ) → ℤ → Prop} {D : (HandleId → ℤ) → Prop}
    (f : (HandleId → ℤ) → ℤ)
    (hb : ∀ ⦃G s ρ⦄, semantics.Valid G s → (∀ a ∈ args, semantics.Usable G s a) →
      s.solver.cut = false → Admitted ρ s → D ρ → (b s.solver).Contains (f ρ))
    (hpost : ∀ h, semantics.Imposes (post h) (h :: args) (fun ρ => R ρ (value ρ h))
      fun ρ => value ρ h = f ρ ∧ D ρ)
    (hf : ∀ ⦃G n ρ ρ'⦄, World G n → (∀ a ∈ args, a ∈ G) → Agree n ρ ρ' →
      f ρ = f ρ' ∧ (D ρ → D ρ')) :
    semantics.Computes (do
      let t ← getSolver
      let h ← newInteger (b t) hint
      post h
      return h) args R D := by
  have hmake : semantics.Computes (do
      let h ← (do let t ← getSolver; newInteger (b t) hint : CpSatM α Expr)
      post h
      return h) args R D := by
    refine computes_new args _ (P := fun _ => True) f ?_ (fun h _ => hpost h) (fun _ _ _ h => h) hf
    intro G s h s' hv hargs hr
    simp only [runs_bind, runs_getSolver] at hr
    obtain ⟨_, s, ⟨rfl, rfl⟩, hr⟩ := hr
    obtain ⟨G₁, g₁, u₁, hnum, -, e₁⟩ := newInteger_spec hv hr
    exact ⟨G₁, g₁, u₁, hnum, fun _ _ => trivial, fun ρ hcalm hρ hD =>
      e₁ (f ρ) (hb hv hargs (g₁.calm hcalm) hρ hD) ρ hcalm hρ⟩
  intro G s h s' hv hargs hr
  refine hmake hv hargs ?_
  simpa only [bind_assoc] using hr

/-- A new integer in an interval that holds the value it gets. -/
theorem computes_newInteger (args : List Expr) (hint : String) (b : Solver → Bounds)
    (post : Expr → CpSatM α Unit) {R : (HandleId → ℤ) → ℤ → Prop} (f : (HandleId → ℤ) → ℤ)
    (hb : ∀ ⦃G s ρ⦄, semantics.Valid G s → (∀ a ∈ args, semantics.Usable G s a) →
      s.solver.cut = false → Admitted ρ s → (b s.solver).Contains (f ρ))
    (hpost : ∀ h, semantics.Imposes (post h) (h :: args) (fun ρ => R ρ (value ρ h))
      fun ρ => value ρ h = f ρ)
    (hf : ∀ ⦃G n ρ ρ'⦄, World G n → (∀ a ∈ args, a ∈ G) → Agree n ρ ρ' → f ρ = f ρ') :
    semantics.Computes (do
      let t ← getSolver
      let h ← newInteger (b t) hint
      post h
      return h) args R fun _ => True :=
  computes_newInteger_where args hint b post f (fun _ _ _ hv ha hc hρ _ => hb hv ha hc hρ)
    (fun h => (hpost h).mono (fun _ h => h) fun _ h => h.1)
    fun _ _ _ _ hw ha hagree => ⟨hf hw ha hagree, fun h => h⟩

/-- Constraints posted one after the other. -/
theorem Posts.append {m₁ m₂ : CpSatM α Unit} {R₁ R₂ D₁ D₂ : (HandleId → ℤ) → Prop}
    (h₁ : semantics.Posts m₁ args R₁ D₁) (h₂ : semantics.Posts m₂ args R₂ D₂)
    (hD : ∀ ⦃G n ρ ρ'⦄, World G n → (∀ a ∈ args, a ∈ G) → Agree n ρ ρ' → D₂ ρ → D₂ ρ') :
    semantics.Posts (do m₁; m₂) args (fun ρ => R₁ ρ ∧ R₂ ρ) fun ρ => D₁ ρ ∧ D₂ ρ := by
  intro G s s' hv hargs hr
  obtain ⟨_, s₁, hr₁, hr₂⟩ := runs_bind.mp hr
  obtain ⟨G₁, g₁, b₁, e₁⟩ := h₁ hv hargs hr₁
  obtain ⟨G₂, g₂, b₂, e₂⟩ := h₂ g₁.valid (fun a ha => (hargs a ha).mono g₁.toGrows) hr₂
  refine ⟨G₂, g₁.trans g₂, fun ρ hρ => ⟨b₁ ρ (g₂.admits ρ hρ), b₂ ρ hρ⟩, ?_⟩
  exact e₁.trans g₁.toGrows g₂.toGrows e₂ (fun _ _ h => h.1) fun _ _ _ h ha _ =>
    hD hv.world (fun a ha => (hargs a ha).mem) ha h.2

/-- A constraint that stands where the negation of a literal is true. -/
theorem posts_unless {l : Expr} {c : Constraint} (hl : l ∈ args) (hnum : l.number? = none)
    (hc : ∀ x ∈ c.handles, x ∈ args) :
    semantics.Posts (α := α) (do requireIf (← negation l) c) args
      (fun ρ => value ρ l = 0 → c.Holds ρ) fun ρ => value ρ l = 0 → c.Holds ρ := by
  intro G s s' hv hargs hr
  obtain ⟨k, s₁, hneg, hreq⟩ := runs_bind.mp hr
  obtain ⟨G₁, g₁, hk, hval, e₁⟩ := negation_spec hv (hargs l hl).mem hnum hneg
  have hargs₁ : ∀ a ∈ k :: args, semantics.Held G₁ s₁ a := by
    intro a ha
    rcases List.mem_cons.mp ha with rfl | ha
    · exact held_iff.mpr hk
    · exact (hargs a ha).mono g₁.toGrows
  obtain ⟨G₂, g₂, b₂, e₂⟩ := posts_requireIf (α := α) (List.mem_cons_self ..)
    (fun x hx => List.mem_cons_of_mem _ (hc x hx)) g₁.valid hargs₁ hreq
  have hone : ∀ ρ, value ρ k = 1 ↔ value ρ l = 0 := fun ρ => by rw [hval]; omega
  refine ⟨G₂, g₁.trans g₂, fun ρ hρ h0 => b₂ ρ hρ ((hone ρ).mpr h0), ?_⟩
  refine (e₁ _).trans g₁.toGrows g₂.toGrows e₂ (fun _ _ h => h) fun ρ ρ₁ _ hD ha _ h1 => ?_
  have hlit : value ρ l = value ρ₁ l := value_congr hv.world (hargs l hl).mem ha
  exact Constraint.holds_congr (fun x hx => value_congr hv.world (hargs x (hc x hx)).mem ha)
    (hD (hlit.trans ((hone ρ₁).mp h1)))

end DecisionModel.CpSat
