import DecisionModel.Proofs.Tolerant.Membership
import DecisionModel.Proofs.Tolerant.Selection

/-!
# Algebraic solvers as faithful back-ends

On integers the ranges posted for a comparison amount to the comparison, and a term that has to be
true has to reach one (`posts_comparison`, `posts_true`). With the encodings this makes the back-end
over documented primitives faithful (`faithful`), so that the theory of the walk applies to it.
-/

namespace DecisionModel.Tolerant

open LowerM Backend

variable {σ : Type} {P : Primitives Exact σ} {G : Set Expr} {s s' : TolerantState σ}
  {h δ x y : Expr} {args : List Expr} {W : (HandleId → ℚ) → Prop} {ρ ρ' : HandleId → ℚ} {ε : ℚ}

theorem tables_congr (h : s.SameSolver s') (ht : Tables G s) : Tables G s' := by
  have hsolver := h.solver_eq
  refine ht.mono subset_rfl (fun ρ hρ => ⟨hsolver ▸ hρ.1, h.violated hρ.2⟩) ?_ (fun c hc => .inl ?_)
    (fun r hr => .inl ?_) (fun id hid => .inl ?_) fun e he => .inl ?_
  · rw [hsolver]
  · rwa [hsolver] at hc
  · rwa [hsolver] at hr
  · rwa [hsolver] at hid
  · rwa [hsolver] at he

/-! ### Posting -/

/-- A magnitude that has to reach the second threshold has to be positive. -/
theorem constrained_above {e : Number Exact} (hε : IsTolerance e ε) {n : ℤ}
    (hn : value ρ h = .finite n) : Constrained ε h (.finite (11 / 10 * ε)) .posInf ρ ↔ 0 < n := by
  unfold Constrained
  split
  · rw [hn, ← hε.threshold_le_iff]
    simp [Between, Exact.le, Exact.lt, Exact.eq, le_iff_lt_or_eq]
  · rename_i x hx
    obtain rfl := Handle.eq_const hx
    rw [value_const] at hn
    have hpos := hε.pos
    have hone := hε.le_one
    rw [hn, Between, Exact.finite_sub, Exact.finite_le, decide_eq_true_iff]
    refine ⟨fun hb => ?_, fun h => ⟨?_, rfl⟩⟩
    · have hlo := hb.1
      have hlt : (0 : ℚ) < n := by linarith
      exact_mod_cast hlt
    · have hge : (1 : ℚ) ≤ n := by exact_mod_cast h
      linarith

/-- What a comparison requires of the difference of the two sides. -/
theorem amounts_difference (hP : Documented P) (k : Comparison) {e : Number Exact}
    (hε : IsTolerance e ε) (hδ : δ.number? = none) :
    Amounts (match k with
      | .le => constrain P δ noLower e
      | .lt => do constrain P δ noLower (← negatedThreshold)
      | .ge => constrain P δ e.neg noUpper
      | .gt => do constrain P δ (← threshold) noUpper
      | .eq => constrain P δ e.neg e
      | .ne => do constrain P (← P.absolute δ) (← threshold) noUpper) [δ]
      (fun ρ => (semantics σ).Integral ρ δ) fun ρ => k.Relates ((semantics σ).int ρ δ) 0 := by
  have hrange : ∀ {lower upper : Number Exact} {R : (HandleId → ℚ) → Prop},
      (∀ ρ, (semantics σ).Integral ρ δ → (Between lower.exact upper.exact
        (.finite ((semantics σ).int ρ δ : ℤ)) ↔ R ρ)) →
      Amounts (constrain P δ lower upper) [δ] (fun ρ => (semantics σ).Integral ρ δ) R :=
    fun hR => (amounts_constrain hP hδ (by simp) _ _).mono (fun _ h => .inl h) (fun _ h => h)
      fun ρ hρ => by rw [value_eq hρ, hR ρ hρ]
  cases k with
  | le =>
    refine hrange fun ρ _ => ?_
    rw [hε.exact_eq]
    simpa [Between, noLower, Exact.le, Exact.lt, Exact.eq, le_iff_lt_or_eq, Comparison.Relates]
      using hε.le_iff ((semantics σ).int ρ δ)
  | lt =>
    intro G s s' hv hmem hr
    dsimp only at hr
    obtain ⟨ε', hε'⟩ := hv.tables.tolerance
    obtain ⟨c, _, hbelow, hconstrain⟩ := runs_bind.mp hr
    obtain ⟨rfl, hc⟩ := runs_negatedThreshold hε'.exact_eq hbelow
    refine hrange (fun ρ _ => ?_) hv hmem hconstrain
    rw [hc]
    simpa [Between, noLower, Exact.le, Exact.lt, Exact.eq, le_iff_lt_or_eq, Comparison.Relates]
      using hε'.le_neg_iff ((semantics σ).int ρ δ)
  | ge =>
    refine hrange fun ρ _ => ?_
    rw [exact_neg, hε.exact_eq]
    have h := hε.neg_le_iff ((semantics σ).int ρ δ)
    rw [neg_le] at h
    simpa [Between, noUpper, Exact.le, Exact.lt, Exact.eq, le_iff_lt_or_eq, Comparison.Relates]
      using h
  | gt =>
    intro G s s' hv hmem hr
    dsimp only at hr
    obtain ⟨ε', hε'⟩ := hv.tables.tolerance
    obtain ⟨c, _, habove, hconstrain⟩ := runs_bind.mp hr
    obtain ⟨rfl, hc⟩ := runs_threshold hε'.exact_eq habove
    refine hrange (fun ρ _ => ?_) hv hmem hconstrain
    rw [hc]
    simpa [Between, noUpper, Exact.le, Exact.lt, Exact.eq, le_iff_lt_or_eq, Comparison.Relates]
      using hε'.threshold_le_iff ((semantics σ).int ρ δ)
  | eq =>
    refine hrange fun ρ _ => ?_
    rw [exact_neg, hε.exact_eq]
    have h := hε.neg_le_iff ((semantics σ).int ρ δ)
    rw [neg_le] at h
    simp only [Between, Exact.finite_neg, Exact.finite_le, decide_eq_true_iff, h, hε.le_iff,
      Comparison.Relates]
    omega
  | ne =>
    intro G s s' hv hmem hr
    dsimp only at hr
    obtain ⟨m, s₁, habsolute, hr⟩ := runs_bind.mp hr
    obtain ⟨G₁, hs, hm, hvalue⟩ := hP.absolute hv.world (hmem δ (by simp)) habsolute
    have g₁ := hs.settles hv
    obtain ⟨ε', hε'⟩ := g₁.valid.tables.tolerance
    obtain ⟨c, _, habove, hconstrain⟩ := runs_bind.mp hr
    obtain ⟨rfl, hc⟩ := runs_threshold hε'.exact_eq habove
    obtain ⟨G₂, g₂⟩ := constrain_settles hP g₁.valid hm hε' hconstrain
    refine ⟨G₂, _, g₁.after g₂, fun ρ hρ => ?_⟩
    have hmvalue : value ρ m = .finite (|(semantics σ).int ρ δ| : ℤ) := by
      rw [hvalue ρ _ (value_eq hρ), Int.cast_abs]
    rw [hc]
    exact (constrained_above hε' hmvalue).trans abs_pos

theorem posts_comparison (hP : Documented P) (k : Comparison) (x y : Expr)
    (hterm : x.number? = none ∨ y.number? = none) :
    (semantics σ).Posts (postComparison P k x y) [x, y]
      (fun ρ => k.Relates ((semantics σ).int ρ x) ((semantics σ).int ρ y))
      fun ρ => k.Relates ((semantics σ).int ρ x) ((semantics σ).int ρ y) := by
  refine Amounts.posts fun G s s' hv hmem hr => ?_
  obtain ⟨ε, hε⟩ := hv.tables.tolerance
  obtain ⟨e, _, heps, hr⟩ := runs_bind.mp hr
  obtain ⟨rfl, rfl⟩ := runs_epsilon.mp heps
  refine Amounts.bind_sub (by simp) (by simp) (fun δ hδ => (amounts_difference hP k hε (hδ hterm)).mono
    (by simp) ?_ ?_) hv hmem hr
  · rintro ρ ⟨hρ, hδvalue⟩
    rw [value_eq (hρ x (by simp)), value_eq (hρ y (by simp)), Exact.finite_sub,
      ← Int.cast_sub] at hδvalue
    exact ⟨_, hδvalue⟩
  · rintro ρ ⟨hρ, hδvalue⟩
    rw [value_eq (hρ x (by simp)), value_eq (hρ y (by simp)), Exact.finite_sub,
      ← Int.cast_sub] at hδvalue
    rw [int_eq hδvalue, relates_sub]

/-- A term that has to be true has to reach one. -/
theorem amounts_true (hP : Documented P) (hx : x.number? = none) : Amounts (postTrue P x) [x]
    (fun ρ => ∀ a ∈ [x], (semantics σ).Integral ρ a) fun ρ => 1 ≤ (semantics σ).int ρ x := by
  intro G s s' hv hmem hr
  obtain ⟨ε, hε⟩ := hv.tables.tolerance
  obtain ⟨e, _, heps, hr⟩ := runs_bind.mp hr
  obtain ⟨rfl, rfl⟩ := runs_epsilon.mp heps
  refine ((amounts_constrain (W := fun _ => True) hP hx (by simp) _ _).mono (fun _ h => .inl h)
    (fun _ _ => trivial) fun ρ hρ => ?_) hv hmem hr
  have h := hε.le_iff (1 - (semantics σ).int ρ x)
  rw [Int.cast_sub, sub_le_comm, Int.cast_one, sub_nonpos] at h
  rw [value_eq (hρ x (by simp)), exact_sub, hε.exact_eq]
  simpa [Between, realOne, noUpper, Exact.le, Exact.lt, Exact.eq, le_iff_lt_or_eq] using h

/-- The variable of the objective takes the value of the objective. -/
theorem posts_objective (hP : Documented P) (sense : Sense) (x : Expr) :
    (semantics σ).Posts (postObjective P sense x) [x] (fun _ => True) fun _ => True := by
  intro G s s' hv hargs hr
  obtain ⟨o, s₁, hcreate, hr⟩ := runs_bind.mp hr
  obtain ⟨d, s₂, hsub, hr⟩ := runs_bind.mp hr
  obtain ⟨_, s₃, hconstrain, hr⟩ := runs_bind.mp hr
  obtain ⟨_, s₄, hnote, hset⟩ := runs_bind.mp hr
  obtain ⟨G₁, g₁, ho, hnew⟩ := createVariable_spec hP hv hcreate
  have hxmem := (hargs x (by simp)).mem
  obtain ⟨G₃, C, g₃, hC⟩ := amounts_equal hP o x g₁.valid (by simpa using ⟨ho, g₁.subset hxmem⟩)
    (runs_bind.mpr ⟨d, s₂, hsub, hconstrain⟩)
  obtain rfl := runs_modifySolver.mp hnote
  have g₄ : Settles G₃ s₃ G₃ { s₃ with solver.objective := some o } fun _ => True :=
    settles_same g₃.valid subset_rfl g₃.valid.world le_rfl rfl rfl rfl rfl rfl rfl
      (fun _ hid => .inl hid) fun _ he => .inl he
  obtain ⟨G₅, hs⟩ := hP.setObjective g₄.valid.world (g₃.subset ho) hset
  have g₅ := g₃.before (g₄.before (hs.settles g₄.valid))
  refine ⟨G₅, g₁.trans g₅.toStep, fun _ _ => trivial, fun ρ hcalm hρ _ => ?_⟩
  have hxvalue := value_eq ((hargs x (by simp)).integral ρ hρ)
  obtain ⟨ρ', ha, hρ', hovalue⟩ := hnew.takes ρ ((semantics σ).int ρ x : ℤ) hρ trivial ⟨rfl, rfl⟩
  rw [value_congr hv.world hxmem ha] at hxvalue
  refine ⟨ρ', ha, (g₅.admitted_iff ρ').mpr ⟨hρ', (hC ρ' ⟨⟨_, hovalue⟩, _, hxvalue⟩).mpr ?_⟩⟩
  exact (int_eq hovalue).trans (int_eq hxvalue).symm

/-! ### The back-end -/

theorem keyedMembership_spec (hP : Documented P) {c : Context Exact} {key : Expr} {first last : ℤ}
    {v : VarId} {encode : TolerantM Exact σ Expr} (hle : first ≤ last)
    (hencode : keyedMembership? P c key (keyRange first last) v = some encode)
    (hv : (semantics σ).Valid G s) (hkey : (semantics σ).Usable G s key)
    (hvar : ∀ hv, s.handle? v = some hv → (semantics σ).Usable G s hv ∧ ∀ ρ, Admitted ρ s →
      ∀ d, c.workspace.findVariable v = some d → d.Within ((semantics σ).int ρ hv))
    (hr : encode.Runs s h s') : ∃ hv, s.handle? v = some hv ∧ ∃ G', (semantics σ).Step G s G' s' ∧
      (semantics σ).Usable G' s' h ∧
      (∀ ρ, Admitted ρ s' → first ≤ (semantics σ).int ρ key ∧ (semantics σ).int ρ key ≤ last ∧
        ∃ xs, Reader.CollectionAt c.workspace c.model ((semantics σ).int ρ key) xs ∧
          (semantics σ).int ρ h = indicator (∃ x ∈ xs, x = .finite ((semantics σ).int ρ hv : ℤ))) ∧
      (semantics σ).Extends s s' fun ρ => first ≤ (semantics σ).int ρ key ∧
        (semantics σ).int ρ key ≤ last := by
  unfold keyedMembership? at hencode
  split at hencode
  · cases hencode
  · rename_i d hd
    split at hencode
    · cases hencode
    · split at hencode
      · rename_i low high hlow hhigh
        obtain rfl := Option.some.inj hencode
        refine tabulatedMembership_spec hP hle hv hkey (fun hv hhandle => ?_) hr
        obtain ⟨u, hwithin⟩ := hvar hv hhandle
        refine ⟨u, fun ρ hρ => ?_⟩
        obtain ⟨hlo, hhi⟩ := hwithin ρ hρ d hd
        exact ⟨(Exact.ceil_le_iff hlow).mpr hlo, (Exact.le_floor_iff hhigh).mpr hhi⟩
      · cases hencode

theorem faithful (hP : Documented P) (c : Context Exact) : Faithful (backend P) (semantics σ) c where
  int_congr hw hh ha := congrArg intOf (value_congr hw hh ha)
  satisfies_congr hv ha hs := satisfied_congr hv ha hs
  tables_congr := tables_congr
  const_noted _ _ := trivial
  isZero_eq {ρ x} hi := by
    have hx := value_eq hi
    rw [value_const] at hx
    rw [Bool.eq_iff_iff, decide_eq_true_iff]
    exact isZero_iff.trans (by rw [hx, Exact.finite.injEq, Int.cast_eq_zero])
  holds_eq k := holds_integral k
  round_eq {ρ x} hi := by
    have hx := value_eq hi
    rw [value_const] at hx
    show x.exact.round = _
    rw [hx, Exact.round_int]
  isNumber_ofInt n := isNumber_const rfl
  isNumber_const {ρ x} hi := isNumber_const (by simpa using value_eq hi)
  derives_add := derives_add
  derives_sub := derives_sub
  derives_mul := derives_mul_int
  constant {s s' x h} hx hr := by
    obtain ⟨rfl, rfl⟩ := runs_pure.mp hr
    obtain ⟨n, rfl⟩ := hx trivial
    exact ⟨rfl, n, rfl, isNumber_const rfl⟩
  constant? {s s' n o} hr := by
    obtain ⟨rfl, rfl⟩ := runs_pure.mp hr
    exact ⟨rfl, _, rfl, isNumber_const rfl⟩
  negate x := computes_of_derives (derives_neg x)
  add x y := computes_of_derives (derives_add x y)
  subtract x y := computes_of_derives (derives_sub x y)
  multiply x y := computes_of_derives (derives_mul x y)
  divide _ _ h := absurd trivial h
  power x y hy := computes_power hP x y (hy trivial)
  absolute := computes_absolute hP
  minimum := computes_extremum hP .least
  maximum := computes_extremum hP .greatest
  reify := computes_reify hP
  complement := computes_complement hP
  conjoin := computes_conjoin hP
  disjoin := computes_disjoin hP
  conditional := computes_conditional hP
  firstMatch := computes_firstMatch hP
  membership := computes_membership hP
  lookup := computes_lookup hP
  keyedMembership := keyedMembership_spec hP
  createVariable hreal hv hr := createVariable_fits hP (hreal trivial) hv hr
  createSequence hv hr := by
    obtain ⟨hlen, G', g, u, hwithin, hreach⟩ := createSequence_spec hP hv hr
    exact ⟨hlen, G', g, u, hwithin, fun ns hns ρ _ hρ => hreach ns hns ρ hρ⟩
  newInteger := newInteger_reaches hP
  postEqual := posts_equal hP
  postComparison := posts_comparison hP
  postTrue _ hx := (amounts_true hP hx).posts
  postDefinition _ := posts_equal hP
  postObjective := posts_objective hP
  accepts h := (Int.lt_of_lt_of_le Int.zero_lt_one h).ne'
  fits_member _ h := h

end DecisionModel.Tolerant
