import DecisionModel.Proofs.Tolerant.Meaning

/-!
# Steps of tolerant lowering

Most of what lowering does makes no variable: terms are made, ranges are posted, notes are taken. Of
such a run `Settles` says what the points that are admitted afterwards have to satisfy in addition.
A new variable can take any value of its kind within its bounds (`createVariable_spec`).
-/

namespace DecisionModel.Tolerant

open LowerM

variable {σ : Type} {P : Primitives Exact σ} {G G' G₁ G₂ : Set Expr} {s s' s₁ s₂ : TolerantState σ}
  {h k x y b : Expr} {C C₁ C₂ : (HandleId → ℚ) → Prop} {ρ ρ' : HandleId → ℚ} {ε : ℚ}

/-! ### Numbers -/

@[simp] theorem exact_real (x : Exact) : (Number.real x).exact = x := rfl

@[simp] theorem exact_int (n : ℤ) : (Number.int n : Number Exact).exact = .finite n := rfl

theorem toScalar_eq (x : Number Exact) : x.toScalar = x.exact := by
  cases x with
  | truth b => exact Scalar.ofBool_exact b
  | _ => rfl

theorem exact_of_integer? {x : Number Exact} {n : ℤ} (h : x.integer? = some n) :
    x.exact = .finite n := by
  cases x with
  | int m =>
    obtain rfl : m = n := by simpa [Number.integer?] using h
    rfl
  | real x => cases h
  | truth b =>
    obtain rfl : (if b then 1 else 0) = n := by simpa [Number.integer?] using h
    cases b <;> simp [Number.exact]

theorem exact_combine {f : ℤ → ℤ → ℤ} {g : Exact → Exact → Exact}
    (hfg : ∀ m n : ℤ, g (.finite m) (.finite n) = .finite (f m n)) (x y : Number Exact) :
    (Number.combine f g x y).exact = g x.exact y.exact := by
  unfold Number.combine
  split
  · rename_i m n hm hn
    rw [exact_of_integer? hm, exact_of_integer? hn, hfg]
    rfl
  · rw [exact_real, toScalar_eq, toScalar_eq]

@[simp] theorem exact_add (x y : Number Exact) : (x.add y).exact = x.exact.add y.exact :=
  exact_combine (fun m n => by simp) x y

@[simp] theorem exact_sub (x y : Number Exact) : (x.sub y).exact = x.exact.sub y.exact :=
  exact_combine (fun m n => by simp) x y

@[simp] theorem exact_mul (x y : Number Exact) : (x.mul y).exact = x.exact.mul y.exact :=
  exact_combine (fun m n => by simp) x y

@[simp] theorem exact_neg (x : Number Exact) : x.neg.exact = x.exact.neg := by
  unfold Number.neg Number.transform
  split
  · rename_i n hn
    simp [exact_of_integer? hn]
  · rw [exact_real, toScalar_eq]
    rfl

theorem isZero_iff {x : Number Exact} : x.isZero = true ↔ x.exact = .finite 0 := by
  unfold Number.isZero
  cases x.exact <;> simp [Exact.eq]

/-! ### Runs that make no variable -/

/-- A run that makes no variable: the points admitted after it are those admitted before it that
satisfy `C`. -/
structure Settles (G : Set Expr) (s : TolerantState σ) (G' : Set Expr) (s' : TolerantState σ)
    (C : (HandleId → ℚ) → Prop) : Prop extends (semantics σ).Step G s G' s' where
  admitted_iff (ρ : HandleId → ℚ) : Admitted ρ s' ↔ Admitted ρ s ∧ C ρ

theorem Settles.refl (hv : (semantics σ).Valid G s) : Settles G s G s fun _ => True where
  toStep := .refl hv
  admitted_iff _ := by simp

theorem Settles.trans (h₁ : Settles G s G₁ s₁ C₁) (h₂ : Settles G₁ s₁ G₂ s₂ C₂) :
    Settles G s G₂ s₂ fun ρ => C₁ ρ ∧ C₂ ρ where
  toStep := h₁.toStep.trans h₂.toStep
  admitted_iff ρ := by rw [h₂.admitted_iff, h₁.admitted_iff, and_assoc]

theorem Settles.congr (h : Settles G s G' s' C₁) (hC : ∀ ρ, C₁ ρ ↔ C₂ ρ) : Settles G s G' s' C₂ where
  toStep := h.toStep
  admitted_iff ρ := by rw [h.admitted_iff, hC]

/-- Terms are made before something is settled. -/
theorem Settles.after (h₁ : Settles G s G₁ s₁ fun _ => True) (h₂ : Settles G₁ s₁ G₂ s₂ C) :
    Settles G s G₂ s₂ C := (h₁.trans h₂).congr fun _ => by simp

theorem Settles.before (h₁ : Settles G s G₁ s₁ C) (h₂ : Settles G₁ s₁ G₂ s₂ fun _ => True) :
    Settles G s G₂ s₂ C := (h₁.trans h₂).congr fun _ => by simp

/-- A point that satisfies what is settled is itself admitted afterwards. -/
theorem Settles.extends_ (h : Settles G s G' s' C) : (semantics σ).Extends s s' C :=
  fun ρ _ hρ hC => ⟨ρ, Agree.refl _ ρ, (h.admitted_iff ρ).mpr ⟨hρ, hC⟩⟩

theorem Settles.holds (h : Settles G s G' s' C) (hρ : Admitted ρ s') : C ρ :=
  ((h.admitted_iff ρ).mp hρ).2

/-- Facts about handles in circulation stay as they are while fewer points are admitted. -/
theorem Tables.mono (ht : Tables G s) (hG : G ⊆ G') (hadmitted : ∀ ρ, Admitted ρ s' → Admitted ρ s)
    (hepsilon : s'.solver.epsilon = s.solver.epsilon)
    (hcreated : ∀ c ∈ s'.solver.created.toList, c ∈ s.solver.created.toList ∨ c.handle ∈ G')
    (hposted : ∀ r ∈ s'.solver.posted.toList, r ∈ s.solver.posted.toList ∨ r.expression ∈ G')
    (hbinaries : ∀ id ∈ s'.solver.binaries, id ∈ s.solver.binaries ∨ ∃ h ∈ G', h.id? = some id ∧
      ∀ ρ, Admitted ρ s' → IsBinary (value ρ h))
    (hbooleans : ∀ e ∈ s'.solver.booleans, e ∈ s.solver.booleans ∨ e.2 ∈ G' ∧
      ∃ h ∈ G', h.id? = some e.1 ∧ ∀ ρ, Admitted ρ s' → IsBinary (value ρ e.2) ∧
        (value ρ e.2 = .finite 0 ↔ value ρ h = .finite 0)) : Tables G' s' where
  tolerance := hepsilon ▸ ht.tolerance
  created hc := (hcreated _ hc).elim (fun hc => hG (ht.created hc)) id
  posted hr := (hposted _ hr).elim (fun hr => hG (ht.posted hr)) id
  binaries hid := by
    rcases hbinaries _ hid with hid | hid
    · obtain ⟨h, hh, heq, hbinary⟩ := ht.binaries hid
      exact ⟨h, hG hh, heq, fun ρ hρ => hbinary ρ (hadmitted ρ hρ)⟩
    · exact hid
  booleans he := by
    rcases hbooleans _ he with he | he
    · obtain ⟨hb, h, hh, heq, htruth⟩ := ht.booleans he
      exact ⟨hG hb, h, hG hh, heq, fun ρ hρ => htruth ρ (hadmitted ρ hρ)⟩
    · exact he

/-- A change of the state after which the same variables and ranges stand. -/
theorem settles_same (hv : (semantics σ).Valid G s) (hG : G ⊆ G') (hw : World G' s'.nextHandle)
    (hnext : s.nextHandle ≤ s'.nextHandle) (hhandles : s'.handles = s.handles)
    (hmemo : s'.memo = s.memo) (hviolated : s'.violated = s.violated)
    (hepsilon : s'.solver.epsilon = s.solver.epsilon)
    (hcreated : s'.solver.created = s.solver.created) (hposted : s'.solver.posted = s.solver.posted)
    (hbinaries : ∀ id ∈ s'.solver.binaries, id ∈ s.solver.binaries ∨ ∃ h ∈ G', h.id? = some id ∧
      ∀ ρ, Admitted ρ s → IsBinary (value ρ h))
    (hbooleans : ∀ e ∈ s'.solver.booleans, e ∈ s.solver.booleans ∨ e.2 ∈ G' ∧
      ∃ h ∈ G', h.id? = some e.1 ∧ ∀ ρ, Admitted ρ s → IsBinary (value ρ e.2) ∧
        (value ρ e.2 = .finite 0 ↔ value ρ h = .finite 0)) :
    Settles G s G' s' fun _ => True := by
  have hadmitted : ∀ ρ, Admitted ρ s' ↔ Admitted ρ s := fun ρ => by
    refine and_congr ⟨fun h => ⟨?_, ?_⟩, fun h => ⟨?_, ?_⟩⟩ (by rw [hviolated])
    · exact hcreated ▸ h.created
    · exact hposted ▸ h.posted
    · exact hcreated.symm ▸ h.created
    · exact hposted.symm ▸ h.posted
  refine ⟨⟨⟨hG, ⟨hw, hv.tables.mono hG (fun ρ => (hadmitted ρ).mp) hepsilon ?_ ?_ ?_ ?_⟩, hnext,
    hhandles, fun ρ => (hadmitted ρ).mp, fun _ => trivial, fun _ _ => trivial⟩, hmemo⟩,
    fun ρ => by simp [hadmitted]⟩
  · exact fun c hc => .inl (hcreated ▸ hc)
  · exact fun r hr => .inl (hposted ▸ hr)
  · refine fun id hid => (hbinaries id hid).imp_right ?_
    rintro ⟨h, hh, heq, hb⟩
    exact ⟨h, hh, heq, fun ρ hρ => hb ρ ((hadmitted ρ).mp hρ)⟩
  · refine fun e he => (hbooleans e he).imp_right ?_
    rintro ⟨hb, h, hh, heq, ht⟩
    exact ⟨hb, h, hh, heq, fun ρ hρ => ht ρ ((hadmitted ρ).mp hρ)⟩

/-- What a primitive does to the solver's own part settles nothing. -/
theorem Silent.settles (hs : Silent G s G' s') (hv : (semantics σ).Valid G s) :
    Settles G s G' s' fun _ => True := by
  obtain ⟨own, hsame⟩ := hs.same
  refine settles_same hv hs.subset hs.world hs.next_le ?_ ?_ ?_ ?_ ?_ ?_ ?_ ?_
  all_goals rw [hsame]
  · exact fun _ hid => .inl hid
  · exact fun _ he => .inl he

theorem runs_auxiliary_settles (hv : (semantics σ).Valid G s) {hint name : String}
    (hr : (auxiliaryName hint : TolerantM Exact σ String).Runs s name s') :
    Settles G s G s' fun _ => True := by
  obtain ⟨-, rfl⟩ := runs_auxiliaryName.mp hr
  exact settles_same hv subset_rfl hv.world le_rfl rfl rfl rfl rfl rfl rfl
    (fun _ hid => .inl hid) fun _ he => .inl he

/-! ### Terms -/

theorem silent_refl (hw : World G s.nextHandle) : Silent G s G s :=
  ⟨subset_rfl, hw, le_rfl, s.solver.solver, rfl⟩

theorem Silent.trans (h₁ : Silent G s G₁ s₁) (h₂ : Silent G₁ s₁ G₂ s₂) : Silent G s G₂ s₂ where
  subset := h₁.subset.trans h₂.subset
  world := h₂.world
  next_le := h₁.next_le.trans h₂.next_le
  same := by
    obtain ⟨own₁, e₁⟩ := h₁.same
    obtain ⟨own₂, e₂⟩ := h₂.same
    refine ⟨own₂, ?_⟩
    rw [e₂, e₁]

/-- A new node over terms in circulation. -/
theorem gives_node (hw : World G s.nextHandle) {f : SolverFunction} {args : List Expr}
    (hargs : ∀ a ∈ args, a ∈ G) (hr : (node f args : TolerantM Exact σ Expr).Runs s h s') :
    Silent.Gives G s h s' fun ρ v => v = apply f (args.map (value ρ)) := by
  obtain ⟨rfl, rfl⟩ := runs_node.mp hr
  refine ⟨_, ⟨Set.subset_insert _ _, hw.insert_node f hargs, Nat.le_succ _, s.solver.solver, rfl⟩,
    .inl rfl, fun ρ => ?_⟩
  rw [value_node, values_eq_map]

/-- The value of a sum, a difference or a product, folded or not. -/
theorem value_binary {f : Number Exact → Number Exact → Number Exact} {g : Exact → Exact → Exact}
    {symbol : SolverFunction} (hfg : ∀ x y, (f x y).exact = g x.exact y.exact)
    (hsymbol : ∀ x y, apply symbol [x, y] = g x y)
    (hr : (binary f symbol x y : TolerantM Exact σ Expr).Runs s h s') (ρ : HandleId → ℚ) :
    value ρ h = g (value ρ x) (value ρ y) := by
  unfold binary at hr
  split at hr
  · obtain ⟨rfl, -⟩ := runs_pure.mp hr
    simp [hfg]
  · obtain ⟨rfl, -⟩ := runs_node.mp hr
    rw [value_node, values_eq_map]
    exact hsymbol _ _

theorem value_add (hr : (LowerM.add x y : TolerantM Exact σ Expr).Runs s h s') (ρ : HandleId → ℚ) :
    value ρ h = (value ρ x).add (value ρ y) := value_binary exact_add (fun _ _ => rfl) hr ρ

theorem value_sub (hr : (LowerM.sub x y : TolerantM Exact σ Expr).Runs s h s') (ρ : HandleId → ℚ) :
    value ρ h = (value ρ x).sub (value ρ y) := value_binary exact_sub (fun _ _ => rfl) hr ρ

theorem value_mul (hr : (LowerM.mul x y : TolerantM Exact σ Expr).Runs s h s') (ρ : HandleId → ℚ) :
    value ρ h = (value ρ x).mul (value ρ y) := value_binary exact_mul (fun _ _ => rfl) hr ρ

theorem gives_binary (hw : World G s.nextHandle) {f : Number Exact → Number Exact → Number Exact}
    {g : Exact → Exact → Exact} {symbol : SolverFunction}
    (hfg : ∀ x y, (f x y).exact = g x.exact y.exact)
    (hsymbol : ∀ x y, apply symbol [x, y] = g x y) (hx : x ∈ G) (hy : y ∈ G)
    (hr : (binary f symbol x y : TolerantM Exact σ Expr).Runs s h s') :
    Silent.Gives G s h s' fun ρ v => v = g (value ρ x) (value ρ y) := by
  have hvalue := value_binary hfg hsymbol hr
  unfold binary at hr
  split at hr
  · obtain ⟨rfl, rfl⟩ := runs_pure.mp hr
    exact ⟨G, silent_refl hw, hw.const_mem _, hvalue⟩
  · obtain ⟨G', hs, hh, -⟩ := gives_node hw (by simpa using ⟨hx, hy⟩) hr
    exact ⟨G', hs, hh, hvalue⟩

theorem gives_add (hw : World G s.nextHandle) (hx : x ∈ G) (hy : y ∈ G)
    (hr : (LowerM.add x y : TolerantM Exact σ Expr).Runs s h s') :
    Silent.Gives G s h s' fun ρ v => v = (value ρ x).add (value ρ y) :=
  gives_binary hw exact_add (fun _ _ => rfl) hx hy hr

theorem gives_sub (hw : World G s.nextHandle) (hx : x ∈ G) (hy : y ∈ G)
    (hr : (LowerM.sub x y : TolerantM Exact σ Expr).Runs s h s') :
    Silent.Gives G s h s' fun ρ v => v = (value ρ x).sub (value ρ y) :=
  gives_binary hw exact_sub (fun _ _ => rfl) hx hy hr

theorem gives_mul (hw : World G s.nextHandle) (hx : x ∈ G) (hy : y ∈ G)
    (hr : (LowerM.mul x y : TolerantM Exact σ Expr).Runs s h s') :
    Silent.Gives G s h s' fun ρ v => v = (value ρ x).mul (value ρ y) :=
  gives_binary hw exact_mul (fun _ _ => rfl) hx hy hr

theorem gives_neg (hw : World G s.nextHandle) (hx : x ∈ G)
    (hr : (LowerM.neg x : TolerantM Exact σ Expr).Runs s h s') :
    Silent.Gives G s h s' fun ρ v => v = (value ρ x).neg := by
  unfold LowerM.neg at hr
  split at hr
  · obtain ⟨rfl, rfl⟩ := runs_pure.mp hr
    refine ⟨G, silent_refl hw, hw.const_mem _, fun ρ => ?_⟩
    simp only [value_const]
    exact exact_neg _
  · exact gives_node hw (by simpa using hx) hr

/-- Whether a sum, a difference or a product is a number. -/
theorem number?_binary {f : Number Exact → Number Exact → Number Exact} {symbol : SolverFunction}
    (hr : (binary f symbol x y : TolerantM Exact σ Expr).Runs s h s')
    (hterm : x.number? = none ∨ y.number? = none) : h.number? = none := by
  unfold binary at hr
  split at hr
  · simp [Handle.number?] at hterm
  · obtain ⟨rfl, -⟩ := runs_node.mp hr
    rfl

/-- A gated term has the value of the term itself where the gate is one, and zero where it is zero, if that
is so of what the solver offers for it. -/
theorem value_gated {q : ℚ} (hgate : b.number? = none → h.number? = none → (P.gate b h).Runs s k s' →
      (value ρ b = .finite 0 → value ρ k = .finite 0) ∧ (value ρ b = .finite 1 → value ρ k = .finite q))
    (hr : (gated P b h).Runs s k s') (hq : value ρ h = .finite q) :
    (value ρ b = .finite 0 → value ρ k = .finite 0) ∧
      (value ρ b = .finite 1 → value ρ k = .finite q) := by
  unfold gated at hr
  split at hr
  · rename_i x hx
    obtain rfl := Handle.eq_const hx
    obtain ⟨rfl, -⟩ := runs_pure.mp hr
    rw [value_const]
    by_cases hx : x.isZero = true
    · rw [if_pos hx, isZero_iff.mp hx]
      simp [zero, scalar]
    · rw [if_neg hx]
      exact ⟨fun h0 => absurd (isZero_iff.mpr h0) hx, fun _ => hq⟩
  · rename_i y _ hy
    obtain rfl := Handle.eq_const hy
    split at hr
    · rename_i hzero
      obtain ⟨rfl, -⟩ := runs_pure.mp hr
      rw [value_const, isZero_iff.mp hzero] at hq
      cases hq
      simp [zero, scalar]
    · refine ⟨fun h0 => ?_, fun h1 => ?_⟩
      · rw [value_mul hr, hq, h0, Exact.finite_mul, zero_mul]
      · rw [value_mul hr, hq, h1, Exact.finite_mul, one_mul]
  · rename_i hbterm hhterm
    exact hgate hbterm hhterm hr

theorem gives_gated (hP : Documented P) (hw : World G s.nextHandle) (hb : b ∈ G) (hh : h ∈ G)
    (hr : (gated P b h).Runs s k s') :
    Silent.Gives G s k s' fun ρ v => ∀ q, value ρ h = .finite q →
      (value ρ b = .finite 0 → v = .finite 0) ∧ (value ρ b = .finite 1 → v = .finite q) := by
  have hvalue (ρ : HandleId → ℚ) (q : ℚ) (hq : value ρ h = .finite q) :=
    value_gated (k := k) (fun hbterm hhterm hr => by
      obtain ⟨-, -, -, -, hvalue⟩ := hP.gate hw hb hh hbterm hhterm hr
      exact hvalue ρ q hq) hr hq
  suffices hsilent : ∃ G', Silent G s G' s' ∧ k ∈ G' by
    obtain ⟨G', hs, hk⟩ := hsilent
    exact ⟨G', hs, hk, hvalue⟩
  unfold gated at hr
  split at hr
  · obtain ⟨rfl, rfl⟩ := runs_pure.mp hr
    refine ⟨G, silent_refl hw, ?_⟩
    split
    · exact hw.const_mem _
    · exact hh
  · split at hr
    · obtain ⟨rfl, rfl⟩ := runs_pure.mp hr
      exact ⟨G, silent_refl hw, hw.const_mem _⟩
    · obtain ⟨G', hs, hk, -⟩ := gives_mul hw hb hh hr
      exact ⟨G', hs, hk⟩
  · rename_i hbterm hhterm
    obtain ⟨-, G', hs, hk, -⟩ := hP.gate hw hb hh hbterm hhterm hr
    exact ⟨G', hs, hk⟩

/-- A gated term is a number only if it is zero or the gate is a number. -/
theorem number?_gated (hP : Documented P) (hw : World G s.nextHandle) (hb : b ∈ G) (hh : h ∈ G)
    (hterm : b.number? = none) (hr : (gated P b h).Runs s k s') :
    k.number? = none ∨ k = zero := by
  unfold gated at hr
  split at hr
  · simp_all
  · split at hr
    · obtain ⟨rfl, -⟩ := runs_pure.mp hr
      exact .inr rfl
    · exact .inl (number?_binary hr (.inl hterm))
  · rename_i hhterm
    exact .inl (hP.gate hw hb hh hterm hhterm hr).1

/-! ### Ranges -/

/-- What a constraint settles: a term is between the bounds, and a number is between the bounds
widened by the tolerance. -/
def Constrained (ε : ℚ) (h : Expr) (lower upper : Exact) (ρ : HandleId → ℚ) : Prop :=
  match h.number? with
  | none => Between lower upper (value ρ h)
  | some x => Between (lower.sub (.finite ε)) (upper.add (.finite ε)) x.exact

theorem runs_epsilon {x : Number Exact} :
    (epsilon : TolerantM Exact σ _).Runs s x s' ↔ x = s.solver.epsilon ∧ s' = s := by
  simp only [epsilon, getEncoding, runs_bind, runs_getSolver, runs_pure]
  constructor
  · rintro ⟨_, _, ⟨rfl, rfl⟩, rfl, rfl⟩
    exact ⟨rfl, rfl⟩
  · rintro ⟨rfl, rfl⟩
    exact ⟨_, _, ⟨rfl, rfl⟩, rfl, rfl⟩

theorem isWithin_iff {x lower upper e : Number Exact} (he : e.exact = .finite ε) :
    isWithin e x lower upper = true ↔
      Between (lower.exact.sub (.finite ε)) (upper.exact.add (.finite ε)) x.exact := by
  simp only [isWithin, Numeral.holds, Comparison.holdsExactly, Bool.and_eq_true, exact_sub, exact_add,
    he]
  rfl

theorem constrain_settles (hP : Documented P) (hv : (semantics σ).Valid G s) (hh : h ∈ G)
    (hε : IsTolerance s.solver.epsilon ε) {lower upper : Number Exact}
    (hr : (constrain P h lower upper).Runs s () s') :
    ∃ G', Settles G s G' s' (Constrained ε h lower.exact upper.exact) := by
  unfold constrain at hr
  split at hr
  · rename_i x hx
    simp only [runs_bind, runs_epsilon] at hr
    obtain ⟨_, s, ⟨rfl, rfl⟩, hr⟩ := hr
    have hC : ∀ ρ, Constrained ε h lower.exact upper.exact ρ ↔
        isWithin s.solver.epsilon x lower upper = true := fun ρ => by
      simp only [Constrained, hx, isWithin_iff hε.exact_eq]
    split at hr
    · rename_i hout
      rw [runs_recordViolated] at hr
      subst hr
      refine ⟨G, ⟨⟨⟨subset_rfl, ⟨hv.world, ?_⟩, le_rfl, rfl, fun ρ hρ => ?_, fun _ => trivial,
        fun _ _ => trivial⟩, rfl⟩, fun ρ => ?_⟩⟩
      · refine hv.tables.mono subset_rfl (fun ρ hρ => ?_) rfl (fun _ hc => .inl hc)
          (fun _ hr => .inl hr) (fun _ hid => .inl hid) fun _ he => .inl he
        have hnone := hρ.2
        simp at hnone
      · have hnone := hρ.2
        simp at hnone
      · rw [hC]
        simp only [Bool.not_eq_eq_eq_not, Bool.not_true] at hout
        simp [Admitted, hout]
    · rename_i hin
      obtain ⟨-, rfl⟩ := runs_pure.mp hr
      refine ⟨G, (Settles.refl hv).congr fun ρ => ?_⟩
      rw [hC]
      simpa using hin
  · rename_i hterm
    simp only [runs_bind] at hr
    obtain ⟨name, s₁, haux, _, s₂, hpost, hadd⟩ := hr
    have g₁ := runs_auxiliary_settles hv haux
    have hs₁ : s₁.solver = s.solver := by
      obtain ⟨-, rfl⟩ := runs_auxiliaryName.mp haux
      rfl
    obtain rfl := runs_modifySolver.mp hpost
    have hposted : ∀ r, r ∈ (s₁.solver.posted.push ⟨h, lower, upper, name⟩).toList ↔
        r ∈ s₁.solver.posted.toList ∨ r = ⟨h, lower, upper, name⟩ := by simp
    have hadmitted : ∀ ρ, Admitted ρ { s₁ with
        solver.posted := s₁.solver.posted.push ⟨h, lower, upper, name⟩ } ↔
          Admitted ρ s₁ ∧ Constrained ε h lower.exact upper.exact ρ := fun ρ => by
      simp only [Constrained, hterm]
      constructor
      · rintro ⟨hsat, hnone⟩
        exact ⟨⟨⟨hsat.created, fun hr => hsat.posted ((hposted _).mpr (.inl hr))⟩, hnone⟩,
          hsat.posted ((hposted _).mpr (.inr rfl))⟩
      · rintro ⟨⟨hsat, hnone⟩, hholds⟩
        refine ⟨⟨hsat.created, fun hr => ?_⟩, hnone⟩
        rcases (hposted _).mp hr with hr | rfl
        · exact hsat.posted hr
        · exact hholds
    have g₂ : Settles G s₁ G { s₁ with
        solver.posted := s₁.solver.posted.push ⟨h, lower, upper, name⟩ }
          (Constrained ε h lower.exact upper.exact) := by
      refine ⟨⟨⟨subset_rfl, ⟨g₁.valid.world, ?_⟩, le_rfl, rfl, fun ρ hρ => ((hadmitted ρ).mp hρ).1,
        fun _ => trivial, fun _ _ => trivial⟩, rfl⟩, hadmitted⟩
      refine g₁.valid.tables.mono subset_rfl (fun ρ hρ => ((hadmitted ρ).mp hρ).1) rfl
        (fun _ hc => .inl hc) (fun r hr => ?_) (fun _ hid => .inl hid) fun _ he => .inl he
      rcases (hposted r).mp hr with hr | rfl
      · exact .inl hr
      · exact .inr hh
    obtain ⟨G₃, hsilent⟩ := hP.addRange g₂.valid.world hh hadd
    exact ⟨G₃, g₁.after (g₂.before (hsilent.settles g₂.valid))⟩

/-! ### New variables -/

theorem satisfied_congr (hv : (semantics σ).Valid G s) (ha : Agree s.nextHandle ρ ρ')
    (hs : s.solver.Satisfied ρ) : s.solver.Satisfied ρ' where
  created hc := Created.holds_congr (value_congr hv.world (hv.tables.created hc) ha) (hs.created hc)
  posted hr := by
    have heq := value_congr hv.world (hv.tables.posted hr) ha
    unfold Range.Holds
    rw [← heq]
    exact hs.posted hr

/-- A new variable takes values of its kind within its bounds, and any of these. -/
structure NewVariable (s : TolerantState σ) (h : Expr) (s' : TolerantState σ) (kind : Kind)
    (lower upper : Exact) : Prop where
  term : h.number? = none
  finite (ρ : HandleId → ℚ) : ∃ q, value ρ h = .finite q
  holds (ρ : HandleId → ℚ) : Admitted ρ s' → kind.Has (value ρ h) ∧ Between lower upper (value ρ h)
  takes (ρ : HandleId → ℚ) (q : ℚ) : Admitted ρ s → kind.Has (.finite q) →
    Between lower upper (.finite q) → ∃ ρ', Agree s.nextHandle ρ ρ' ∧ Admitted ρ' s' ∧
      value ρ' h = .finite q

theorem createVariable_spec (hP : Documented P) (hv : (semantics σ).Valid G s) {kind : Kind}
    {lower upper : Exact} {name : String}
    (hr : (createVariable P kind lower upper name).Runs s h s') :
    ∃ G', (semantics σ).Step G s G' s' ∧ h ∈ G' ∧ NewVariable s h s' kind lower upper := by
  simp only [createVariable, runs_bind, runs_pure] at hr
  obtain ⟨l, s₁, hnew, _, s₂, hnote, rfl, rfl⟩ := hr
  obtain ⟨G₁, hsilent, hl, id, integral, hleaf, hfresh⟩ := hP.newVariable hv.world hnew
  have g₁ := hsilent.settles hv
  obtain rfl := runs_modifySolver.mp hnote
  clear hnote
  generalize hs₂ : ({ s₁ with solver := _ } : TolerantState σ) = s₂
  have hcreated : ∀ c, c ∈ s₂.solver.created.toList ↔
      c ∈ s₁.solver.created.toList ∨ c = ⟨l, kind, lower, upper, name⟩ := by
    rw [← hs₂]
    simp
  have hposted : s₂.solver.posted = s₁.solver.posted := by rw [← hs₂]
  have hadmitted : ∀ ρ, Admitted ρ s₂ ↔
      Admitted ρ s₁ ∧ (⟨l, kind, lower, upper, name⟩ : Created Exact).Holds ρ := by
    intro ρ
    have hviolated : s₂.violated = s₁.violated := by rw [← hs₂]
    constructor
    · rintro ⟨hsat, hnone⟩
      exact ⟨⟨⟨fun hc => hsat.created ((hcreated _).mpr (.inl hc)), hposted ▸ hsat.posted⟩,
        hviolated ▸ hnone⟩, hsat.created ((hcreated _).mpr (.inr rfl))⟩
    · rintro ⟨⟨hsat, hnone⟩, hholds⟩
      refine ⟨⟨fun hc => ?_, hposted.symm ▸ hsat.posted⟩, hviolated.symm ▸ hnone⟩
      rcases (hcreated _).mp hc with hc | rfl
      · exact hsat.created hc
      · exact hholds
  have hback := fun ρ (hρ : Admitted ρ s₂) => ((hadmitted ρ).mp hρ).1
  have hbinaries : ∀ id ∈ s₂.solver.binaries, id ∈ s₁.solver.binaries ∨
      ∃ h ∈ G₁, h.id? = some id ∧ ∀ ρ, Admitted ρ s₂ → IsBinary (value ρ h) := by
    intro id' hid'
    rw [← hs₂] at hid'
    dsimp only at hid'
    split at hid'
    · rename_i hkind
      rcases List.mem_append.mp hid' with hid' | hid'
      · refine .inr ⟨l, hl, Option.mem_toList.mp hid', fun ρ hρ => ?_⟩
        have hholds := ((hadmitted ρ).mp hρ).2.kind
        rwa [hkind] at hholds
      · exact .inl hid'
    · exact .inl hid'
  have htables : Tables G₁ s₂ := by
    refine g₁.valid.tables.mono subset_rfl hback ?_ (fun c hc => ?_) (fun r hr => .inl (hposted ▸ hr))
      hbinaries fun e he => .inl ?_
    · rw [← hs₂]
    · rcases (hcreated c).mp hc with hc | rfl
      · exact .inl hc
      · exact .inr hl
    · rwa [← hs₂] at he
  have g₂ : (semantics σ).Step G₁ s₁ G₁ s₂ := by
    have hnext : s₂.nextHandle = s₁.nextHandle := by rw [← hs₂]
    refine ⟨⟨subset_rfl, ⟨hnext ▸ g₁.valid.world, htables⟩, hnext.ge, ?_, hback, fun _ => trivial,
      fun _ _ => trivial⟩, ?_⟩ <;> rw [← hs₂]
  refine ⟨G₁, g₁.toStep.trans g₂, hl, by rw [hleaf]; rfl, fun ρ => ⟨_, by rw [hleaf, value_leaf]⟩,
    fun ρ hρ => ?_, fun ρ q hρ hkind hbetween => ?_⟩
  · have hholds := ((hadmitted ρ).mp hρ).2
    exact ⟨hholds.kind, hholds.lower_le, hholds.le_upper⟩
  · have ha : Agree s.nextHandle ρ (Function.update ρ id q) := Agree.update ρ hfresh q
    have hvalue : value (Function.update ρ id q) l = .finite q := by
      rw [hleaf, value_leaf, Function.update_self]
    refine ⟨_, ha, (hadmitted _).mpr ⟨(g₁.admitted_iff _).mpr
      ⟨⟨satisfied_congr hv ha hρ.1, hρ.2⟩, trivial⟩, ?_⟩, hvalue⟩
    refine ⟨?_, ?_, ?_⟩
    · rwa [hvalue]
    · rw [hvalue]
      exact hbetween.1
    · rw [hvalue]
      exact hbetween.2

/-- A new variable under an auxiliary name. -/
theorem newAuxiliary_spec (hP : Documented P) (hv : (semantics σ).Valid G s) {kind : Kind}
    {lower upper : Exact} {hint : String}
    (hr : (do createVariable P kind lower upper (← auxiliaryName hint) :
      TolerantM Exact σ Expr).Runs s h s') :
    ∃ G', (semantics σ).Step G s G' s' ∧ h ∈ G' ∧ NewVariable s h s' kind lower upper := by
  obtain ⟨name, s₁, haux, hcreate⟩ := runs_bind.mp hr
  have g₁ := runs_auxiliary_settles hv haux
  obtain ⟨-, rfl⟩ := runs_auxiliaryName.mp haux
  obtain ⟨G', g, hh, hnew⟩ := createVariable_spec hP g₁.valid hcreate
  exact ⟨G', g₁.toStep.trans g, hh, hnew.term, hnew.finite, hnew.holds, fun ρ q hρ => hnew.takes ρ q
    ((g₁.admitted_iff ρ).mpr ⟨hρ, trivial⟩)⟩

theorem newBinary_spec (hP : Documented P) (hv : (semantics σ).Valid G s) {hint : String}
    (hr : (newBinary P hint).Runs s h s') :
    ∃ G', (semantics σ).Step G s G' s' ∧ h ∈ G' ∧
      NewVariable s h s' .binary (.finite 0) (.finite 1) := newAuxiliary_spec hP hv hr

theorem newInteger_spec (hP : Documented P) (hv : (semantics σ).Valid G s) {first last : ℤ}
    {hint : String} (hr : (newInteger P first last hint).Runs s h s') :
    ∃ G', (semantics σ).Step G s G' s' ∧ h ∈ G' ∧
      NewVariable s h s' .integer (.finite first) (.finite last) := by
  simp only [newInteger, runs_bind (m := LowerM.lift _), runs_lift, Scalar.ofInt?_exact] at hr
  obtain ⟨_, _, ⟨⟨⟩, rfl⟩, _, _, ⟨⟨⟩, rfl⟩, hr⟩ := hr
  exact newAuxiliary_spec hP hv hr

/-- A new binary variable can be the indicator of any statement. -/
theorem NewVariable.takes_indicator
    (hnew : NewVariable s h s' .binary (.finite 0) (.finite 1)) (p : Prop) [Decidable p]
    (hρ : Admitted ρ s) : ∃ ρ', Agree s.nextHandle ρ ρ' ∧ Admitted ρ' s' ∧
      value ρ' h = .finite (indicator p) := by
  refine hnew.takes ρ _ hρ ?_ ?_
  · rcases indicator_cases (p := p) with h | h <;> simp [h, Kind.Has, IsBinary]
  · rcases indicator_cases (p := p) with h | h <;> simp [h, Between]

/-- New variables of one kind with the same bounds take values independently of each other. -/
structure NewVariables (s : TolerantState σ) (hs : List Expr) (s' : TolerantState σ) (kind : Kind)
    (lower upper : Exact) : Prop where
  term : ∀ h ∈ hs, h.number? = none
  holds (ρ : HandleId → ℚ) : Admitted ρ s' → ∀ h ∈ hs, kind.Has (value ρ h) ∧
    Between lower upper (value ρ h)
  takes (ρ : HandleId → ℚ) (qs : List ℚ) : Admitted ρ s → qs.length = hs.length →
    (∀ q ∈ qs, kind.Has (.finite q) ∧ Between lower upper (.finite q)) →
      ∃ ρ', Agree s.nextHandle ρ ρ' ∧ Admitted ρ' s' ∧ hs.map (value ρ') = qs.map Exact.finite

theorem mapM_newVariables {β : Type} {f : β → TolerantM Exact σ Expr} {xs : List β} {hs : List Expr}
    (kind : Kind) (lower upper : Exact)
    (hf : ∀ x ∈ xs, ∀ ⦃G s h s'⦄, (semantics σ).Valid G s → (f x).Runs s h s' →
      ∃ G', (semantics σ).Step G s G' s' ∧ h ∈ G' ∧ NewVariable s h s' kind lower upper)
    (hv : (semantics σ).Valid G s) (hr : (xs.mapM f).Runs s hs s') :
    hs.length = xs.length ∧ ∃ G', (semantics σ).Step G s G' s' ∧ (∀ h ∈ hs, h ∈ G') ∧
      NewVariables s hs s' kind lower upper := by
  induction xs generalizing G s hs with
  | nil =>
    obtain ⟨rfl, rfl⟩ := runs_mapM_nil.mp hr
    refine ⟨rfl, G, .refl hv, by simp, by simp, by simp, fun ρ qs hρ hlen _ => ⟨ρ, .refl _ ρ, hρ, ?_⟩⟩
    rw [List.length_eq_zero_iff.mp hlen]
    rfl
  | cons x xs ih =>
    obtain ⟨h, s₁, hs, hfirst, hrest, rfl⟩ := runs_mapM_cons.mp hr
    obtain ⟨G₁, g₁, hmem, hnew⟩ := hf x (by simp) hv hfirst
    obtain ⟨hlen, G₂, g₂, hmems, hnews⟩ := ih (fun y hy => hf y (by simp [hy])) g₁.valid hrest
    refine ⟨by simp [hlen], G₂, g₁.trans g₂, ?_, ?_, fun ρ hρ => ?_, fun ρ qs hρ hlen hqs => ?_⟩
    · simpa using ⟨g₂.subset hmem, hmems⟩
    · simpa using ⟨hnew.term, hnews.term⟩
    · simpa using ⟨hnew.holds ρ (g₂.admits ρ hρ), hnews.holds ρ hρ⟩
    · obtain ⟨q, qs, rfl⟩ := List.exists_cons_of_length_eq_add_one hlen
      obtain ⟨hkind, hbetween⟩ := hqs q (by simp)
      obtain ⟨ρ₁, ha₁, hρ₁, hvalue⟩ := hnew.takes ρ q hρ hkind hbetween
      obtain ⟨ρ₂, ha₂, hρ₂, hvalues⟩ := hnews.takes ρ₁ qs hρ₁ (by simpa using hlen)
        fun q' hq' => hqs q' (by simp [hq'])
      refine ⟨ρ₂, ha₁.trans g₁.next_le ha₂, hρ₂, ?_⟩
      rw [List.map_cons, List.map_cons, ← value_congr g₁.valid.world hmem ha₂, hvalue, hvalues]

/-! ### Notes -/

theorem markBinary_settles (hv : (semantics σ).Valid G s) (hh : h ∈ G)
    (hbinary : ∀ ρ, Admitted ρ s → IsBinary (value ρ h)) (hr : (markBinary h).Runs s k s') :
    k = h ∧ Settles G s G s' fun _ => True := by
  simp only [markBinary, modifyEncoding, runs_bind, runs_modifySolver, runs_pure] at hr
  obtain ⟨_, _, rfl, rfl, rfl⟩ := hr
  refine ⟨rfl, settles_same hv subset_rfl hv.world le_rfl rfl rfl rfl rfl rfl rfl (fun id hid => ?_)
    fun _ he => .inl he⟩
  rcases List.mem_append.mp hid with hid | hid
  · exact .inr ⟨h, hh, Option.mem_toList.mp hid, hbinary⟩
  · exact .inl hid

theorem runs_threshold {x : Number Exact} (hε : s.solver.epsilon.exact = .finite ε)
    (hr : (threshold : TolerantM Exact σ _).Runs s x s') :
    s' = s ∧ x.exact = .finite (11 / 10 * ε) := by
  simp only [threshold, runs_bind, runs_epsilon, runs_pure] at hr
  obtain ⟨_, _, ⟨rfl, rfl⟩, rfl, rfl⟩ := hr
  refine ⟨rfl, ?_⟩
  rw [exact_real, toScalar_eq, hε]
  rfl

theorem runs_negatedThreshold {x : Number Exact} (hε : s.solver.epsilon.exact = .finite ε)
    (hr : (negatedThreshold : TolerantM Exact σ _).Runs s x s') :
    s' = s ∧ x.exact = .finite (-(11 / 10 * ε)) := by
  simp only [negatedThreshold, runs_bind, runs_epsilon, runs_pure] at hr
  obtain ⟨_, _, ⟨rfl, rfl⟩, rfl, rfl⟩ := hr
  refine ⟨rfl, ?_⟩
  rw [exact_real, toScalar_eq, hε, Scalar.nearest_exact, Scalar.mul_exact, Exact.finite_mul]
  congr 1
  ring

/-! ### Ranges again -/

theorem IsTolerance.lt_one {x : Number Exact} (h : IsTolerance x ε) : ε < 1 := by
  have h₁ := h.pos
  have h₂ := h.le_one
  linarith

/-- A term is constrained as it is. -/
theorem constrain_term (hP : Documented P) (hv : (semantics σ).Valid G s) (hh : h ∈ G)
    (hterm : h.number? = none) {lower upper : Number Exact}
    (hr : (constrain P h lower upper).Runs s () s') :
    ∃ G', Settles G s G' s' fun ρ => Between lower.exact upper.exact (value ρ h) := by
  obtain ⟨ε, hε⟩ := hv.tables.tolerance
  obtain ⟨G', g⟩ := constrain_settles hP hv hh hε hr
  exact ⟨G', g.congr fun ρ => by simp only [Constrained, hterm]⟩

/-- A term or a zero is constrained as it is by bounds that have zero between them. -/
theorem constrain_around_zero (hP : Documented P) (hv : (semantics σ).Valid G s) (hh : h ∈ G)
    (hterm : h.number? = none ∨ h = zero) {lower upper : Number Exact}
    (hzero : Between lower.exact upper.exact (.finite 0))
    (hr : (constrain P h lower upper).Runs s () s') :
    ∃ G', Settles G s G' s' fun ρ => Between lower.exact upper.exact (value ρ h) := by
  rcases hterm with hterm | rfl
  · exact constrain_term hP hv hh hterm hr
  · obtain ⟨ε, hε⟩ := hv.tables.tolerance
    obtain ⟨G', g⟩ := constrain_settles hP hv hh hε hr
    have hwidened : Between (lower.exact.sub (.finite ε)) (upper.exact.add (.finite ε)) (.finite 0) := by
      obtain ⟨hlo, hhi⟩ := hzero
      have hpos := hε.pos
      refine ⟨?_, ?_⟩
      · cases hl : lower.exact <;> simp_all [Exact.sub, Exact.add, Exact.neg, Exact.le, Exact.lt, Exact.eq]
        grind
      · cases hu : upper.exact <;> simp_all [Exact.add, Exact.le, Exact.lt, Exact.eq]
        grind
    exact ⟨G', g.congr fun ρ => by
      simp only [Constrained, zero, scalar, Handle.number?, value_const]
      exact iff_of_true hwidened hzero⟩

/-- A handle that is integral is constrained by integers as it is. -/
theorem constrain_integral (hP : Documented P) (hv : (semantics σ).Valid G s) (hh : h ∈ G)
    {a c : ℤ} {lower upper : Number Exact} (hlower : lower.exact = .finite a)
    (hupper : upper.exact = .finite c) (hr : (constrain P h lower upper).Runs s () s') :
    ∃ G' C, Settles G s G' s' C ∧ ∀ ρ, ∀ n : ℤ, value ρ h = .finite n → (C ρ ↔ a ≤ n ∧ n ≤ c) := by
  obtain ⟨ε, hε⟩ := hv.tables.tolerance
  obtain ⟨G', g⟩ := constrain_settles hP hv hh hε hr
  refine ⟨G', _, g, fun ρ n hn => ?_⟩
  rw [hlower, hupper]
  unfold Constrained
  split
  · rw [hn]
    simp [Between]
  · rename_i x hx
    obtain rfl := Handle.eq_const hx
    rw [value_const] at hn
    have hpos := hε.pos
    have hlt := hε.lt_one
    simp only [hn, Between, Exact.finite_sub, Exact.finite_add, Exact.finite_le, decide_eq_true_iff]
    constructor
    · rintro ⟨hlo, hhi⟩
      have hlo' : (a : ℚ) < n + 1 := by linarith
      have hhi' : (n : ℚ) < c + 1 := by linarith
      exact ⟨Int.lt_add_one_iff.mp (by exact_mod_cast hlo'),
        Int.lt_add_one_iff.mp (by exact_mod_cast hhi')⟩
    · rintro ⟨hlo, hhi⟩
      have hlo' : (a : ℚ) ≤ n := by exact_mod_cast hlo
      have hhi' : (n : ℚ) ≤ c := by exact_mod_cast hhi
      exact ⟨by linarith, by linarith⟩

end DecisionModel.Tolerant
