import Mathlib.Algebra.Order.BigOperators.Group.List
import DecisionModel.Proofs.Tolerant.Arithmetic

/-!
# Logic for algebraic solvers

A range over a gated term holds where the gate is zero and amounts to a range over the term where it
is one. On integers the two thresholds tell apart what is positive from what is not
(`le_tolerance_iff`, `threshold_le_iff`), so two gated ranges make a new binary variable the indicator
of a comparison (`computes_reify`) or the truth value of a term (`newTruth_spec`). Connectives are
products and sums of truth values.
-/

namespace DecisionModel.Tolerant

open LowerM

variable {σ : Type} {P : Primitives Exact σ} {G G' : Set Expr} {s s' : TolerantState σ}
  {h k b t x y δ : Expr} {args args' hs : List Expr} {ρ ρ' : HandleId → ℚ} {ε : ℚ}
  {W W' R R₁ R₂ : (HandleId → ℚ) → Prop}

/-! ### What is posted -/

/-- Where the point has the property `W`, what `m` settles amounts to `R`. -/
def Amounts (m : TolerantM Exact σ Unit) (args : List Expr) (W R : (HandleId → ℚ) → Prop) : Prop :=
  ∀ ⦃G s s'⦄, (semantics σ).Valid G s → (∀ a ∈ args, a ∈ G) → m.Runs s () s' →
    ∃ G' C, Settles G s G' s' C ∧ ∀ ρ, W ρ → (C ρ ↔ R ρ)

theorem Amounts.mono {m : TolerantM Exact σ Unit} (hm : Amounts m args W R)
    (hargs : ∀ a ∈ args, a ∈ args' ∨ a.isNumber = true) (hW : ∀ ρ, W' ρ → W ρ)
    (hR : ∀ ρ, W' ρ → (R ρ ↔ R₁ ρ)) : Amounts m args' W' R₁ := by
  intro G s s' hv hmem hr
  have hall : ∀ a ∈ args, a ∈ G := by
    intro a ha
    rcases hargs a ha with ha | ha
    · exact hmem a ha
    · cases a with
      | const x => exact hv.world.const_mem x
      | leaf id name integral => cases ha
      | node id f args => cases ha
  obtain ⟨G', C, g, hC⟩ := hm hv hall hr
  exact ⟨G', C, g, fun ρ hρ => (hC ρ (hW ρ hρ)).trans (hR ρ hρ)⟩

theorem Amounts.seq {m m' : TolerantM Exact σ Unit} (h₁ : Amounts m args W R₁)
    (h₂ : Amounts m' args W R₂) : Amounts (do m; m') args W fun ρ => R₁ ρ ∧ R₂ ρ := by
  intro G s s' hv hmem hr
  obtain ⟨_, s₁, hfirst, hrest⟩ := runs_bind.mp hr
  obtain ⟨G₁, C₁, g₁, hC₁⟩ := h₁ hv hmem hfirst
  obtain ⟨G₂, C₂, g₂, hC₂⟩ := h₂ g₁.valid (fun a ha => g₁.subset (hmem a ha)) hrest
  exact ⟨G₂, _, g₁.trans g₂, fun ρ hρ => and_congr (hC₁ ρ hρ) (hC₂ ρ hρ)⟩

theorem Amounts.bind_seq {β : Type} {make : TolerantM Exact σ β} {f : β → TolerantM Exact σ Unit}
    {m : TolerantM Exact σ Unit} (h₁ : Amounts (make >>= f) args W R₁) (h₂ : Amounts m args W R₂) :
    Amounts (do let t ← make; f t; m) args W fun ρ => R₁ ρ ∧ R₂ ρ := by
  have h := h₁.seq h₂
  rwa [bind_assoc] at h

/-- What is posted about a term that is made for it. -/
theorem Amounts.bind {make : TolerantM Exact σ Expr} {f : Expr → TolerantM Exact σ Unit}
    {T : Expr → Prop} {V : (HandleId → ℚ) → Exact → Prop}
    (hmake : ∀ ⦃G s t s'⦄, World G s.nextHandle → (∀ a ∈ args, a ∈ G) → make.Runs s t s' →
      T t ∧ Silent.Gives G s t s' V)
    (hf : ∀ t, T t → Amounts (f t) (t :: args) (fun ρ => W ρ ∧ V ρ (value ρ t)) R) :
    Amounts (make >>= f) args W R := by
  intro G s s' hv hmem hr
  obtain ⟨t, s₁, hfirst, hrest⟩ := runs_bind.mp hr
  obtain ⟨ht, G₁, hs, htmem, hvalue⟩ := hmake hv.world hmem hfirst
  have g₁ := hs.settles hv
  obtain ⟨G₂, C, g₂, hC⟩ := hf t ht g₁.valid (by
    simpa using ⟨htmem, fun a ha => g₁.subset (hmem a ha)⟩) hrest
  exact ⟨G₂, C, g₁.after g₂, fun ρ hρ => hC ρ ⟨hρ, hvalue ρ⟩⟩

theorem Amounts.bind_sub {f : Expr → TolerantM Exact σ Unit} (hx : x ∈ args) (hy : y ∈ args)
    (hf : ∀ t, (x.number? = none ∨ y.number? = none → t.number? = none) →
      Amounts (f t) (t :: args) (fun ρ => W ρ ∧ value ρ t = (value ρ x).sub (value ρ y)) R) :
    Amounts (LowerM.sub x y >>= f) args W R :=
  Amounts.bind (T := fun t => x.number? = none ∨ y.number? = none → t.number? = none)
    (V := fun ρ v => v = (value ρ x).sub (value ρ y))
    (fun _ _ _ _ hw hmem hr => ⟨number?_binary hr, gives_sub hw (hmem x hx) (hmem y hy) hr⟩) hf

theorem Amounts.bind_mul {f : Expr → TolerantM Exact σ Unit} (hx : x ∈ args) (hy : y ∈ args)
    (hf : ∀ t, (x.number? = none ∨ y.number? = none → t.number? = none) →
      Amounts (f t) (t :: args) (fun ρ => W ρ ∧ value ρ t = (value ρ x).mul (value ρ y)) R) :
    Amounts (LowerM.mul x y >>= f) args W R :=
  Amounts.bind (T := fun t => x.number? = none ∨ y.number? = none → t.number? = none)
    (V := fun ρ v => v = (value ρ x).mul (value ρ y))
    (fun _ _ _ _ hw hmem hr => ⟨number?_binary hr, gives_mul hw (hmem x hx) (hmem y hy) hr⟩) hf

theorem amounts_constrain (hP : Documented P) (hh : h.number? = none) (hmem : h ∈ args)
    (lower upper : Number Exact) : Amounts (constrain P h lower upper) args W
      fun ρ => Between lower.exact upper.exact (value ρ h) := by
  intro G s s' hv hargs hr
  obtain ⟨G', g⟩ := constrain_term hP hv (hargs h hmem) hh hr
  exact ⟨G', _, g, fun _ _ => Iff.rfl⟩

/-- An equation of integral terms. -/
theorem amounts_equal (hP : Documented P) (x y : Expr) : Amounts (postEqual P x y) [x, y]
    (fun ρ => (semantics σ).Integral ρ x ∧ (semantics σ).Integral ρ y)
    fun ρ => (semantics σ).int ρ x = (semantics σ).int ρ y := by
  refine Amounts.bind_sub (by simp) (by simp) fun d _ => ?_
  intro G s s' hv hmem hr
  obtain ⟨G', C, g, hC⟩ := constrain_integral hP hv (hmem d (by simp)) (a := 0) (c := 0)
    (by simp [realZero]) (by simp [realZero]) hr
  refine ⟨G', C, g, ?_⟩
  rintro ρ ⟨⟨hx, hy⟩, hd⟩
  rw [value_eq hx, value_eq hy, Exact.finite_sub, ← Int.cast_sub] at hd
  rw [hC ρ _ hd]
  omega

/-- What is settled about integral handles is posted. -/
theorem Amounts.posts {m : TolerantM Exact σ Unit}
    (hm : Amounts m args (fun ρ => ∀ a ∈ args, (semantics σ).Integral ρ a) R) :
    (semantics σ).Posts m args R R := by
  intro G s s' hv hargs hr
  obtain ⟨G', C, g, hC⟩ := hm hv (fun a ha => (hargs a ha).mem) hr
  have hiff : ∀ ρ, Admitted ρ s → (C ρ ↔ R ρ) :=
    fun ρ hρ => hC ρ fun a ha => (hargs a ha).integral ρ hρ
  exact ⟨G', g.toStep, fun ρ hρ => (hiff ρ (g.admits ρ hρ)).mp (g.holds hρ),
    g.extends_.mono fun ρ hρ => (hiff ρ hρ).mpr⟩

theorem posts_equal (hP : Documented P) (x y : Expr) : (semantics σ).Posts (postEqual P x y) [x, y]
    (fun ρ => (semantics σ).int ρ x = (semantics σ).int ρ y)
    fun ρ => (semantics σ).int ρ x = (semantics σ).int ρ y :=
  ((amounts_equal hP x y).mono (fun _ h => .inl h) (fun ρ hρ =>
    ⟨hρ x (by simp), hρ y (by simp)⟩) fun _ _ => Iff.rfl).posts

/-! ### Thresholds -/

/-- Of the integers within the first threshold none is positive. -/
theorem IsTolerance.le_iff {e : Number Exact} (hε : IsTolerance e ε) (n : ℤ) :
    (n : ℚ) ≤ ε ↔ n ≤ 0 := by
  constructor
  · intro h
    have hlt : (n : ℚ) < 1 := lt_of_le_of_lt h hε.lt_one
    exact Int.lt_add_one_iff.mp (by exact_mod_cast hlt)
  · intro h
    exact le_trans (by exact_mod_cast h) hε.pos.le

/-- Of the integers from the second threshold on all are positive. -/
theorem IsTolerance.threshold_le_iff {e : Number Exact} (hε : IsTolerance e ε) (n : ℤ) :
    11 / 10 * ε ≤ n ↔ 0 < n := by
  constructor
  · intro h
    have hpos := hε.pos
    have hlt : (0 : ℚ) < n := by linarith
    exact_mod_cast hlt
  · intro h
    exact hε.le_one.trans (by exact_mod_cast h)

theorem IsTolerance.neg_le_iff {e : Number Exact} (hε : IsTolerance e ε) (n : ℤ) :
    -(n : ℚ) ≤ ε ↔ 0 ≤ n := by
  have h := hε.le_iff (-n)
  rwa [Int.cast_neg, neg_nonpos] at h

theorem IsTolerance.le_neg_iff {e : Number Exact} (hε : IsTolerance e ε) (n : ℤ) :
    (n : ℚ) ≤ -(11 / 10 * ε) ↔ n < 0 := by
  have h := hε.threshold_le_iff (-n)
  rwa [Int.cast_neg, le_neg, neg_pos] at h

/-- A range over a gated term binds where the gate is one. -/
theorem amounts_gated (hP : Documented P) (hb : b.number? = none) {lower upper : Number Exact}
    (hzero : Between lower.exact upper.exact (.finite 0)) :
    Amounts (do constrain P (← gated P b t) lower upper) [b, t]
      (fun ρ => IsBinary (value ρ b) ∧ ∃ q, value ρ t = .finite q)
      fun ρ => value ρ b = .finite 1 → Between lower.exact upper.exact (value ρ t) := by
  intro G s s' hv hmem hr
  obtain ⟨k, s₁, hgate, hconstrain⟩ := runs_bind.mp hr
  have hterm := number?_gated hP hv.world (hmem b (by simp)) (hmem t (by simp)) hb hgate
  obtain ⟨G₁, hs, hk, hvalue⟩ := gives_gated hP hv.world (hmem b (by simp)) (hmem t (by simp)) hgate
  have g₁ := hs.settles hv
  obtain ⟨G₂, g₂⟩ := constrain_around_zero hP g₁.valid hk hterm hzero hconstrain
  refine ⟨G₂, _, g₁.after g₂, ?_⟩
  rintro ρ ⟨hbinary, q, hq⟩
  obtain ⟨h0, h1⟩ := hvalue ρ q hq
  rcases hbinary with hb0 | hb1
  · rw [h0 hb0]
    exact iff_of_true hzero fun h => absurd (hb0.symm.trans h) (by simp)
  · rw [h1 hb1, ← hq]
    exact ⟨fun h _ => h, fun h => h hb1⟩

/-- A term is required to be non-negative where the gate is one. -/
theorem amounts_requireGated (hP : Documented P) (hb : b.number? = none)
    {make : TolerantM Exact σ Expr} {f : (HandleId → ℚ) → ℚ}
    (hmake : ∀ ⦃G s t s'⦄, World G s.nextHandle → (∀ a ∈ args, a ∈ G) → make.Runs s t s' →
      Silent.Gives G s t s' fun ρ v => W ρ → v = .finite (f ρ))
    (hbmem : b ∈ args) (hW : ∀ ρ, W ρ → IsBinary (value ρ b)) :
    Amounts (do requireGated P b (← make)) args W
      fun ρ => value ρ b = .finite 1 → 0 ≤ f ρ := by
  refine Amounts.bind (T := fun _ => True) (fun G s t s' hw hmem hr => ⟨trivial, hmake hw hmem hr⟩)
    fun t _ => ?_
  have hzero : Between (realZero : Number Exact).exact (noUpper : Number Exact).exact
      (.finite 0) := by
    constructor <;> rfl
  refine (amounts_gated hP hb hzero).mono ?_ ?_ ?_
  · intro a ha
    rcases List.mem_pair.mp ha with rfl | rfl
    · exact .inl (List.mem_cons_of_mem _ hbmem)
    · exact .inl List.mem_cons_self
  · rintro ρ ⟨hρ, ht⟩
    exact ⟨hW ρ hρ, _, ht hρ⟩
  · rintro ρ ⟨hρ, ht⟩
    rw [ht hρ]
    simp [Between, realZero, noUpper, Exact.le, Exact.lt, Exact.eq, le_iff_lt_or_eq]

/-- A difference is required to be non-negative where the gate is one. -/
theorem amounts_requireGated_sub (hP : Documented P) (hb : b.number? = none) (hbmem : b ∈ args)
    (hx : x ∈ args) (hy : y ∈ args) {f g : (HandleId → ℚ) → ℚ}
    (hW : ∀ ρ, W ρ → IsBinary (value ρ b)) (hf : ∀ ρ, W ρ → value ρ x = .finite (f ρ))
    (hg : ∀ ρ, W ρ → value ρ y = .finite (g ρ)) :
    Amounts (do requireGated P b (← LowerM.sub x y)) args W
      fun ρ => value ρ b = .finite 1 → g ρ ≤ f ρ := by
  refine (amounts_requireGated hP hb (f := fun ρ => f ρ - g ρ) ?_ hbmem hW).mono
    (fun a ha => .inl ha) (fun _ h => h) fun ρ _ => by simp
  intro G s t s' hw hmem hr
  obtain ⟨G', hs, ht, hvalue⟩ := gives_sub hw (hmem x hx) (hmem y hy) hr
  exact ⟨G', hs, ht, fun ρ hρ => by rw [hvalue, hf ρ hρ, hg ρ hρ, Exact.finite_sub]⟩

/-- A sum is required to be non-negative where the gate is one. -/
theorem amounts_requireGated_add (hP : Documented P) (hb : b.number? = none) (hbmem : b ∈ args)
    (hx : x ∈ args) (hy : y ∈ args) {f g : (HandleId → ℚ) → ℚ}
    (hW : ∀ ρ, W ρ → IsBinary (value ρ b)) (hf : ∀ ρ, W ρ → value ρ x = .finite (f ρ))
    (hg : ∀ ρ, W ρ → value ρ y = .finite (g ρ)) :
    Amounts (do requireGated P b (← LowerM.add x y)) args W
      fun ρ => value ρ b = .finite 1 → 0 ≤ f ρ + g ρ := by
  refine amounts_requireGated hP hb ?_ hbmem hW
  intro G s t s' hw hmem hr
  obtain ⟨G', hs, ht, hvalue⟩ := gives_add hw (hmem x hx) (hmem y hy) hr
  exact ⟨G', hs, ht, fun ρ hρ => by rw [hvalue, hf ρ hρ, hg ρ hρ, Exact.finite_add]⟩

/-- A new binary variable that is made the indicator of a statement about the arguments. -/
theorem computes_indicator (hP : Documented P) (hint : String) (args : List Expr)
    {body : Expr → TolerantM Exact σ Unit} (p : (HandleId → ℚ) → Prop) [∀ ρ, Decidable (p ρ)]
    (hbody : ∀ b, b.number? = none → Amounts (body b) (b :: args)
      (fun ρ => IsBinary (value ρ b) ∧ ∀ a ∈ args, (semantics σ).Integral ρ a)
      fun ρ => value ρ b = .finite 1 ↔ p ρ)
    (hp : ∀ ρ ρ', (∀ a ∈ args, value ρ a = value ρ' a) → p ρ → p ρ') :
    (semantics σ).Computes (do
      let b ← newBinary P hint
      body b
      return b) args (fun ρ n => n = indicator (p ρ)) fun _ => True := by
  intro G s b s' hv hargs hr
  obtain ⟨b', s₁, hnew, hr⟩ := runs_bind.mp hr
  obtain ⟨_, s₂, hpost, hr⟩ := runs_bind.mp hr
  obtain ⟨rfl, rfl⟩ := runs_pure.mp hr
  obtain ⟨G₁, g₁, hb, hnew⟩ := newBinary_spec hP hv hnew
  obtain ⟨G₂, C, g₂, hC⟩ := hbody b' hnew.term g₁.valid (by
    simpa using ⟨hb, fun a ha => g₁.subset (hargs a ha).mem⟩) hpost
  have hintegral : ∀ ρ, Admitted ρ s₁ → ∀ a ∈ args, (semantics σ).Integral ρ a :=
    fun ρ hρ a ha => (hargs a ha).integral ρ (g₁.admits ρ hρ)
  have hvalue : ∀ ρ, Admitted ρ s₂ → value ρ b' = .finite (indicator (p ρ) : ℤ) := by
    intro ρ hρ
    obtain ⟨hρ₁, hρC⟩ := (g₂.admitted_iff ρ).mp hρ
    have hbinary : IsBinary (value ρ b') := (hnew.holds ρ hρ₁).1
    have hiff := (hC ρ ⟨hbinary, hintegral ρ hρ₁⟩).mp hρC
    by_cases hpρ : p ρ
    · rw [hiff.mpr hpρ, indicator_eq_one.mpr hpρ]
      simp
    · rw [hbinary.resolve_right fun h => hpρ (hiff.mp h), indicator_eq_zero.mpr hpρ]
      simp
  obtain ⟨u, hint⟩ := usable_of_value (g₂.subset hb) hvalue
  refine ⟨G₂, g₁.trans g₂.toStep, u, hint, fun ρ _ hρ _ => ?_⟩
  obtain ⟨ρ', ha, hρ', hvalue'⟩ := hnew.takes_indicator (p ρ) hρ
  have hsame : ∀ a ∈ args, value ρ a = value ρ' a :=
    fun a hm => value_congr hv.world (hargs a hm).mem ha
  refine ⟨ρ', ha, (g₂.admitted_iff ρ').mpr ⟨hρ', (hC ρ' ⟨(hnew.holds ρ' hρ').1,
    hintegral ρ' hρ'⟩).mpr ?_⟩⟩
  show value ρ' b' = .finite 1 ↔ p ρ'
  rw [hvalue', Exact.finite.injEq, ← Int.cast_one, Int.cast_inj, indicator_eq_one]
  exact ⟨hp ρ ρ' hsame, hp ρ' ρ fun a ha => (hsame a ha).symm⟩

/-! ### Comparisons -/

/-- The negation of a binary variable. -/
theorem makes_complement (hb : b.number? = none) (hbmem : b ∈ args) ⦃G : Set Expr⦄
    ⦃s : TolerantState σ⦄ ⦃t : Expr⦄ ⦃s' : TolerantState σ⦄ (hw : World G s.nextHandle)
    (hmem : ∀ a ∈ args, a ∈ G) (hr : (LowerM.sub (integer 1) b : TolerantM Exact σ Expr).Runs s t s') :
    t.number? = none ∧ Silent.Gives G s t s' fun ρ v => v = (Exact.finite 1).sub (value ρ b) := by
  refine ⟨number?_binary hr (.inr hb), ?_⟩
  simpa [integer] using gives_sub hw (hw.const_mem (.int 1)) (hmem b hbmem) hr

theorem IsBinary.complement {v w : Exact} (hv : IsBinary v) (hw : w = (Exact.finite 1).sub v) :
    IsBinary w ∧ (w = .finite 1 ↔ v ≠ .finite 1) := by
  rcases hv with rfl | rfl <;> simp [hw, IsBinary]

/-- A binary variable with its complement, and an integral term that is compared with zero. -/
structure Compares (σ : Type) (b notB δ : Expr) (ρ : HandleId → ℚ) : Prop where
  binary : IsBinary (value ρ b)
  complement : value ρ notB = (Exact.finite 1).sub (value ρ b)
  integral : value ρ δ = .finite ((semantics σ).int ρ δ : ℤ)

/-- What is required where the variable is one, and where its complement is, tie it to `p`. -/
theorem Compares.iff {notB : Expr} (hc : Compares σ b notB δ ρ) {p q q' : Prop} (hq : q ↔ p)
    (hq' : q' ↔ ¬ p) : ((value ρ b = .finite 1 → q) ∧ (value ρ notB = .finite 1 → q')) ↔
      (value ρ b = .finite 1 ↔ p) := by
  rw [(hc.binary.complement hc.complement).2, hq, hq']
  tauto

/-- One range holds where the variable is one, and another where its complement is. -/
theorem Compares.amounts {β : Type} {notB : Expr} {make : TolerantM Exact σ β}
    {f : β → TolerantM Exact σ Unit} {m : TolerantM Exact σ Unit} {p q q' : (HandleId → ℚ) → Prop}
    (h : Amounts (make >>= f) args (Compares σ b notB δ) fun ρ => value ρ b = .finite 1 → q ρ)
    (h' : Amounts m args (Compares σ b notB δ) fun ρ => value ρ notB = .finite 1 → q' ρ)
    (hq : ∀ ρ, q ρ ↔ p ρ) (hq' : ∀ ρ, q' ρ ↔ ¬ p ρ) :
    Amounts (do let t ← make; f t; m) args (Compares σ b notB δ)
      fun ρ => value ρ b = .finite 1 ↔ p ρ :=
  (h.bind_seq h').mono (fun _ h => .inl h) (fun _ h => h) fun ρ hρ => hρ.iff (hq ρ) (hq' ρ)

/-- The gated ranges that tie a binary variable and its complement to a comparison of a term with
zero. -/
def gates (P : Primitives Exact σ) (k : Comparison) (b notB δ : Expr) (e a c : Number Exact) :
    TolerantM Exact σ Unit := do
  match k with
  | .ge =>
    requireGated P b (← LowerM.add δ (.const e))
    requireGated P notB (← LowerM.sub (.const c) δ)
  | .le =>
    requireGated P b (← LowerM.sub (.const e) δ)
    requireGated P notB (← LowerM.sub δ (.const a))
  | .gt =>
    requireGated P b (← LowerM.sub δ (.const a))
    requireGated P notB (← LowerM.sub (.const e) δ)
  | .lt =>
    requireGated P b (← LowerM.sub (.const c) δ)
    requireGated P notB (← LowerM.add δ (.const e))
  | .eq =>
    requireGated P b (← LowerM.sub (.const e) δ)
    requireGated P b (← LowerM.add (.const e) δ)
    requireGated P notB (← LowerM.sub (← P.absolute δ) (.const a))
  | .ne =>
    let magnitude ← P.absolute δ
    requireGated P b (← LowerM.sub magnitude (.const a))
    requireGated P notB (← LowerM.sub (.const e) magnitude)

theorem amounts_gates (hP : Documented P) (k : Comparison) {notB : Expr} {e a c : Number Exact}
    (hε : IsTolerance e ε) (ha : a.exact = .finite (11 / 10 * ε))
    (hc : c.exact = .finite (-(11 / 10 * ε))) (hb : b.number? = none) (hnotB : notB.number? = none) :
    Amounts (gates P k b notB δ e a c) [notB, b, δ, .const e, .const a, .const c]
      (Compares σ b notB δ) fun ρ =>
        value ρ b = .finite 1 ↔ k.Relates ((semantics σ).int ρ δ) 0 := by
  have hbinary' : ∀ ρ, Compares σ b notB δ ρ → IsBinary (value ρ notB) :=
    fun _ h => (h.binary.complement h.complement).1
  have he : ∀ ρ, Compares σ b notB δ ρ → value ρ (.const e) = .finite ε :=
    fun ρ _ => (value_const e).trans hε.exact_eq
  have ha : ∀ ρ, Compares σ b notB δ ρ → value ρ (.const a) = .finite (11 / 10 * ε) :=
    fun ρ _ => (value_const a).trans ha
  have hc : ∀ ρ, Compares σ b notB δ ρ → value ρ (.const c) = .finite (-(11 / 10 * ε)) :=
    fun ρ _ => (value_const c).trans hc
  have habsolute : ∀ ⦃G s t s'⦄, World G s.nextHandle →
      (∀ u ∈ [notB, b, δ, .const e, .const a, .const c], u ∈ G) → (P.absolute δ).Runs s t s' →
        True ∧ Silent.Gives G s t s' fun ρ v => ∀ q, value ρ δ = .finite q → v = .finite |q| :=
    fun G s t s' hw hmem hr => ⟨trivial, hP.absolute hw (hmem δ (by simp)) hr⟩
  cases k with
  | ge =>
    refine Compares.amounts
      (amounts_requireGated_add hP hb (by simp) (by simp) (by simp) (fun _ h => h.binary)
        (fun _ h => h.integral) he)
      (amounts_requireGated_sub hP hnotB (by simp) (by simp) (by simp) hbinary' hc
        fun _ h => h.integral) (fun ρ => ?_) fun ρ => ?_
    · rw [← neg_le_iff_add_nonneg']
      exact hε.neg_le_iff _
    · exact (hε.le_neg_iff _).trans not_le.symm
  | le =>
    exact Compares.amounts
      (amounts_requireGated_sub hP hb (by simp) (by simp) (by simp) (fun _ h => h.binary) he
        fun _ h => h.integral)
      (amounts_requireGated_sub hP hnotB (by simp) (by simp) (by simp) hbinary'
        (fun _ h => h.integral) ha)
      (fun ρ => hε.le_iff _) fun ρ => (hε.threshold_le_iff _).trans not_le.symm
  | gt =>
    exact Compares.amounts
      (amounts_requireGated_sub hP hb (by simp) (by simp) (by simp) (fun _ h => h.binary)
        (fun _ h => h.integral) ha)
      (amounts_requireGated_sub hP hnotB (by simp) (by simp) (by simp) hbinary' he
        fun _ h => h.integral)
      (fun ρ => hε.threshold_le_iff _) fun ρ => (hε.le_iff _).trans not_lt.symm
  | lt =>
    refine Compares.amounts
      (amounts_requireGated_sub hP hb (by simp) (by simp) (by simp) (fun _ h => h.binary) hc
        fun _ h => h.integral)
      (amounts_requireGated_add hP hnotB (by simp) (by simp) (by simp) hbinary'
        (fun _ h => h.integral) he) (fun ρ => hε.le_neg_iff _) fun ρ => ?_
    rw [← neg_le_iff_add_nonneg']
    exact (hε.neg_le_iff _).trans not_lt.symm
  | eq =>
    have hlast : Amounts (do requireGated P notB (← LowerM.sub (← P.absolute δ) (.const a)))
        [notB, b, δ, .const e, .const a, .const c] (Compares σ b notB δ) fun ρ =>
          value ρ notB = .finite 1 → 11 / 10 * ε ≤ |((semantics σ).int ρ δ : ℚ)| :=
      Amounts.bind habsolute fun m _ => amounts_requireGated_sub hP hnotB (by simp) (by simp)
        (by simp) (fun ρ h => hbinary' ρ h.1) (fun ρ h => h.2 _ h.1.integral) fun ρ h => ha ρ h.1
    refine ((amounts_requireGated_sub hP hb (by simp) (by simp) (by simp) (fun _ h => h.binary)
      he fun _ h => h.integral).bind_seq ((amounts_requireGated_add hP hb (by simp) (by simp)
        (by simp) (fun _ h => h.binary) he fun _ h => h.integral).bind_seq hlast)).mono
      (fun _ h => .inl h) (fun _ h => h) fun ρ hρ => ?_
    rw [← and_assoc, ← imp_and]
    refine hρ.iff ?_ ?_
    · rw [hε.le_iff, ← neg_le_iff_add_nonneg, hε.neg_le_iff]
      exact le_antisymm_iff.symm
    · rw [← Int.cast_abs, hε.threshold_le_iff]
      exact abs_pos
  | ne =>
    refine (Amounts.bind habsolute fun m _ => (amounts_requireGated_sub hP hb (by simp) (by simp)
      (by simp) (fun _ h => h.1.binary) (fun ρ h => h.2 _ h.1.integral) fun ρ h => ha ρ h.1).bind_seq
        (amounts_requireGated_sub hP hnotB (by simp) (by simp) (by simp)
          (fun ρ h => hbinary' ρ h.1) (fun ρ h => he ρ h.1) fun ρ h => h.2 _ h.1.integral)).mono
      (fun _ h => .inl h) (fun _ h => h) fun ρ hρ => hρ.iff ?_ ?_
    · rw [← Int.cast_abs, hε.threshold_le_iff]
      exact abs_pos
    · rw [← Int.cast_abs, hε.le_iff]
      exact abs_nonpos_iff.trans not_not.symm

/-- A new binary variable is one exactly where a comparison with zero holds. -/
theorem amounts_compare (hP : Documented P) (k : Comparison) {e a c : Number Exact}
    (hε : IsTolerance e ε) (ha : a.exact = .finite (11 / 10 * ε))
    (hc : c.exact = .finite (-(11 / 10 * ε))) (hb : b.number? = none) :
    Amounts (do
      let notB ← LowerM.sub (integer 1) b
      gates P k b notB δ e a c) [b, δ]
      (fun ρ => IsBinary (value ρ b) ∧ ∀ a ∈ [δ], (semantics σ).Integral ρ a)
      fun ρ => value ρ b = .finite 1 ↔ k.Relates ((semantics σ).int ρ δ) 0 := by
  refine Amounts.mono (?_ : Amounts _ [b, δ, .const e, .const a, .const c]
    (fun ρ => IsBinary (value ρ b) ∧ value ρ δ = .finite ((semantics σ).int ρ δ : ℤ)) _) ?_
    (fun ρ hρ => ⟨hρ.1, value_eq (hρ.2 δ (by simp))⟩) (fun _ _ => Iff.rfl)
  · refine Amounts.bind (T := fun t => t.number? = none)
      (V := fun ρ v => v = (Exact.finite 1).sub (value ρ b)) (makes_complement hb (by simp)) ?_
    intro notB hnotB
    exact (amounts_gates hP k hε ha hc hb hnotB).mono (fun _ h => .inl h)
      (fun ρ hρ => ⟨hρ.1.1, hρ.2, hρ.1.2⟩) fun _ _ => Iff.rfl
  · intro u hu
    simp only [List.mem_cons, List.not_mem_nil, or_false] at hu
    rcases hu with rfl | rfl | rfl | rfl | rfl <;> simp [Handle.isNumber]

theorem relates_sub (k : Comparison) (m n : ℤ) : k.Relates (m - n) 0 ↔ k.Relates m n := by
  cases k <;> simp [Comparison.Relates, sub_eq_zero]

theorem computes_reify (hP : Documented P) (k : Comparison) (x y : Expr) :
    (semantics σ).Computes (reify P k x y) [x, y]
      (fun ρ n => n = indicator (k.Relates ((semantics σ).int ρ x) ((semantics σ).int ρ y)))
      fun _ => True := by
  intro G s h s' hv hargs hr
  obtain ⟨ε, hε⟩ := hv.tables.tolerance
  obtain ⟨e, _, heps, hr⟩ := runs_bind.mp hr
  obtain ⟨rfl, rfl⟩ := runs_epsilon.mp heps
  obtain ⟨a, _, habove, hr⟩ := runs_bind.mp hr
  obtain ⟨rfl, ha⟩ := runs_threshold hε.exact_eq habove
  obtain ⟨c, _, hbelow, hr⟩ := runs_bind.mp hr
  obtain ⟨rfl, hc⟩ := runs_negatedThreshold hε.exact_eq hbelow
  obtain ⟨δ, s₁, hsub, hr⟩ := runs_bind.mp hr
  obtain ⟨G₁, g₁, u₁, b₁, e₁⟩ := computes_of_derives (derives_sub x y) hv hargs hsub
  have hindicator := computes_indicator (σ := σ) hP "cmp" [δ] _
    (fun b hb => amounts_compare hP k hε ha hc hb) (by
      intro ρ ρ' hsame
      have h : (semantics σ).int ρ δ = (semantics σ).int ρ' δ :=
        congrArg intOf (hsame δ (List.mem_singleton_self _))
      rw [h]
      exact id)
  obtain ⟨G₂, g₂, u₂, b₂, e₂⟩ := hindicator g₁.valid (by simpa using u₁) (by
    cases k <;> simpa only [gates, bind_assoc] using hr)
  refine ⟨G₂, g₁.trans g₂, u₂, fun ρ hρ => ?_, ?_⟩
  · rw [b₂ ρ hρ]
    refine indicator_congr ?_
    rw [b₁ ρ (g₂.admits ρ hρ), relates_sub]
  · exact e₁.trans_always g₁.toGrows g₂.toGrows e₂

/-! ### Truth -/

theorem between_noUpper (l q : ℚ) :
    Between (.finite l) (noUpper : Number Exact).exact (.finite q) ↔ l ≤ q := by
  simp [Between, noUpper, Exact.le, Exact.lt, Exact.eq, le_iff_lt_or_eq]

theorem between_noLower (u q : ℚ) :
    Between (noLower : Number Exact).exact (.finite u) (.finite q) ↔ q ≤ u := by
  simp [Between, noLower, Exact.le, Exact.lt, Exact.eq, le_iff_lt_or_eq]

theorem between_zero_noUpper (q : ℚ) :
    Between (realZero : Number Exact).exact (noUpper : Number Exact).exact (.finite q) ↔ 0 ≤ q :=
  between_noUpper 0 q

theorem between_noLower_zero (q : ℚ) :
    Between (noLower : Number Exact).exact (realZero : Number Exact).exact (.finite q) ↔ q ≤ 0 :=
  between_noLower 0 q

/-- A magnitude is required to reach the second threshold where a binary variable is one. -/
theorem amounts_above (hP : Documented P) {a : Number Exact} {q : ℚ} (ha : a.exact = .finite q)
    {m : Expr} {f : (HandleId → ℚ) → ℚ} (hb : b.number? = none) (hbmem : b ∈ args) (hm : m ∈ args)
    (hW : ∀ ρ, W ρ → IsBinary (value ρ b) ∧ value ρ m = .finite |f ρ|) :
    Amounts (do
      constrain P (← LowerM.sub m (← LowerM.mul (.const a) b)) realZero noUpper) args W
      fun ρ => value ρ b = .finite 1 → q ≤ |f ρ| := by
  refine Amounts.mono (?_ : Amounts _ (.const a :: args) W _) (fun u hu => ?_) (fun _ h => h)
    fun _ _ => Iff.rfl
  · refine Amounts.bind_mul (by simp) (by simp [hbmem]) fun p hp =>
      Amounts.bind_sub (by simp [hm]) (by simp) fun d hd =>
        (amounts_constrain (W := fun _ => True) hP (hd (.inr (hp (.inr hb)))) (by simp) _ _).mono
          (fun _ h => .inl h) (fun _ _ => trivial) ?_
    rintro ρ ⟨⟨hρ, hpvalue⟩, hdvalue⟩
    obtain ⟨hbinary, hmvalue⟩ := hW ρ hρ
    rw [value_const, ha] at hpvalue
    rcases hbinary with h0 | h1
    · rw [hdvalue, hpvalue, hmvalue, h0, Exact.finite_mul, mul_zero, Exact.finite_sub, sub_zero,
        between_zero_noUpper]
      exact iff_of_true (abs_nonneg _) fun h => absurd h (by simp)
    · rw [hdvalue, hpvalue, hmvalue, h1, Exact.finite_mul, mul_one, Exact.finite_sub,
        between_zero_noUpper, sub_nonneg]
      exact ⟨fun h _ => h, fun h => h rfl⟩
  · rcases List.mem_cons.mp hu with rfl | hu
    · exact .inr rfl
    · exact .inl hu

/-- A magnitude is required to stay within the first threshold where a gate is one. -/
theorem amounts_below (hP : Documented P) {e : Number Exact} (he : e.exact = .finite ε)
    {m : Expr} {f : (HandleId → ℚ) → ℚ} (hb : b.number? = none) (hbmem : b ∈ args) (hm : m ∈ args)
    (hW : ∀ ρ, W ρ → IsBinary (value ρ b) ∧ value ρ m = .finite |f ρ|) :
    Amounts (do
      constrain P (← gated P b (← LowerM.sub m (.const e))) noLower realZero) args W
      fun ρ => value ρ b = .finite 1 → |f ρ| ≤ ε := by
  refine Amounts.mono (?_ : Amounts _ (.const e :: args) W _) (fun u hu => ?_) (fun _ h => h)
    fun _ _ => Iff.rfl
  · refine Amounts.bind_sub (by simp [hm]) (by simp) fun d hd =>
      (amounts_gated hP hb ((between_noLower_zero 0).mpr le_rfl)).mono ?_ ?_ ?_
    · intro u hu
      rcases List.mem_pair.mp hu with rfl | rfl <;> simp [hbmem]
    · rintro ρ ⟨hρ, hdvalue⟩
      obtain ⟨hbinary, hmvalue⟩ := hW ρ hρ
      exact ⟨hbinary, _, by rw [hdvalue, hmvalue, value_const, he, Exact.finite_sub]⟩
    · rintro ρ ⟨hρ, hdvalue⟩
      obtain ⟨-, hmvalue⟩ := hW ρ hρ
      rw [hdvalue, hmvalue, value_const, he, Exact.finite_sub, between_noLower_zero,
        sub_nonpos]
  · rcases List.mem_cons.mp hu with rfl | hu
    · exact .inr rfl
    · exact .inl hu

/-- A new binary variable is one exactly where a term is not zero. -/
theorem amounts_truth (hP : Documented P) {e a : Number Exact} (hε : IsTolerance e ε)
    (ha : a.exact = .finite (11 / 10 * ε)) (hb : b.number? = none) :
    Amounts (do
      let magnitude ← P.absolute h
      constrain P (← LowerM.sub magnitude (← LowerM.mul (.const a) b)) realZero noUpper
      let notB ← LowerM.sub (integer 1) b
      constrain P (← gated P notB (← LowerM.sub magnitude (.const e))) noLower realZero) [b, h]
      (fun ρ => IsBinary (value ρ b) ∧ ∀ a ∈ [h], (semantics σ).Integral ρ a)
      fun ρ => value ρ b = .finite 1 ↔ (semantics σ).int ρ h ≠ 0 := by
  refine Amounts.bind (T := fun _ => True) (V := fun ρ v => ∀ q, value ρ h = .finite q →
    v = .finite |q|) (fun G s t s' hw hmem hr => ⟨trivial, hP.absolute hw (hmem h (by simp)) hr⟩) ?_
  intro m _
  refine Amounts.mono (?_ : Amounts _ [m, b, h] (fun ρ => IsBinary (value ρ b) ∧
    value ρ m = .finite |((semantics σ).int ρ h : ℚ)|)
    fun ρ => value ρ b = .finite 1 ↔ (semantics σ).int ρ h ≠ 0)
    (fun _ h => .inl h) (fun ρ hρ => ⟨hρ.1.1, hρ.2 _ (value_eq (hρ.1.2 h (by simp)))⟩)
    fun _ _ => Iff.rfl
  have hrest : Amounts (do
      let notB ← LowerM.sub (integer 1) b
      constrain P (← gated P notB (← LowerM.sub m (.const e))) noLower realZero) [m, b, h]
      (fun ρ => IsBinary (value ρ b) ∧ value ρ m = .finite |((semantics σ).int ρ h : ℚ)|)
      fun ρ => value ρ b ≠ .finite 1 → |((semantics σ).int ρ h : ℚ)| ≤ ε := by
    refine Amounts.bind (T := fun t => t.number? = none)
      (V := fun ρ v => v = (Exact.finite 1).sub (value ρ b)) (makes_complement hb (by simp))
      fun k hk => (amounts_below hP hε.exact_eq hk (f := fun ρ => ((semantics σ).int ρ h : ℚ))
        (by simp) (by simp) fun ρ hρ => ⟨(hρ.1.1.complement hρ.2).1, hρ.1.2⟩).mono
          (fun _ h => .inl h) (fun _ h => h) ?_
    rintro ρ ⟨⟨hbinary, -⟩, hk⟩
    rw [(hbinary.complement hk).2]
  have hboth := (amounts_above hP ha (f := fun ρ => ((semantics σ).int ρ h : ℚ)) hb (by simp)
    (by simp) fun _ h => h).seq hrest
  simp only [bind_assoc] at hboth
  refine hboth.mono (fun _ h => .inl h) (fun _ h => h) fun ρ hρ => ?_
  simp only [← Int.cast_abs, hε.threshold_le_iff, hε.le_iff, abs_pos, abs_nonpos_iff]
  tauto

theorem computes_newTruth (hP : Documented P) (h : Expr) : (semantics σ).Computes (newTruth P h) [h]
    (fun ρ n => n = indicator ((semantics σ).int ρ h ≠ 0)) fun _ => True := by
  intro G s b s' hv hargs hr
  obtain ⟨ε, hε⟩ := hv.tables.tolerance
  obtain ⟨e, _, heps, hr⟩ := runs_bind.mp hr
  obtain ⟨rfl, rfl⟩ := runs_epsilon.mp heps
  obtain ⟨a, _, habove, hr⟩ := runs_bind.mp hr
  obtain ⟨rfl, ha⟩ := runs_threshold hε.exact_eq habove
  refine computes_indicator hP "bool" [h] _
    (fun b hb => amounts_truth hP hε ha hb) (fun ρ ρ' hsame => ?_) hv hargs
    (by simpa only [bind_assoc] using hr)
  have heq : (semantics σ).int ρ h = (semantics σ).int ρ' h :=
    congrArg intOf (hsame h (List.mem_singleton_self _))
  rw [heq]
  exact id

theorem IsBinary.integral {v : Exact} (hv : IsBinary v) : ∃ n : ℤ, v = .finite n := by
  rcases hv with rfl | rfl
  · exact ⟨0, by simp⟩
  · exact ⟨1, by simp⟩

theorem usable_of_binary (hb : b ∈ G) (hbinary : ∀ ρ, Admitted ρ s → IsBinary (value ρ b)) :
    (semantics σ).Usable G s b :=
  usable_of_held (held_iff.mpr ⟨hb, fun ρ hρ => (hbinary ρ hρ).integral⟩)

theorem isBinary_indicator {p : Prop} [Decidable p] : IsBinary (.finite (indicator p : ℤ)) := by
  rcases indicator_cases (p := p) with h | h <;> simp [h, IsBinary]

/-- A handle is zero exactly where its integer is. -/
theorem value_eq_zero (hi : (semantics σ).Integral ρ h) :
    value ρ h = .finite 0 ↔ (semantics σ).int ρ h = 0 := by
  rw [value_eq hi, Exact.finite.injEq, Int.cast_eq_zero]

/-- What is zero or one, and zero where a handle is, is the truth value of the handle. -/
theorem IsBinary.eq_truth {v : Exact} (hv : IsBinary v) (hi : (semantics σ).Integral ρ h)
    (hzero : v = .finite 0 ↔ value ρ h = .finite 0) :
    v = .finite (indicator ((semantics σ).int ρ h ≠ 0) : ℤ) := by
  rw [value_eq_zero hi] at hzero
  by_cases h0 : (semantics σ).int ρ h = 0
  · rw [hzero.mpr h0, indicator_eq_zero.mpr (not_not.mpr h0), Int.cast_zero]
  · rw [hv.resolve_left fun h => h0 (hzero.mp h), indicator_eq_one.mpr h0, Int.cast_one]

theorem truth_spec (hP : Documented P) (hv : (semantics σ).Valid G s)
    (hu : (semantics σ).Usable G s h) (hr : (truth P h).Runs s b s') :
    ∃ G', (semantics σ).Step G s G' s' ∧ b ∈ G' ∧
      (∀ ρ, Admitted ρ s' → value ρ b = .finite (indicator ((semantics σ).int ρ h ≠ 0) : ℤ)) ∧
      (semantics σ).Extends s s' fun _ => True := by
  unfold truth at hr
  split at hr
  · rename_i x hx
    obtain rfl := Handle.eq_const hx
    obtain ⟨rfl, rfl⟩ := runs_pure.mp hr
    refine ⟨G, .refl hv, ?_, fun ρ hρ => IsBinary.eq_truth ?_ (hu.integral ρ hρ) ?_, .refl⟩
    · split <;> exact hv.world.const_mem _
    · split <;> simp [zero, one, scalar, IsBinary]
    · rw [value_const, ← isZero_iff]
      split <;> simp_all [zero, one, scalar]
  · rename_i hn hid
    exact absurd hid (Handle.id?_ne_none hn)
  · rename_i id hn hid
    obtain ⟨_, _, hget, hr⟩ := runs_bind.mp hr
    obtain ⟨rfl, rfl⟩ := runs_getSolver.mp hget
    split at hr
    · rename_i hknown
      obtain ⟨rfl, rfl⟩ := runs_pure.mp hr
      refine ⟨G, .refl hv, hu.mem, fun ρ hρ => ?_, .refl⟩
      obtain ⟨h', hh', hid', hbinary⟩ := hv.tables.binaries (by simpa using hknown)
      obtain rfl := hv.world.unique hu.mem hh' hid hid'
      exact (hbinary ρ hρ).eq_truth (hu.integral ρ hρ) Iff.rfl
    · split at hr
      · rename_i b' hfind
        obtain ⟨rfl, rfl⟩ := runs_pure.mp hr
        obtain ⟨hb, h', hh', hid', htruth⟩ := hv.tables.booleans (Table.mem_of_get? hfind)
        obtain rfl := hv.world.unique hu.mem hh' hid hid'
        exact ⟨G, .refl hv, hb, fun ρ hρ => (htruth ρ hρ).1.eq_truth (hu.integral ρ hρ)
          (htruth ρ hρ).2, .refl⟩
      · obtain ⟨b', s₁, hnew, hr⟩ := runs_bind.mp hr
        obtain ⟨_, s₂, hnote, hr⟩ := runs_bind.mp hr
        obtain ⟨rfl, rfl⟩ := runs_pure.mp hr
        obtain rfl := runs_modifySolver.mp hnote
        obtain ⟨G₁, g₁, u₁, b₁, e₁⟩ := computes_newTruth hP h hv (by simpa using hu) hnew
        have hvalue : ∀ ρ, Admitted ρ s₁ →
            value ρ b' = .finite (indicator ((semantics σ).int ρ h ≠ 0) : ℤ) := fun ρ hρ =>
          (value_eq (u₁.integral ρ hρ)).trans (by rw [b₁ ρ hρ])
        have g₂ : Settles G₁ s₁ G₁ { s₁ with
            solver := { s₁.solver with booleans := (id, b') :: s₁.solver.booleans } } fun _ => True := by
          refine settles_same g₁.valid subset_rfl g₁.valid.world le_rfl rfl rfl rfl rfl rfl rfl
            (fun _ hid => .inl hid) fun entry hentry => ?_
          rcases List.mem_cons.mp hentry with rfl | hentry
          · refine .inr ⟨u₁.mem, h, g₁.subset hu.mem, hid, fun ρ hρ => ?_⟩
            rw [hvalue ρ hρ, value_eq_zero (hu.integral ρ (g₁.admits ρ hρ))]
            exact ⟨isBinary_indicator, by simp⟩
          · exact .inl hentry
        refine ⟨G₁, g₁.trans g₂.toStep, u₁.mem, fun ρ hρ => hvalue ρ (g₂.admits ρ hρ), ?_⟩
        exact e₁.trans_always g₁.toGrows g₂.toGrows (g₂.extends_.mono fun _ _ _ => trivial)

theorem computes_complement (hP : Documented P) (x : Expr) :
    (semantics σ).Computes (complement P x) [x]
      (fun ρ n => n = indicator ((semantics σ).int ρ x = 0)) fun _ => True := by
  intro G s h s' hv hargs hr
  obtain ⟨b, s₁, htruth, hr⟩ := runs_bind.mp hr
  obtain ⟨G₁, g₁, hb, hvalue, e₁⟩ := truth_spec hP hv (hargs x (by simp)) htruth
  have hnot : ∀ ρ, Admitted ρ s₁ → (Exact.finite 1).sub (value ρ b) =
      .finite (indicator ((semantics σ).int ρ x = 0) : ℤ) := by
    intro ρ hρ
    rw [hvalue ρ hρ, indicator_not, Exact.finite_sub]
    simp
  split at hr
  · rename_i n hn
    obtain rfl := Handle.eq_const hn
    obtain ⟨rfl, rfl⟩ := runs_pure.mp hr
    have hvalue' : ∀ ρ, Admitted ρ s₁ → value ρ (.const (realOne.sub n)) =
        .finite (indicator ((semantics σ).int ρ x = 0) : ℤ) := by
      intro ρ hρ
      rw [value_const, exact_sub, ← hnot ρ hρ, value_const]
      rfl
    obtain ⟨u, hint⟩ := usable_of_value (g₁.valid.world.const_mem _) hvalue'
    exact ⟨G₁, g₁, u, hint, e₁⟩
  · obtain ⟨c, s₂, hsub, hmark⟩ := runs_bind.mp hr
    obtain ⟨G₂, hs, hc, hcvalue⟩ := gives_sub g₁.valid.world (g₁.valid.world.const_mem (.int 1)) hb hsub
    have g₂ := hs.settles g₁.valid
    have hvalue' : ∀ ρ, Admitted ρ s₂ →
        value ρ c = .finite (indicator ((semantics σ).int ρ x = 0) : ℤ) := by
      intro ρ hρ
      rw [hcvalue, ← hnot ρ (g₂.admits ρ hρ), value_const, exact_int, Int.cast_one]
    obtain ⟨rfl, g₃⟩ := markBinary_settles g₂.valid hc
      (fun ρ hρ => hvalue' ρ hρ ▸ isBinary_indicator) hmark
    obtain ⟨u, hint⟩ := usable_of_value hc fun ρ hρ => hvalue' ρ (g₃.admits ρ hρ)
    exact ⟨G₂, g₁.trans (g₂.trans g₃).toStep, u, hint,
      e₁.trans_always g₁.toGrows (g₂.trans g₃).toGrows ((g₂.after g₃).extends_)⟩

/-! ### Conjunctions and disjunctions -/

/-- A product of truth values. -/
theorem gated_truth (hP : Documented P) {p q : (HandleId → ℚ) → Prop} [∀ ρ, Decidable (p ρ)]
    [∀ ρ, Decidable (q ρ)] (hw : World G s.nextHandle) (hb : b ∈ G) (hh : h ∈ G)
    (hbvalue : ∀ ρ, Admitted ρ s → value ρ b = .finite (indicator (p ρ) : ℤ))
    (hvalue : ∀ ρ, Admitted ρ s → value ρ h = .finite (indicator (q ρ) : ℤ))
    (hr : (gated P b h).Runs s k s') : ∃ G', Silent G s G' s' ∧ k ∈ G' ∧
      ∀ ρ, Admitted ρ s → value ρ k = .finite (indicator (p ρ ∧ q ρ) : ℤ) := by
  obtain ⟨G', hs, hk, hkvalue⟩ := gives_gated hP hw hb hh hr
  refine ⟨G', hs, hk, fun ρ hρ => ?_⟩
  obtain ⟨h0, h1⟩ := hkvalue ρ _ (hvalue ρ hρ)
  rw [hbvalue ρ hρ] at h0 h1
  by_cases hp : p ρ
  · rw [h1 (by simp [indicator_eq_one.mpr hp])]
    simp [hp]
  · rw [h0 (by simp [indicator_eq_zero.mpr hp]), indicator_eq_zero.mpr fun h => hp h.1]
    simp

theorem conjoinFrom_spec (hP : Documented P) {p : (HandleId → ℚ) → Prop} [∀ ρ, Decidable (p ρ)]
    {result : Expr} (hv : (semantics σ).Valid G s) (hargs : ∀ h ∈ hs, (semantics σ).Usable G s h)
    (hresult : result ∈ G)
    (hvalue : ∀ ρ, Admitted ρ s → value ρ result = .finite (indicator (p ρ) : ℤ))
    (hr : (conjoinFrom P result hs).Runs s k s') :
    ∃ G', (semantics σ).Step G s G' s' ∧ k ∈ G' ∧
      (∀ ρ, Admitted ρ s' → value ρ k =
        .finite (indicator (p ρ ∧ ∀ h ∈ hs, (semantics σ).int ρ h ≠ 0) : ℤ)) ∧
      (semantics σ).Extends s s' fun _ => True := by
  induction hs generalizing G s result p with
  | nil =>
    obtain ⟨rfl, g⟩ := markBinary_settles hv hresult
      (fun ρ hρ => hvalue ρ hρ ▸ isBinary_indicator) hr
    refine ⟨G, g.toStep, hresult, fun ρ hρ => ?_, g.extends_⟩
    rw [hvalue ρ (g.admits ρ hρ)]
    simp
  | cons h hs ih =>
    obtain ⟨b, s₁, htruth, hr⟩ := runs_bind.mp hr
    obtain ⟨G₁, g₁, hb, hbvalue, e₁⟩ := truth_spec hP hv (hargs h (by simp)) htruth
    obtain ⟨result', s₂, hgate, hr⟩ := runs_bind.mp hr
    obtain ⟨G₂, hsilent, hresult', hvalue'⟩ := gated_truth hP g₁.valid.world (g₁.subset hresult) hb
      (fun ρ hρ => hvalue ρ (g₁.admits ρ hρ)) hbvalue hgate
    have g₂ := hsilent.settles g₁.valid
    have e₂ := e₁.trans_always g₁.toGrows g₂.toGrows g₂.extends_
    have hvalue₂ : ∀ ρ, Admitted ρ s₂ → value ρ result' =
        .finite (indicator (p ρ ∧ (semantics σ).int ρ h ≠ 0) : ℤ) :=
      fun ρ hρ => hvalue' ρ (g₂.admits ρ hρ)
    split at hr
    · rename_i hzero
      obtain ⟨rfl, rfl⟩ := runs_pure.mp hr
      obtain ⟨x, hx, hzero⟩ := (Option.any_eq_true _ _).mp hzero
      obtain rfl := Handle.eq_const hx
      refine ⟨G₂, g₁.trans g₂.toStep, g₂.valid.world.const_mem _, fun ρ hρ => ?_, e₂⟩
      have hvalue := hvalue₂ ρ hρ
      rw [value_const, isZero_iff.mp hzero, Exact.finite.injEq, eq_comm, Int.cast_eq_zero,
        indicator_eq_zero] at hvalue
      rw [indicator_eq_zero.mpr fun h => hvalue ⟨h.1, h.2 _ (by simp)⟩]
      simp [zero, scalar]
    · obtain ⟨G₃, g₃, hk, hkvalue, e₃⟩ := ih g₂.valid (fun a ha =>
        (hargs a (by simp [ha])).mono (g₁.trans g₂.toStep).toGrows) hresult' hvalue₂ hr
      refine ⟨G₃, g₁.trans (g₂.toStep.trans g₃), hk, fun ρ hρ => ?_,
        e₂.trans_always (g₁.trans g₂.toStep).toGrows g₃.toGrows e₃⟩
      have hiff : ((p ρ ∧ (semantics σ).int ρ h ≠ 0) ∧ ∀ h ∈ hs, (semantics σ).int ρ h ≠ 0) ↔
          p ρ ∧ ∀ h' ∈ h :: hs, (semantics σ).int ρ h' ≠ 0 := by
        rw [and_assoc, List.forall_mem_cons]
      rw [hkvalue ρ hρ, indicator_congr hiff]

theorem computes_conjoin (hP : Documented P) (hs : List Expr) :
    (semantics σ).Computes (conjoin P hs) hs
      (fun ρ n => n = indicator (∀ h ∈ hs, (semantics σ).int ρ h ≠ 0)) fun _ => True := by
  intro G s k s' hv hargs hr
  obtain ⟨G', g, hk, hvalue, e⟩ := conjoinFrom_spec hP (p := fun _ => True) hv hargs
    (hv.world.const_mem _) (fun ρ _ => by simp [indicator]) hr
  simp only [true_and] at hvalue
  obtain ⟨u, hint⟩ := usable_of_value hk hvalue
  exact ⟨G', g, u, hint, e⟩

/-- The truth values that are left open decide a disjunction; of none left, one is true. -/
theorem openTruths_spec (hP : Documented P) {o : Option (List Expr)} (hv : (semantics σ).Valid G s)
    (hargs : ∀ h ∈ hs, (semantics σ).Usable G s h) (hr : (openTruths P hs).Runs s o s') :
    ∃ G', (semantics σ).Step G s G' s' ∧ (semantics σ).Extends s s' (fun _ => True) ∧
      (o = none → ∀ ρ, Admitted ρ s' → ∃ h ∈ hs, (semantics σ).int ρ h ≠ 0) ∧
      ∀ bs, o = some bs → (∀ b ∈ bs, b ∈ G' ∧ ∀ ρ, Admitted ρ s' → IsBinary (value ρ b)) ∧
        ∀ ρ, Admitted ρ s' → ((∃ h ∈ hs, (semantics σ).int ρ h ≠ 0) ↔
          ∃ b ∈ bs, (semantics σ).int ρ b ≠ 0) := by
  induction hs generalizing G s o with
  | nil =>
    obtain ⟨rfl, rfl⟩ := runs_pure.mp hr
    refine ⟨G, .refl hv, .refl, (fun h => nomatch h), fun bs hbs => ?_⟩
    cases hbs
    simp
  | cons h hs ih =>
    obtain ⟨b, s₁, htruth, hr⟩ := runs_bind.mp hr
    obtain ⟨G₁, g₁, hb, hvalue, e₁⟩ := truth_spec hP hv (hargs h (by simp)) htruth
    have hargs₁ : ∀ h ∈ hs, (semantics σ).Usable G₁ s₁ h :=
      fun h hh => (hargs h (by simp [hh])).mono g₁.toGrows
    have hcons : ∀ ρ, Admitted ρ s₁ → ((∃ k ∈ h :: hs, (semantics σ).int ρ k ≠ 0) ↔
        (semantics σ).int ρ b ≠ 0 ∨ ∃ k ∈ hs, (semantics σ).int ρ k ≠ 0) := by
      intro ρ hρ
      rw [int_eq (hvalue ρ hρ), ne_eq (indicator _), indicator_eq_zero, not_not]
      simp
    split at hr
    · rename_i x hx
      obtain rfl := Handle.eq_const hx
      have hx : ∀ ρ, Admitted ρ s₁ → (x.isZero = true ↔ (semantics σ).int ρ (.const x) = 0) := by
        intro ρ hρ
        rw [isZero_iff, ← value_const (ρ := ρ) x, value_eq_zero ⟨_, hvalue ρ hρ⟩]
      split at hr
      · rename_i hzero
        obtain ⟨G₂, g₂, e₂, hnone, hsome⟩ := ih g₁.valid hargs₁ hr
        refine ⟨G₂, g₁.trans g₂, e₁.trans_always g₁.toGrows g₂.toGrows e₂,
          fun ho ρ hρ => (hcons ρ (g₂.admits ρ hρ)).mpr (.inr (hnone ho ρ hρ)), fun bs hbs => ?_⟩
        obtain ⟨hbs, hiff⟩ := hsome bs hbs
        refine ⟨hbs, fun ρ hρ => ?_⟩
        have hρ₁ := g₂.admits ρ hρ
        rw [hcons ρ hρ₁, hiff ρ hρ, or_iff_right (not_not.mpr ((hx ρ hρ₁).mp hzero))]
      · rename_i hzero
        obtain ⟨rfl, rfl⟩ := runs_pure.mp hr
        exact ⟨G₁, g₁, e₁, fun _ ρ hρ => (hcons ρ hρ).mpr (.inl fun h0 => hzero ((hx ρ hρ).mpr h0)),
          fun bs hbs => nomatch hbs⟩
    · obtain ⟨o', s₂, hrest, hr⟩ := runs_bind.mp hr
      obtain ⟨rfl, rfl⟩ := runs_pure.mp hr
      obtain ⟨G₂, g₂, e₂, hnone, hsome⟩ := ih g₁.valid hargs₁ hrest
      refine ⟨G₂, g₁.trans g₂, e₁.trans_always g₁.toGrows g₂.toGrows e₂, fun ho ρ hρ => ?_,
        fun bs hbs => ?_⟩
      · exact (hcons ρ (g₂.admits ρ hρ)).mpr (.inr (hnone (Option.map_eq_none_iff.mp ho) ρ hρ))
      · obtain ⟨bs, rfl, rfl⟩ := Option.map_eq_some_iff.mp hbs
        obtain ⟨hbs, hiff⟩ := hsome bs rfl
        refine ⟨List.forall_mem_cons.mpr ⟨⟨g₂.subset hb, fun ρ hρ => ?_⟩, hbs⟩, fun ρ hρ => ?_⟩
        · exact hvalue ρ (g₂.admits ρ hρ) ▸ isBinary_indicator
        · rw [hcons ρ (g₂.admits ρ hρ), hiff ρ hρ, List.exists_mem_cons_iff]

theorem int_binary (hb : IsBinary (value ρ b)) :
    (semantics σ).int ρ b = 0 ∨ (semantics σ).int ρ b = 1 :=
  hb.imp (fun h => int_eq (by simpa using h)) fun h => int_eq (by simpa using h)

theorem sum_ne_zero_iff {ns : List ℤ} (hns : ∀ n ∈ ns, 0 ≤ n) : ns.sum ≠ 0 ↔ ∃ n ∈ ns, n ≠ 0 := by
  rw [not_iff_comm]
  push Not
  exact ⟨fun h => List.sum_eq_zero h, fun h n hn =>
    List.all_zero_of_le_zero_le_of_sum_eq_zero hns h hn⟩

theorem computes_disjoin (hP : Documented P) (hs : List Expr) :
    (semantics σ).Computes (disjoin P hs) hs
      (fun ρ n => n = indicator (∃ h ∈ hs, (semantics σ).int ρ h ≠ 0)) fun _ => True := by
  intro G s k s' hv hargs hr
  obtain ⟨o, s₁, hopen, hr⟩ := runs_bind.mp hr
  obtain ⟨G₁, g₁, e₁, hnone, hsome⟩ := openTruths_spec hP hv hargs hopen
  split at hr
  · obtain ⟨rfl, rfl⟩ := runs_pure.mp hr
    obtain ⟨u, hint⟩ := usable_of_value (f := fun _ => 1) (h := one)
      (g₁.valid.world.const_mem _) (fun ρ hρ => by simp [one, scalar])
    exact ⟨G₁, g₁, u, fun ρ hρ => (hint ρ hρ).trans
      (indicator_eq_one.mpr (hnone rfl ρ hρ)).symm, e₁⟩
  · obtain ⟨rfl, rfl⟩ := runs_pure.mp hr
    obtain ⟨u, hint⟩ := usable_of_value (f := fun _ => 0) (h := zero)
      (g₁.valid.world.const_mem _) (fun ρ hρ => by simp [zero, scalar])
    exact ⟨G₁, g₁, u, fun ρ hρ => (hint ρ hρ).trans (indicator_eq_zero.mpr fun h => by
      simpa using ((hsome [] rfl).2 ρ hρ).mp h).symm, e₁⟩
  · rename_i b
    obtain ⟨rfl, rfl⟩ := runs_pure.mp hr
    obtain ⟨hbs, hiff⟩ := hsome [b] rfl
    obtain ⟨hb, hbinary⟩ := hbs b (by simp)
    refine ⟨G₁, g₁, usable_of_binary hb hbinary, fun ρ hρ => ?_, e₁⟩
    show (semantics σ).int ρ b = _
    rw [indicator_congr (hiff ρ hρ)]
    rcases int_binary (σ := σ) (hbinary ρ hρ) with h | h <;> simp [h, indicator]
  · rename_i bs _ _
    obtain ⟨hbs, hiff⟩ := hsome bs rfl
    obtain ⟨t, s₂, htotal, htruth⟩ := runs_bind.mp hr
    obtain ⟨G₂, g₂, u₂, b₂, e₂⟩ := computes_total hP bs g₁.valid (fun b hb =>
      usable_of_binary (hbs b hb).1 (hbs b hb).2) htotal
    obtain ⟨G₃, g₃, hk, hvalue, e₃⟩ := truth_spec hP g₂.valid u₂ htruth
    obtain ⟨u, hint⟩ := usable_of_value hk hvalue
    refine ⟨G₃, g₁.trans (g₂.trans g₃), u, fun ρ hρ => (hint ρ hρ).trans (indicator_congr ?_), ?_⟩
    · have hρ₂ := g₃.admits ρ hρ
      have hρ₁ := g₂.admits ρ hρ₂
      have hnonneg : ∀ n ∈ bs.map ((semantics σ).int ρ), 0 ≤ n := by
        intro n hn
        obtain ⟨b, hb, rfl⟩ := List.mem_map.mp hn
        rcases int_binary (σ := σ) ((hbs b hb).2 ρ hρ₁) with h | h <;> simp [h]
      rw [b₂ ρ hρ₂, sum_ne_zero_iff hnonneg, hiff ρ hρ₁]
      simp
    · exact e₁.trans_always g₁.toGrows (g₂.trans g₃).toGrows
        (e₂.trans_always g₂.toGrows g₃.toGrows e₃)

/-! ### Membership -/

theorem computes_membership (hP : Documented P) (x : Expr) (hs : List Expr) :
    (semantics σ).Computes (membership P x (hs.map some)) (x :: hs)
      (fun ρ n => n = indicator (∃ h ∈ hs, (semantics σ).int ρ x = (semantics σ).int ρ h))
      fun _ => True := by
  intro G s k s' hv hargs hr
  have hfilter : (hs.map some).filterMap id = hs := by simp [List.filterMap_map]
  obtain ⟨ts, s₁, htests, hdisjoin⟩ := runs_bind.mp hr
  rw [hfilter] at htests
  obtain ⟨G₁, g₁, hts, e₁⟩ := Semantics.steps_mapM (S := semantics σ) id (x :: hs)
    (K := fun _ _ => True) (P := fun h t ρ => (semantics σ).int ρ t =
      indicator ((semantics σ).int ρ x = (semantics σ).int ρ h)) (fun h hh G s t s' hv hargs ht => by
    have hboth : ∀ a ∈ [x, h], (semantics σ).Usable G s a := by
      simpa using ⟨hargs x (by simp), hargs h (by simp [hh])⟩
    refine ⟨trivial, ?_⟩
    split at ht
    · rename_i a c ha hc
      obtain rfl := Handle.eq_const ha
      obtain rfl := Handle.eq_const hc
      obtain ⟨rfl, rfl⟩ := runs_pure.mp ht
      obtain ⟨u, hint⟩ := usable_of_value (G := G) (h := if Numeral.holds .eq a c then one else zero)
        (f := fun ρ => indicator ((semantics σ).int ρ (.const a) = (semantics σ).int ρ (.const c)))
        (by split <;> exact hv.world.const_mem _) fun ρ hρ => by
          have hequal := holds_integral .eq ((hboth (.const a) (by simp)).integral ρ hρ)
            ((hboth (.const c) (by simp)).integral ρ hρ)
          rw [hequal]
          by_cases h : (semantics σ).int ρ (.const a) = (semantics σ).int ρ (.const c)
          · simp [h, Comparison.Relates, one, scalar, indicator]
          · simp [h, Comparison.Relates, zero, scalar, indicator]
      exact ⟨G, .refl hv, u, hint, .refl⟩
    · exact computes_reify hP .eq x h hv hboth ht) hv hargs htests
  have husable : ∀ t ∈ ts, (semantics σ).Usable G₁ s₁ t := by
    intro t ht
    obtain ⟨i, hi⟩ := List.mem_iff_getElem?.mp ht
    obtain ⟨_, -, -, hu, -⟩ := forall₂_getElem?_right hts hi
    exact hu
  obtain ⟨G₂, g₂, u₂, b₂, e₂⟩ := computes_disjoin hP ts g₁.valid husable hdisjoin
  refine ⟨G₂, g₁.trans g₂, u₂, fun ρ hρ => (b₂ ρ hρ).trans (indicator_congr ?_),
    e₁.trans_always g₁.toGrows g₂.toGrows e₂⟩
  have hρ₁ := g₂.admits ρ hρ
  clear hr htests hdisjoin b₂ husable hfilter hargs
  induction hts with
  | nil => simp
  | cons h _ ih =>
    simp only [List.exists_mem_cons_iff, ih, h.2.2 ρ hρ₁]
    simp

end DecisionModel.Tolerant
