import DecisionModel.Proofs.Tolerant.Additions
import DecisionModel.Proofs.Tolerant.Response

/-!
# The two thresholds

A comparison of terms is decided by their difference. Posted as a range, it accepts the differences of
`Accepts`: up to the first threshold `ε` where equality is allowed, and from the second threshold
`11 / 10 · ε` on where it is not. Reified, it becomes a binary variable that can be one where the
comparison accepts the difference and zero where its negation does (`choices_reify`), so never both,
and neither strictly between the thresholds. The truth value of a term is told from its absolute value
in the same way (`choices_newTruth`). None of this asks for integers, or for a small `ε`.
-/

namespace DecisionModel.Tolerant

open LowerM

variable {σ : Type} {P : Primitives Exact σ} {G G' : Set Expr} {s s' s₁ : TolerantState σ}
  {h b t x y δ notB : Expr} {args : List Expr} {W C C₁ C₂ : (HandleId → ℚ) → Prop}
  {f : (HandleId → ℚ) → ℚ} {ρ : HandleId → ℚ} {ε d : ℚ} {k : Comparison}

/-! ### Differences -/

/-- The differences that a comparison accepts when it is posted. -/
def Accepts (ε : ℚ) : Comparison → ℚ → Prop
  | .le, d => d ≤ ε
  | .lt, d => d ≤ -(11 / 10 * ε)
  | .ge, d => -ε ≤ d
  | .gt, d => 11 / 10 * ε ≤ d
  | .eq, d => |d| ≤ ε
  | .ne, d => 11 / 10 * ε ≤ |d|

/-- How far a difference is from what the weak one of a comparison and its negation asks for. -/
def excess : Comparison → ℚ → ℚ
  | .le, d | .gt, d => d
  | .ge, d | .lt, d => -d
  | .eq, d | .ne, d => |d|

/-- One of a comparison and its negation is weak, and the other is strict. -/
theorem accepts_cases (ε : ℚ) (k : Comparison) (d : ℚ) :
    (Accepts ε k d ↔ excess k d ≤ ε) ∧ (Accepts ε k.negate d ↔ 11 / 10 * ε ≤ excess k d) ∨
      (Accepts ε k d ↔ 11 / 10 * ε ≤ excess k d) ∧ (Accepts ε k.negate d ↔ excess k d ≤ ε) := by
  cases k with
  | le => exact .inl ⟨Iff.rfl, Iff.rfl⟩
  | gt => exact .inr ⟨Iff.rfl, Iff.rfl⟩
  | ge => exact .inl ⟨neg_le, le_neg⟩
  | lt => exact .inr ⟨le_neg, neg_le⟩
  | eq => exact .inl ⟨Iff.rfl, Iff.rfl⟩
  | ne => exact .inr ⟨Iff.rfl, Iff.rfl⟩

theorem not_accepts_both (hε : 0 < ε) : ¬ (Accepts ε k d ∧ Accepts ε k.negate d) := by
  rcases accepts_cases ε k d with ⟨h₁, h₂⟩ | ⟨h₁, h₂⟩ <;> rw [h₁, h₂] <;> rintro ⟨h, h'⟩ <;> linarith

theorem accepts_neither_iff : ¬ Accepts ε k d ∧ ¬ Accepts ε k.negate d ↔
    ε < excess k d ∧ excess k d < 11 / 10 * ε := by
  rcases accepts_cases ε k d with ⟨h₁, h₂⟩ | ⟨h₁, h₂⟩ <;> rw [h₁, h₂, not_le, not_le]
  exact and_comm

/-! ### Ranges over terms -/

/-- What is imposed on a term that is made for it. -/
theorem Imposes.bind {make : TolerantM Exact σ Expr} {m : Expr → TolerantM Exact σ Unit}
    {V : (HandleId → ℚ) → Exact → Prop}
    (hmake : ∀ ⦃G s t s'⦄, World G s.nextHandle → (∀ a ∈ args, a ∈ G) → make.Runs s t s' →
      t.number? = none ∧ Silent.Gives G s t s' V)
    (hm : ∀ t, t.number? = none →
      Imposes (m t) (t :: args) (fun ρ => W ρ ∧ V ρ (value ρ t)) C) :
    Imposes (make >>= m) args W C := by
  intro G s s' hw hmem hr
  obtain ⟨t, s₁, hfirst, hrest⟩ := runs_bind.mp hr
  obtain ⟨ht, G₁, hs, htmem, hvalue⟩ := hmake hw hmem hfirst
  obtain ⟨G', rs, hadds, hrs⟩ := hm t ht hs.world (by
    simpa using ⟨htmem, fun a ha => hs.subset (hmem a ha)⟩) hrest
  exact ⟨G', rs, hs.adds.trans hadds, fun ρ hρ => hrs ρ ⟨hρ, hvalue ρ⟩⟩

theorem Imposes.bind_seq {make : TolerantM Exact σ Expr} {m : Expr → TolerantM Exact σ Unit}
    {n : TolerantM Exact σ Unit} (h₁ : Imposes (make >>= m) args W C₁) (h₂ : Imposes n args W C₂) :
    Imposes (do let t ← make; m t; n) args W fun ρ => C₁ ρ ∧ C₂ ρ := by
  have h := h₁.seq h₂
  rwa [bind_assoc] at h

theorem Imposes.congr {m : TolerantM Exact σ Unit} (h : Imposes m args W C₁)
    (hC : ∀ ρ, W ρ → (C₁ ρ ↔ C₂ ρ)) : Imposes m args W C₂ := by
  intro G s s' hw hmem hr
  obtain ⟨G', rs, hadds, hrs⟩ := h hw hmem hr
  exact ⟨G', rs, hadds, fun ρ hρ => (hrs ρ hρ).trans (hC ρ hρ)⟩

theorem imposes_constrain (hP : Documented P) (hterm : h.number? = none) (hmem : h ∈ args)
    (lower upper : Number Exact) :
    Imposes (constrain P h lower upper) args W
      fun ρ => Between lower.exact upper.exact (value ρ h) := by
  intro G s s' hw hargs hr
  obtain ⟨G', name, hadds⟩ := adds_constrain hP hw (hargs h hmem) hterm hr
  exact ⟨G', _, hadds, fun ρ _ => List.forall_mem_singleton⟩

/-- A range over a gated term binds where the gate is one. -/
theorem imposes_gated (hP : Documented P) (hb : b.number? = none) (ht : t.number? = none)
    (hbmem : b ∈ args) (htmem : t ∈ args) {lower upper : Number Exact}
    (hzero : Between lower.exact upper.exact (.finite 0))
    (hW : ∀ ρ, W ρ → IsBinary (value ρ b) ∧ value ρ t = .finite (f ρ)) :
    Imposes (do constrain P (← gated P b t) lower upper) args W
      fun ρ => value ρ b = .finite 1 → Between lower.exact upper.exact (.finite (f ρ)) := by
  have hgated : gated P b t = P.gate b t := by simp only [gated, hb, ht]
  rw [hgated]
  refine Imposes.bind (fun G s t s' hw hmem hr => hP.gate hw (hmem b hbmem) (hmem _ htmem) hb ht hr)
    fun g hg => (imposes_constrain hP hg (by simp) lower upper).congr ?_
  rintro ρ ⟨hρ, hvalue⟩
  obtain ⟨hbinary, hterm⟩ := hW ρ hρ
  obtain ⟨h0, h1⟩ := hvalue _ hterm
  rcases hbinary with hb0 | hb1
  · rw [h0 hb0]
    exact iff_of_true hzero fun h => absurd (hb0.symm.trans h) (by simp)
  · rw [h1 hb1]
    exact ⟨fun h _ => h, fun h => h hb1⟩

/-- A term that is made is required to be non-negative where the gate is one. -/
theorem imposes_requireGated (hP : Documented P) (hb : b.number? = none) (hbmem : b ∈ args)
    {make : TolerantM Exact σ Expr}
    (hmake : ∀ ⦃G s t s'⦄, World G s.nextHandle → (∀ a ∈ args, a ∈ G) → make.Runs s t s' →
      t.number? = none ∧ Silent.Gives G s t s' fun ρ v => W ρ → v = .finite (f ρ))
    (hW : ∀ ρ, W ρ → IsBinary (value ρ b)) :
    Imposes (do requireGated P b (← make)) args W fun ρ => value ρ b = .finite 1 → 0 ≤ f ρ := by
  refine Imposes.bind hmake fun t ht => (imposes_gated (f := f) hP hb ht (by simp [hbmem]) (by simp)
    ((between_zero_noUpper 0).mpr le_rfl) ?_).congr fun ρ _ => ?_
  · rintro ρ ⟨hρ, hvalue⟩
    exact ⟨hW ρ hρ, hvalue hρ⟩
  · rw [between_zero_noUpper]

theorem makes_binaryTerm {op : Number Exact → Number Exact → Number Exact}
    {g : Exact → Exact → Exact} {symbol : SolverFunction}
    (hop : ∀ x y, (op x y).exact = g x.exact y.exact) (hsymbol : ∀ x y, apply symbol [x, y] = g x y)
    (hx : x ∈ args) (hy : y ∈ args) (hterm : x.number? = none ∨ y.number? = none) ⦃G : Set Expr⦄
    ⦃s : TolerantState σ⦄ ⦃t : Expr⦄ ⦃s' : TolerantState σ⦄ (hw : World G s.nextHandle)
    (hmem : ∀ a ∈ args, a ∈ G) (hr : (binary op symbol x y : TolerantM Exact σ Expr).Runs s t s') :
    t.number? = none ∧ Silent.Gives G s t s' fun ρ v => v = g (value ρ x) (value ρ y) :=
  ⟨number?_binary hr hterm, gives_binary hw hop hsymbol (hmem x hx) (hmem y hy) hr⟩

section

variable (hP : Documented P) (hb : b.number? = none) (hbmem : b ∈ args) (hx : x ∈ args) (hy : y ∈ args)
  (hterm : x.number? = none ∨ y.number? = none) {g : (HandleId → ℚ) → ℚ}
  (hW : ∀ ρ, W ρ → IsBinary (value ρ b) ∧ value ρ x = .finite (f ρ) ∧ value ρ y = .finite (g ρ))

include hP hb hbmem hx hy hterm hW

theorem imposes_requireGated_sub : Imposes (do requireGated P b (← LowerM.sub x y)) args W
    fun ρ => value ρ b = .finite 1 → g ρ ≤ f ρ := by
  refine (imposes_requireGated (f := fun ρ => f ρ - g ρ) hP hb hbmem (fun G s t s' hw hmem hr => ?_)
    fun ρ hρ => (hW ρ hρ).1).congr fun ρ _ => by rw [sub_nonneg]
  obtain ⟨ht, hgives⟩ := makes_binaryTerm exact_sub (fun _ _ => rfl) hx hy hterm hw hmem hr
  exact ⟨ht, hgives.mono fun ρ v hv hρ => by rw [hv, (hW ρ hρ).2.1, (hW ρ hρ).2.2, Exact.finite_sub]⟩

theorem imposes_requireGated_add : Imposes (do requireGated P b (← LowerM.add x y)) args W
    fun ρ => value ρ b = .finite 1 → -g ρ ≤ f ρ := by
  refine (imposes_requireGated (f := fun ρ => f ρ + g ρ) hP hb hbmem (fun G s t s' hw hmem hr => ?_)
    fun ρ hρ => (hW ρ hρ).1).congr fun ρ _ => by rw [neg_le_iff_add_nonneg]
  obtain ⟨ht, hgives⟩ := makes_binaryTerm exact_add (fun _ _ => rfl) hx hy hterm hw hmem hr
  exact ⟨ht, hgives.mono fun ρ v hv hρ => by rw [hv, (hW ρ hρ).2.1, (hW ρ hρ).2.2, Exact.finite_add]⟩

end

/-! ### Comparisons -/

/-- The primitives that truth is encoded with return, and an absolute value is a term. -/
structure Serves (P : Primitives Exact σ) : Prop where
  documented : Documented P
  responds : Responds P
  addAbove (h : Expr) {lower : Number Exact} {l : ℚ} (name : String) :
    lower.exact = .finite l → Returns (P.addRange h lower noUpper name)
  addBelow (h : Expr) {upper : Number Exact} {u : ℚ} (name : String) :
    upper.exact = .finite u → Returns (P.addRange h noLower upper name)
  absolute (h : Expr) : Returns (P.absolute h)
  absolute_term {h k : Expr} {s s' : TolerantState σ} : (P.absolute h).Runs s k s' → k.number? = none
  gate (b h : Expr) : Returns (P.gate b h)

theorem Serves.makes_absolute (hP : Serves P) (hx : x ∈ args) ⦃G : Set Expr⦄ ⦃s : TolerantState σ⦄
    ⦃t : Expr⦄ ⦃s' : TolerantState σ⦄ (hw : World G s.nextHandle) (hmem : ∀ a ∈ args, a ∈ G)
    (hr : (P.absolute x).Runs s t s') : t.number? = none ∧
      Silent.Gives G s t s' fun ρ v => ∀ q, value ρ x = .finite q → v = .finite |q| :=
  ⟨hP.absolute_term hr, hP.documented.absolute hw (hmem x hx) hr⟩

/-- A term with a finite value, and a gate with its complement. -/
structure GateInputs (b notB δ : Expr) (f : (HandleId → ℚ) → ℚ) (ρ : HandleId → ℚ) : Prop where
  binary : IsBinary (value ρ b)
  complement : IsBinary (value ρ notB)
  finite : value ρ δ = .finite (f ρ)

/-- The gated ranges of a comparison impose it where the gate is one, and its negation where the
complement is. -/
theorem imposes_gates (hP : Serves P) (k : Comparison) {e a c : Number Exact}
    (he : e.exact = .finite ε) (ha : a.exact = .finite (11 / 10 * ε))
    (hc : c.exact = .finite (-(11 / 10 * ε))) (hb : b.number? = none) (hnotB : notB.number? = none)
    (hδ : δ.number? = none) :
    Imposes (gates P k b notB δ e a c) [notB, b, δ, .const e, .const a, .const c]
      (GateInputs b notB δ f) fun ρ => (value ρ b = .finite 1 → Accepts ε k (f ρ)) ∧
        (value ρ notB = .finite 1 → Accepts ε k.negate (f ρ)) := by
  have he : ∀ ρ, value ρ (.const e) = .finite ε := fun ρ => (value_const e).trans he
  have ha : ∀ ρ, value ρ (.const a) = .finite (11 / 10 * ε) := fun ρ => (value_const a).trans ha
  have hc : ∀ ρ, value ρ (.const c) = .finite (-(11 / 10 * ε)) := fun ρ => (value_const c).trans hc
  have hD := hP.documented
  cases k with
  | le =>
    exact (imposes_requireGated_sub hD hb (by simp) (by simp) (by simp) (.inr hδ)
      fun ρ h => ⟨h.binary, he ρ, h.finite⟩).bind_seq
        (imposes_requireGated_sub hD hnotB (by simp) (by simp) (by simp) (.inl hδ)
          fun ρ h => ⟨h.complement, h.finite, ha ρ⟩)
  | lt =>
    exact (imposes_requireGated_sub hD hb (by simp) (by simp) (by simp) (.inr hδ)
      fun ρ h => ⟨h.binary, hc ρ, h.finite⟩).bind_seq
        (imposes_requireGated_add hD hnotB (by simp) (by simp) (by simp) (.inl hδ)
          fun ρ h => ⟨h.complement, h.finite, he ρ⟩)
  | ge =>
    refine ((imposes_requireGated_add hD hb (by simp) (by simp) (by simp) (.inl hδ)
      fun ρ h => ⟨h.binary, h.finite, he ρ⟩).bind_seq
        (imposes_requireGated_sub hD hnotB (by simp) (by simp) (by simp) (.inr hδ)
          fun ρ h => ⟨h.complement, hc ρ, h.finite⟩))
  | gt =>
    exact (imposes_requireGated_sub hD hb (by simp) (by simp) (by simp) (.inl hδ)
      fun ρ h => ⟨h.binary, h.finite, ha ρ⟩).bind_seq
        (imposes_requireGated_sub hD hnotB (by simp) (by simp) (by simp) (.inr hδ)
          fun ρ h => ⟨h.complement, he ρ, h.finite⟩)
  | eq =>
    have hlast : Imposes (do requireGated P notB (← LowerM.sub (← P.absolute δ) (.const a)))
        [notB, b, δ, .const e, .const a, .const c] (GateInputs b notB δ f) fun ρ =>
          value ρ notB = .finite 1 → 11 / 10 * ε ≤ |f ρ| :=
      Imposes.bind (hP.makes_absolute (by simp)) fun m hm => imposes_requireGated_sub hD hnotB
        (by simp) (by simp) (by simp) (.inl hm) fun ρ h =>
          ⟨h.1.complement, h.2 _ h.1.finite, ha ρ⟩
    refine ((imposes_requireGated_sub hD hb (by simp) (by simp) (by simp) (.inr hδ)
      fun ρ h => ⟨h.binary, he ρ, h.finite⟩).bind_seq
        ((imposes_requireGated_add hD hb (by simp) (by simp) (by simp) (.inr hδ)
          fun ρ h => ⟨h.binary, he ρ, h.finite⟩).bind_seq hlast)).congr fun ρ _ => ?_
    rw [← and_assoc, ← imp_and, Accepts, abs_le, and_comm (a := f ρ ≤ ε), neg_le]
    rfl
  | ne =>
    exact Imposes.bind (hP.makes_absolute (by simp)) fun m hm =>
      (imposes_requireGated_sub hD hb (by simp) (by simp) (by simp) (.inl hm)
        fun ρ h => ⟨h.1.binary, h.2 _ h.1.finite, ha ρ⟩).bind_seq
          (imposes_requireGated_sub hD hnotB (by simp) (by simp) (by simp) (.inr hm)
            fun ρ h => ⟨h.1.complement, he ρ, h.2 _ h.1.finite⟩)

theorem Silent.epsilon_eq (hs : Silent G s G' s') : s'.solver.epsilon = s.solver.epsilon := by
  obtain ⟨own, hsame⟩ := hs.same
  rw [hsame]

/-- A term that was made is constrained. -/
theorem Silent.constrain_adds (hs : Silent G s G₁ s₁) (hP : Documented P) (hh : h ∈ G₁)
    (hterm : h.number? = none) {lower upper : Number Exact}
    (hr : (constrain P h lower upper).Runs s₁ () s') : ∃ G' rs, Adds G s G' s' [] rs ∧
      ∀ ρ, (∀ r ∈ rs, r.Holds ρ) ↔ Between lower.exact upper.exact (value ρ h) := by
  obtain ⟨G', name, hadds⟩ := adds_constrain hP hs.world hh hterm hr
  exact ⟨G', _, hs.adds.trans hadds, fun ρ => List.forall_mem_singleton⟩

/-- A comparison that is posted adds a range over the difference, or over its absolute value. -/
theorem postComparison_adds (hP : Serves P) (hw : World G s.nextHandle) (hx : x ∈ G) (hy : y ∈ G)
    (hterm : x.number? = none ∨ y.number? = none) (hε : s.solver.epsilon.exact = .finite ε)
    (hr : (postComparison P k x y).Runs s () s') : ∃ G' rs, Adds G s G' s' [] rs ∧
      ∀ ρ p q, value ρ x = .finite p → value ρ y = .finite q →
        ((∀ r ∈ rs, r.Holds ρ) ↔ Accepts ε k (p - q)) := by
  obtain ⟨_, s, heps, hr⟩ := runs_bind.mp hr
  obtain ⟨rfl, rfl⟩ := runs_epsilon.mp heps
  obtain ⟨δ, s₁, hsub, hr⟩ := runs_bind.mp hr
  have hδterm := number?_binary hsub hterm
  obtain ⟨G₁, hs, hδ, hδvalue⟩ := gives_sub hw hx hy hsub
  have hε₁ : s₁.solver.epsilon.exact = .finite ε := by rw [hs.epsilon_eq, hε]
  have hdifference : ∀ {lower upper : Number Exact}, (constrain P δ lower upper).Runs s₁ () s' →
      (∀ d, Between lower.exact upper.exact (.finite d) ↔ Accepts ε k d) →
      ∃ G' rs, Adds G s G' s' [] rs ∧ ∀ ρ p q, value ρ x = .finite p → value ρ y = .finite q →
        ((∀ r ∈ rs, r.Holds ρ) ↔ Accepts ε k (p - q)) := fun hr hiff => by
    obtain ⟨G', rs, hadds, hrs⟩ := hs.constrain_adds hP.documented hδ hδterm hr
    exact ⟨G', rs, hadds, fun ρ p q hp hq => by
      rw [hrs, hδvalue, hp, hq, Exact.finite_sub, hiff]⟩
  cases k <;> dsimp only at hr
  case le => exact hdifference hr fun d => by rw [hε, between_noLower]; rfl
  case lt =>
    obtain ⟨c, _, hbelow, hconstrain⟩ := runs_bind.mp hr
    obtain ⟨rfl, hc⟩ := runs_negatedThreshold hε₁ hbelow
    exact hdifference hconstrain fun d => by rw [hc, between_noLower]; rfl
  case ge => exact hdifference hr fun d => by rw [exact_neg, hε, Exact.finite_neg, between_noUpper]; rfl
  case gt =>
    obtain ⟨a, _, habove, hconstrain⟩ := runs_bind.mp hr
    obtain ⟨rfl, ha⟩ := runs_threshold hε₁ habove
    exact hdifference hconstrain fun d => by rw [ha, between_noUpper]; rfl
  case eq => exact hdifference hr fun d => by simp [hε, Between, Accepts, abs_le]
  case ne =>
    obtain ⟨m, s₂, habsolute, hrest⟩ := runs_bind.mp hr
    have hmterm := hP.absolute_term habsolute
    obtain ⟨G₂, hs₂, hm, hmvalue⟩ := hP.documented.absolute hs.world hδ habsolute
    obtain ⟨a, _, habove, hconstrain⟩ := runs_bind.mp hrest
    obtain ⟨rfl, ha⟩ := runs_threshold (by rw [hs₂.epsilon_eq, hε₁]) habove
    obtain ⟨G', rs, hadds, hrs⟩ := (hs.trans hs₂).constrain_adds hP.documented hm hmterm hconstrain
    refine ⟨G', rs, hadds, fun ρ p q hp hq => ?_⟩
    rw [hrs, hmvalue ρ (p - q) (by rw [hδvalue, hp, hq, Exact.finite_sub]), ha, between_noUpper]
    rfl

/-! ### Values of a new binary variable -/

/-- The values that `b` can take where the variables and the ranges hold, while the variables made
before the counter stood at `n` keep their values. -/
def Choices (n : ℕ) (b : Expr) (cs : List (Created Exact)) (rs : List (Range Exact))
    (ρ : HandleId → ℚ) : Set ℚ :=
  {q | ∃ ρ', Agree n ρ ρ' ∧ value ρ' b = .finite q ∧ (∀ c ∈ cs, c.Holds ρ') ∧ ∀ r ∈ rs, r.Holds ρ'}

/-- The values of a new binary variable are those that the ranges leave of one and zero. -/
theorem choices_binary {n : ℕ} {name : String} {rs : List (Range Exact)} (hfree : Free n [b])
    {one zero : Prop} (hrs : ∀ ρ', Agree n ρ ρ' → IsBinary (value ρ' b) → ((∀ r ∈ rs, r.Holds ρ') ↔
      (value ρ' b = .finite 1 → one) ∧ (value ρ' b = .finite 0 → zero))) :
    Choices n b [⟨b, .binary, .finite 0, .finite 1, name⟩] rs ρ = {q | q = 1 ∧ one ∨ q = 0 ∧ zero} := by
  have hcreated : ∀ {ρ' : HandleId → ℚ} {q : ℚ}, value ρ' b = .finite q → ((∀ c ∈ [(⟨b, .binary,
      .finite 0, .finite 1, name⟩ : Created Exact)], c.Holds ρ') ↔ q = 0 ∨ q = 1) := by
    intro ρ' q hq
    rw [List.forall_mem_singleton]
    constructor
    · intro h
      simpa [hq, Kind.Has, IsBinary] using h.kind
    · rintro (rfl | rfl) <;> exact ⟨by simp [hq, Kind.Has, IsBinary], by simp [hq], by simp [hq]⟩
  ext q
  constructor
  · rintro ⟨ρ', ha, hq, hc, hr⟩
    rcases (hcreated hq).mp hc with rfl | rfl
    · exact .inr ⟨rfl, ((hrs ρ' ha (.inl hq)).mp hr).2 hq⟩
    · exact .inl ⟨rfl, ((hrs ρ' ha (.inr hq)).mp hr).1 hq⟩
  · intro hq
    obtain ⟨ρ', ha, hvalue⟩ := hfree.takes ρ [q] rfl
    have hvalue : value ρ' b = .finite q := by simpa using hvalue
    refine ⟨ρ', ha, hvalue, ?_, ?_⟩
    · exact (hcreated hvalue).mpr (hq.elim (fun h => .inr h.1) fun h => .inl h.1)
    · rcases hq with ⟨rfl, h⟩ | ⟨rfl, h⟩
      · exact (hrs ρ' ha (.inr hvalue)).mpr ⟨fun _ => h, fun h0 => absurd (hvalue.symm.trans h0) (by simp)⟩
      · exact (hrs ρ' ha (.inl hvalue)).mpr ⟨fun h1 => absurd (hvalue.symm.trans h1) (by simp), fun _ => h⟩

/-- The complement of a gate is one where the gate is zero. -/
theorem makes_gateComplement (hb : b.number? = none) (hbmem : b ∈ args) ⦃G : Set Expr⦄
    ⦃s : TolerantState σ⦄ ⦃t : Expr⦄ ⦃s' : TolerantState σ⦄ (hw : World G s.nextHandle)
    (hmem : ∀ a ∈ args, a ∈ G) (hr : (LowerM.sub (integer 1) b : TolerantM Exact σ Expr).Runs s t s') :
    t.number? = none ∧ Silent.Gives G s t s' fun ρ v =>
      IsBinary (value ρ b) → IsBinary v ∧ (v = .finite 1 ↔ value ρ b = .finite 0) := by
  obtain ⟨ht, hgives⟩ := makes_complement hb hbmem hw hmem hr
  refine ⟨ht, hgives.mono fun ρ v hv hbinary => ?_⟩
  rcases hbinary with h | h <;> simp [hv, h, IsBinary]

theorem Free.term {n : ℕ} (hfree : Free n [b]) : b.number? = none := by
  obtain ⟨id, name, integral, hleaf⟩ := hfree.leaf b (by simp)
  rw [hleaf]
  rfl

/-- A comparison that is reified adds a binary variable, which can be one where the comparison accepts
the difference and zero where its negation does. -/
theorem choices_reify (hP : Serves P) (hw : World G s.nextHandle) (hx : x ∈ G) (hy : y ∈ G)
    (hterm : x.number? = none ∨ y.number? = none) (hε : s.solver.epsilon.exact = .finite ε)
    (hr : (reify P k x y).Runs s b s') : ∃ G' cs rs, Adds G s G' s' cs rs ∧
      ∀ ρ p q, value ρ x = .finite p → value ρ y = .finite q → Choices s.nextHandle b cs rs ρ =
        {v | v = 1 ∧ Accepts ε k (p - q) ∨ v = 0 ∧ Accepts ε k.negate (p - q)} := by
  obtain ⟨_, s, heps, hr⟩ := runs_bind.mp hr
  obtain ⟨rfl, rfl⟩ := runs_epsilon.mp heps
  obtain ⟨a, s, habove, hr⟩ := runs_bind.mp hr
  obtain ⟨rfl, ha⟩ := runs_threshold hε habove
  obtain ⟨c, s, hbelow, hr⟩ := runs_bind.mp hr
  obtain ⟨rfl, hc⟩ := runs_negatedThreshold hε hbelow
  obtain ⟨δ, s₁, hsub, hr⟩ := runs_bind.mp hr
  obtain ⟨b', s₂, hnew, hr⟩ := runs_bind.mp hr
  obtain ⟨notB, s₃, hnot, hr⟩ := runs_bind.mp hr
  obtain ⟨_, s₄, hgates, hr⟩ : ∃ u s₄, (gates P k b' notB δ s.solver.epsilon a c).Runs s₃ u s₄ ∧
      (pure b' : TolerantM Exact σ Expr).Runs s₄ b s' :=
    runs_bind.mp (by cases k <;> simpa only [gates, bind_assoc] using hr)
  obtain ⟨rfl, rfl⟩ := runs_pure.mp hr
  have hδterm := number?_binary hsub hterm
  obtain ⟨G₁, hs₁, hδ, hδvalue⟩ := gives_sub hw hx hy hsub
  obtain ⟨G₂, name, hmakes⟩ := makes_binary hP.documented hs₁.world hnew
  have hb : b' ∈ G₂ := hmakes.mem b' (by simp)
  have hbterm := hmakes.free.term
  obtain ⟨hnotterm, G₃, hs₃, hnotB, hnotvalue⟩ := makes_gateComplement hbterm
    (List.mem_singleton_self b') hmakes.world (by simpa using hb) hnot
  have hsubset := hmakes.subset.trans hs₃.subset
  obtain ⟨G₄, rs, hadds, hrs⟩ := imposes_gates hP k (f := fun ρ => ratOf (value ρ δ)) hε ha hc hbterm
    hnotterm hδterm hs₃.world (by
      simpa using ⟨hnotB, hs₃.subset hb, hsubset hδ, hs₃.world.const_mem _, hs₃.world.const_mem _,
        hs₃.world.const_mem _⟩) hgates
  refine ⟨G₄, _, rs, (hs₁.adds.trans hmakes.toAdds).trans (hs₃.adds.trans hadds),
    fun ρ p q hp hq => ?_⟩
  have hfree : Free s.nextHandle [b'] := hmakes.free.mono hs₁.next_le
  refine choices_binary hfree fun ρ' hagree hbinary => ?_
  have hdifference : value ρ' δ = .finite (p - q) := by
    rw [hδvalue, ← value_congr hw hx hagree, ← value_congr hw hy hagree, hp, hq, Exact.finite_sub]
  obtain ⟨hcomplement, hone⟩ := hnotvalue ρ' hbinary
  have hiff := hrs ρ' ⟨hbinary, hcomplement, by rw [hdifference]; rfl⟩
  dsimp only at hiff
  rw [hone, hdifference] at hiff
  exact hiff

/-- A magnitude is required to reach the second threshold where a binary variable is one, and to stay
within the first where it is zero. -/
theorem imposes_truth (hP : Documented P) {m : Expr} {e a : Number Exact} (he : e.exact = .finite ε)
    (ha : a.exact = .finite (11 / 10 * ε)) (hb : b.number? = none) (hm : m.number? = none) :
    Imposes (do
      constrain P (← LowerM.sub m (← LowerM.mul (.const a) b)) realZero noUpper
      let notB ← LowerM.sub (integer 1) b
      constrain P (← gated P notB (← LowerM.sub m (.const e))) noLower realZero)
      [b, m, .const a, .const e] (fun ρ => IsBinary (value ρ b) ∧ value ρ m = .finite |f ρ|)
      fun ρ => (value ρ b = .finite 1 → 11 / 10 * ε ≤ |f ρ|) ∧
        (value ρ b = .finite 0 → |f ρ| ≤ ε) := by
  have habove : Imposes (do constrain P (← LowerM.sub m (← LowerM.mul (.const a) b)) realZero noUpper)
      [b, m, .const a, .const e] (fun ρ => IsBinary (value ρ b) ∧ value ρ m = .finite |f ρ|)
      fun ρ => value ρ b = .finite 1 → 11 / 10 * ε ≤ |f ρ| := by
    refine Imposes.bind (makes_binaryTerm exact_mul (fun _ _ => rfl) (by simp) (by simp) (.inr hb))
      fun p _ => Imposes.bind (makes_binaryTerm exact_sub (fun _ _ => rfl) (by simp) (by simp) (.inl hm))
        fun d hd => (imposes_constrain hP hd (by simp) _ _).congr ?_
    rintro ρ ⟨⟨⟨hbinary, hmvalue⟩, hpvalue⟩, hdvalue⟩
    rw [hdvalue, hpvalue, hmvalue, value_const, ha]
    rcases hbinary with h0 | h1
    · rw [h0, Exact.finite_mul, mul_zero, Exact.finite_sub, sub_zero, between_zero_noUpper]
      exact iff_of_true (abs_nonneg _) fun h => absurd h (by simp)
    · rw [h1, Exact.finite_mul, mul_one, Exact.finite_sub, between_zero_noUpper, sub_nonneg]
      exact ⟨fun h _ => h, fun h => h rfl⟩
  have hbelow : Imposes (do
      let notB ← LowerM.sub (integer 1) b
      constrain P (← gated P notB (← LowerM.sub m (.const e))) noLower realZero)
      [b, m, .const a, .const e] (fun ρ => IsBinary (value ρ b) ∧ value ρ m = .finite |f ρ|)
      fun ρ => value ρ b = .finite 0 → |f ρ| ≤ ε := by
    refine Imposes.bind (makes_gateComplement hb (by simp)) fun notB hnot => Imposes.bind
      (makes_binaryTerm exact_sub (fun _ _ => rfl) (by simp) (by simp) (.inl hm)) fun d hd =>
        (imposes_gated (f := fun ρ => |f ρ| - ε) hP hnot hd (by simp) (by simp)
          ((between_noLower_zero 0).mpr le_rfl) ?_).congr ?_
    · rintro ρ ⟨⟨⟨hbinary, hmvalue⟩, hnotvalue⟩, hdvalue⟩
      exact ⟨(hnotvalue hbinary).1, by rw [hdvalue, hmvalue, value_const, he, Exact.finite_sub]⟩
    · rintro ρ ⟨⟨⟨hbinary, -⟩, hnotvalue⟩, -⟩
      rw [(hnotvalue hbinary).2, between_noLower_zero, sub_nonpos]
  simpa only [bind_assoc] using habove.seq hbelow

/-- The truth value of a term is a binary variable, which can be one from the second threshold on and
zero up to the first. -/
theorem choices_newTruth (hP : Serves P) (hw : World G s.nextHandle) (hh : h ∈ G)
    (hε : s.solver.epsilon.exact = .finite ε) (hr : (newTruth P h).Runs s b s') :
    ∃ G' cs rs, Adds G s G' s' cs rs ∧ ∀ ρ q, value ρ h = .finite q →
      Choices s.nextHandle b cs rs ρ = {v | v = 1 ∧ 11 / 10 * ε ≤ |q| ∨ v = 0 ∧ |q| ≤ ε} := by
  obtain ⟨_, s, heps, hr⟩ := runs_bind.mp hr
  obtain ⟨rfl, rfl⟩ := runs_epsilon.mp heps
  obtain ⟨a, s, habove, hr⟩ := runs_bind.mp hr
  obtain ⟨rfl, ha⟩ := runs_threshold hε habove
  obtain ⟨b', s₁, hnew, hr⟩ := runs_bind.mp hr
  obtain ⟨m, s₂, habsolute, hr⟩ := runs_bind.mp hr
  obtain ⟨_, s₃, htruth, hr⟩ : ∃ u s₃, (do
      constrain P (← LowerM.sub m (← LowerM.mul (.const a) b')) realZero noUpper
      let notB ← LowerM.sub (integer 1) b'
      constrain P (← gated P notB (← LowerM.sub m (.const s.solver.epsilon))) noLower realZero).Runs
        s₂ u s₃ ∧ (pure b' : TolerantM Exact σ Expr).Runs s₃ b s' :=
    runs_bind.mp (by simpa only [bind_assoc] using hr)
  obtain ⟨rfl, rfl⟩ := runs_pure.mp hr
  obtain ⟨G₁, name, hmakes⟩ := makes_binary hP.documented hw hnew
  have hb : b' ∈ G₁ := hmakes.mem b' (by simp)
  obtain ⟨hmterm, G₂, hs, hm, hmvalue⟩ := hP.makes_absolute (List.mem_singleton_self h)
    hmakes.world (by simpa using hmakes.subset hh) habsolute
  obtain ⟨G₃, rs, hadds, hrs⟩ := imposes_truth hP.documented (f := fun ρ => ratOf (value ρ h)) hε ha
    hmakes.free.term hmterm hs.world (by
      simpa using ⟨hs.subset hb, hm, hs.world.const_mem _, hs.world.const_mem _⟩) htruth
  refine ⟨G₃, _, rs, (hmakes.toAdds.trans hs.adds).trans hadds, fun ρ q hq => ?_⟩
  refine choices_binary hmakes.free fun ρ' hagree hbinary => ?_
  have hvalue : value ρ' h = .finite q := by rw [← value_congr hw hh hagree, hq]
  have hiff := hrs ρ' ⟨hbinary, by rw [hmvalue ρ' q hvalue, hvalue]; rfl⟩
  dsimp only at hiff
  rw [hvalue] at hiff
  exact hiff

end DecisionModel.Tolerant
