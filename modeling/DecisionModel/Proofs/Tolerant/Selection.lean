import DecisionModel.Proofs.Tolerant.Logic

/-!
# Selection for algebraic solvers

Where one of several terms is chosen each gets a binary selector, and the sum of the selectors has to
be one: then one of them is one and the others are zero (`exists_selected`), and any of them may be
(`exists_selection`). Extrema tie a new variable to the selected term (`computes_extremum`), lookups
tie the index to the selected position (`lookup_spec`). Conditionals and first matches are sums of
gated terms.
-/

namespace DecisionModel.Tolerant

open LowerM

variable {σ : Type} {P : Primitives Exact σ} {G G' : Set Expr} {s s' : TolerantState σ}
  {h k b t x y : Expr} {args hs bs : List Expr} {ρ ρ' : HandleId → ℚ}
  {W R : (HandleId → ℚ) → Prop}

/-! ### One of several -/

/-- Zeros and ones that sum up to one select one of the things beside them. -/
theorem exists_selected {β : Type} {pairs : List (β × ℤ)} (hbinary : ∀ p ∈ pairs, p.2 = 0 ∨ p.2 = 1)
    (hsum : (pairs.map (·.2)).sum = 1) : ∃ e, (e, 1) ∈ pairs ∧
      ∀ {M : Type} [AddMonoid M] (g : β → M), (pairs.map fun p => if p.2 = 1 then g p.1 else 0).sum = g e := by
  induction pairs with
  | nil => simp at hsum
  | cons p pairs ih =>
    obtain ⟨e, n⟩ := p
    obtain ⟨hn, hrest⟩ := List.forall_mem_cons.mp hbinary
    simp only [List.map_cons, List.sum_cons] at hsum
    rcases hn with rfl | rfl
    · obtain ⟨e', he', hg⟩ := ih hrest (by omega)
      exact ⟨e', List.mem_cons_of_mem _ he', fun g => by simp [hg]⟩
    · have hzero : ∀ p ∈ pairs, p.2 = 0 := by
        have hnonneg : ∀ n ∈ pairs.map (·.2), 0 ≤ n := by
          intro n hn
          obtain ⟨p, hp, rfl⟩ := List.mem_map.mp hn
          rcases hrest p hp with h | h <;> simp [h]
        have hall := (not_iff_not.mpr (sum_ne_zero_iff hnonneg)).mp (not_not.mpr (by omega))
        push Not at hall
        exact fun p hp => hall p.2 (List.mem_map_of_mem hp)
      refine ⟨e, List.mem_cons_self, fun g => ?_⟩
      rw [List.map_cons, List.sum_cons, if_pos rfl, List.sum_eq_zero, add_zero]
      intro n hn
      obtain ⟨p, hp, rfl⟩ := List.mem_map.mp hn
      rw [hzero p hp, if_neg zero_ne_one]

/-- Any of several things can be selected. -/
theorem exists_selection {β : Type} {xs : List β} {x : β} (hx : x ∈ xs) :
    ∃ ns : List ℤ, ns.length = xs.length ∧ (∀ n ∈ ns, n = 0 ∨ n = 1) ∧ ns.sum = 1 ∧
      ∀ p ∈ xs.zip ns, p.2 = 1 → p.1 = x := by
  induction xs with
  | nil => cases hx
  | cons y ys ih =>
    rcases List.mem_cons.mp hx with rfl | hx
    · refine ⟨1 :: List.replicate ys.length 0, by simp, by simp, by simp, ?_⟩
      intro p hp h1
      rcases List.mem_cons.mp hp with rfl | hp
      · rfl
      · have h0 := List.eq_of_mem_replicate (List.of_mem_zip hp).2
        omega
    · obtain ⟨ns, hlen, hbinary, hsum, hx⟩ := ih hx
      refine ⟨0 :: ns, by simp [hlen], by simpa using hbinary, by simpa using hsum, ?_⟩
      intro p hp h1
      rcases List.mem_cons.mp hp with rfl | hp
      · cases h1
      · exact hx p hp h1

theorem map_value_eq (hbs : ∀ b ∈ bs, IsBinary (value ρ b)) :
    bs.map (value ρ) = ((bs.map ((semantics σ).int ρ)).map Int.cast).map Exact.finite := by
  rw [List.map_map, List.map_map]
  exact List.map_congr_left fun b hb => value_eq (hbs b hb).integral

/-- The sum of binary variables is required to be one. -/
theorem amounts_requireOne (hP : Documented P) (bs : List Expr) :
    Amounts (requireOne P bs) bs (fun ρ => ∀ b ∈ bs, IsBinary (value ρ b))
      fun ρ => (bs.map ((semantics σ).int ρ)).sum = 1 := by
  intro G s s' hv hmem hr
  obtain ⟨t, s₁, htotal, hconstrain⟩ := runs_bind.mp hr
  obtain ⟨G₁, hs, ht, hvalue⟩ := hP.total hv.world hmem htotal
  have g₁ := hs.settles hv
  obtain ⟨G₂, C, g₂, hC⟩ := constrain_integral hP g₁.valid ht (a := 1) (c := 1)
    (by simp [realOne]) (by simp [realOne]) hconstrain
  refine ⟨G₂, C, g₁.after g₂, fun ρ hbinary => ?_⟩
  have hsum : value ρ t = .finite ((bs.map ((semantics σ).int ρ)).sum : ℤ) := by
    rw [hvalue ρ _ (map_value_eq hbinary), Int.cast_list_sum]
  rw [hC ρ _ hsum, ← le_antisymm_iff, eq_comm]

/-- New binary variables of which one is required to be one. -/
structure Selectors (s : TolerantState σ) (bs : List Expr) (s' : TolerantState σ) : Prop where
  term : ∀ b ∈ bs, b.number? = none
  binary (ρ : HandleId → ℚ) : Admitted ρ s' → ∀ b ∈ bs, IsBinary (value ρ b)
  sum (ρ : HandleId → ℚ) : Admitted ρ s' → (bs.map ((semantics σ).int ρ)).sum = 1
  takes (ρ : HandleId → ℚ) (ns : List ℤ) : Admitted ρ s → ns.length = bs.length →
    (∀ n ∈ ns, n = 0 ∨ n = 1) → ns.sum = 1 → ∃ ρ', Agree s.nextHandle ρ ρ' ∧ Admitted ρ' s' ∧
      bs.map ((semantics σ).int ρ') = ns

theorem selectors_spec (hP : Documented P) {β : Type} {xs : List β} {hint : String}
    {s₁ : TolerantState σ} (hv : (semantics σ).Valid G s)
    (hnew : (xs.mapM fun _ => newBinary P hint).Runs s bs s₁)
    (hone : (requireOne P bs).Runs s₁ () s') : bs.length = xs.length ∧
      ∃ G', (semantics σ).Step G s G' s' ∧ (∀ b ∈ bs, b ∈ G') ∧ Selectors s bs s' := by
  obtain ⟨hlen, G₁, g₁, hbs, hnew⟩ := mapM_newVariables .binary (.finite 0) (.finite 1)
    (fun _ _ _ _ _ _ hv hr => newBinary_spec hP hv hr) hv hnew
  obtain ⟨G₂, C, g₂, hC⟩ := amounts_requireOne hP bs g₁.valid hbs hone
  have hbinary : ∀ ρ, Admitted ρ s₁ → ∀ b ∈ bs, IsBinary (value ρ b) :=
    fun ρ hρ b hb => (hnew.holds ρ hρ b hb).1
  refine ⟨hlen, G₂, g₁.trans g₂.toStep, fun b hb => g₂.subset (hbs b hb), hnew.term,
    fun ρ hρ => hbinary ρ (g₂.admits ρ hρ), fun ρ hρ => ?_, fun ρ ns hρ hlen hns hsum => ?_⟩
  · exact (hC ρ (hbinary ρ (g₂.admits ρ hρ))).mp (g₂.holds hρ)
  · obtain ⟨ρ', ha, hρ', hvalues⟩ := hnew.takes ρ (ns.map Int.cast) hρ (by simpa using hlen) (by
      intro q hq
      obtain ⟨n, hn, rfl⟩ := List.mem_map.mp hq
      rcases hns n hn with rfl | rfl <;> simp [Kind.Has, IsBinary, Between])
    have hints : bs.map ((semantics σ).int ρ') = ns := map_int_eq hvalues
    exact ⟨ρ', ha, (g₂.admitted_iff ρ').mpr ⟨hρ', (hC ρ' (hbinary ρ' hρ')).mpr
      ((congrArg List.sum hints).trans hsum)⟩, hints⟩

/-! ### Extrema -/

/-- The first number is at least as good as the second. -/
def Extremum.Keeps : Extremum → ℤ → ℤ → Prop
  | .least, m, n => m ≤ n
  | .greatest, m, n => n ≤ m

/-- By how much the extremum `r` is better than `a`. -/
def Extremum.slack : Extremum → ℚ → ℚ → ℚ
  | .least, a, r => a - r
  | .greatest, a, r => r - a

theorem Extremum.slack_nonneg {e : Extremum} {a r : ℤ} : 0 ≤ e.slack a r ↔ e.Keeps r a := by
  cases e <;> simp [slack, Keeps]

theorem Extremum.slack_eq_zero {e : Extremum} {a r : ℚ} : e.slack a r = 0 ↔ r = a := by
  cases e <;> simp [slack, sub_eq_zero, eq_comm]

/-- The extremum of integers is one of them, and none is better. -/
theorem Extremum.exists_best (e : Extremum) (n : ℤ) (ns : List ℤ) : ∃ k : ℤ,
    (match e with
      | .least => Scalar.least (Exact.finite n) (ns.map fun n : ℤ => Exact.finite n)
      | .greatest => Scalar.greatest (Exact.finite n) (ns.map fun n : ℤ => Exact.finite n)) =
        .finite k ∧ k ∈ n :: ns ∧ ∀ a ∈ n :: ns, e.Keeps k a := by
  cases e with
  | least => exact Scalar.least_int n ns
  | greatest => exact Scalar.greatest_int n ns

/-- An argument that is not better than the extremum, and is the extremum where it is selected. -/
def Extremum.Bounds (e : Extremum) (r : Expr) (p : Expr × Expr) (ρ : HandleId → ℚ) : Prop :=
  ∀ q a, value ρ r = .finite q → value ρ p.1 = .finite a →
    0 ≤ e.slack a q ∧ (value ρ p.2 = .finite 1 → e.slack a q ≤ 0)

theorem amounts_bounds (hP : Documented P) (e : Extremum) {r h b : Expr} (hr : r.number? = none)
    (hb : b.number? = none) (hmem : ∀ a ∈ [r, h, b], a ∈ args) :
    Amounts (do
      let gap ← match e with
        | .least => LowerM.sub h r
        | .greatest => LowerM.sub r h
      constrain P gap realZero noUpper
      constrain P (← gated P b gap) noLower realZero) args
      (fun ρ => IsBinary (value ρ b) ∧ (∃ q, value ρ r = .finite q) ∧ ∃ a, value ρ h = .finite a)
      (e.Bounds r (h, b)) := by
  obtain ⟨hrmem, hhmem, hbmem⟩ : r ∈ args ∧ h ∈ args ∧ b ∈ args := by simpa using hmem
  suffices hbind : Amounts ((match e with
      | .least => LowerM.sub h r
      | .greatest => LowerM.sub r h : TolerantM Exact σ Expr) >>= fun gap => do
        constrain P gap realZero noUpper
        constrain P (← gated P b gap) noLower realZero) args
      (fun ρ => IsBinary (value ρ b) ∧ (∃ q, value ρ r = .finite q) ∧ ∃ a, value ρ h = .finite a)
      (e.Bounds r (h, b)) by
    cases e <;> exact hbind
  refine Amounts.bind (T := fun t => t.number? = none)
    (V := fun ρ v => ∀ q a, value ρ r = .finite q → value ρ h = .finite a →
      v = .finite (e.slack a q)) ?_ fun gap hgap => ?_
  · intro G s t s' hw hmem hr'
    cases e with
    | least =>
      obtain ⟨G', hs, ht, hvalue⟩ := gives_sub hw (hmem h hhmem) (hmem r hrmem) hr'
      exact ⟨number?_binary hr' (.inr hr), G', hs, ht, fun ρ q a hq ha => by
        rw [hvalue, hq, ha, Exact.finite_sub]
        rfl⟩
    | greatest =>
      obtain ⟨G', hs, ht, hvalue⟩ := gives_sub hw (hmem r hrmem) (hmem h hhmem) hr'
      exact ⟨number?_binary hr' (.inl hr), G', hs, ht, fun ρ q a hq ha => by
        rw [hvalue, hq, ha, Exact.finite_sub]
        rfl⟩
  · have hgated : Amounts _ (gap :: args)
        (fun ρ => IsBinary (value ρ b) ∧ ∃ q, value ρ gap = .finite q) _ :=
      (amounts_gated (t := gap) hP hb ((between_noLower_zero 0).mpr le_rfl)).mono (fun a ha => by
        rcases List.mem_pair.mp ha with rfl | rfl <;> simp [hbmem]) (fun _ h => h) fun _ _ => Iff.rfl
    refine ((amounts_constrain hP hgap (by simp) realZero noUpper).seq hgated).mono
      (fun _ h => .inl h) ?_ ?_
    · rintro ρ ⟨⟨hbinary, ⟨q, hq⟩, a, ha⟩, hvalue⟩
      exact ⟨hbinary, _, hvalue q a hq ha⟩
    · rintro ρ ⟨⟨hbinary, ⟨q, hq⟩, a, ha⟩, hvalue⟩
      rw [hvalue q a hq ha, between_zero_noUpper, between_noLower_zero]
      constructor
      · intro h q' a' hq' ha'
        obtain rfl := Exact.finite.inj (hq.symm.trans hq')
        obtain rfl := Exact.finite.inj (ha.symm.trans ha')
        exact h
      · exact fun h => h q a hq ha

/-- Things settled one after the other. -/
theorem amounts_forM {β : Type} (args : List Expr) (xs : List β) {f : β → TolerantM Exact σ Unit}
    {T : β → (HandleId → ℚ) → Prop} (hf : ∀ x ∈ xs, Amounts (f x) args W (T x)) :
    Amounts (xs.forM f) args W fun ρ => ∀ x ∈ xs, T x ρ := by
  induction xs with
  | nil =>
    intro G s s' hv _ hr
    obtain rfl := runs_forM_nil.mp hr
    exact ⟨G, _, .refl hv, fun ρ _ => by simp⟩
  | cons x xs ih =>
    refine ((hf x (by simp)).seq (ih fun y hy => hf y (by simp [hy]))).mono (fun _ h => .inl h)
      (fun _ h => h) fun ρ _ => ?_
    rw [List.forall_mem_cons]

/-- Terms beside the values of their selectors. -/
theorem exists_selected_term {β : Type} {xs : List β} (hlen : bs.length = xs.length)
    (hbinary : ∀ b ∈ bs, IsBinary (value ρ b)) (hsum : (bs.map ((semantics σ).int ρ)).sum = 1) :
    ∃ x b, (x, b) ∈ xs.zip bs ∧ value ρ b = .finite 1 ∧ ∀ {M : Type} [AddMonoid M] (g : β → M),
      ((xs.zip bs).map fun p => if (semantics σ).int ρ p.2 = 1 then g p.1 else 0).sum = g x := by
  have hpairs : ∀ n ∈ (xs.zip bs).map fun p => (p.1, (semantics σ).int ρ p.2),
      n.2 = 0 ∨ n.2 = 1 := by
    intro n hn
    obtain ⟨p, hp, rfl⟩ := List.mem_map.mp hn
    exact int_binary (σ := σ) (hbinary p.2 (List.of_mem_zip hp).2)
  have hsum' : (((xs.zip bs).map fun p => (p.1, (semantics σ).int ρ p.2)).map (·.2)).sum = 1 := by
    have hsnd : (xs.zip bs).map (·.2) = bs := List.map_snd_zip hlen.le
    rw [← hsum, List.map_map]
    conv_rhs => rw [← hsnd, List.map_map]
    rfl
  obtain ⟨x, hmem, hg⟩ := exists_selected hpairs hsum'
  obtain ⟨p, hp, heq⟩ := List.mem_map.mp hmem
  obtain ⟨rfl, h1⟩ := Prod.mk.inj heq
  refine ⟨p.1, p.2, hp, ?_, fun g => ?_⟩
  · rw [value_eq (hbinary p.2 (List.of_mem_zip hp).2).integral, h1, Int.cast_one]
  · rw [← hg g, List.map_map]
    rfl

/-- Where a thing is selected, the values of the selectors single it out. -/
theorem eq_selected {β : Type} {xs : List β} {x y : β} {ns : List ℤ}
    (hns : bs.map ((semantics σ).int ρ) = ns) (hselected : ∀ p ∈ xs.zip ns, p.2 = 1 → p.1 = x)
    (hmem : (y, b) ∈ xs.zip bs) (hone : value ρ b = .finite 1) : y = x := by
  refine hselected (y, (semantics σ).int ρ b) ?_ (int_eq (σ := σ) (by simpa using hone))
  rw [← hns, List.zip_map_right]
  exact List.mem_map_of_mem (f := Prod.map id ((semantics σ).int ρ)) hmem

/-- With the selected argument the extremum has its value, and no argument is better. -/
theorem Extremum.best_of_bounds {e : Extremum} {r : Expr} (hlen : bs.length = hs.length)
    (hbinary : ∀ b ∈ bs, IsBinary (value ρ b)) (hsum : (bs.map ((semantics σ).int ρ)).sum = 1)
    (hr : ∃ q, value ρ r = .finite q) (hhs : ∀ h ∈ hs, (semantics σ).Integral ρ h)
    (hbounds : ∀ p ∈ hs.zip bs, e.Bounds r p ρ) :
    ∃ h ∈ hs, value ρ r = .finite ((semantics σ).int ρ h : ℤ) ∧
      ∀ h' ∈ hs, e.Keeps ((semantics σ).int ρ h) ((semantics σ).int ρ h') := by
  obtain ⟨q, hq⟩ := hr
  obtain ⟨h, b, hp, hone, -⟩ := exists_selected_term hlen hbinary hsum
  have hh := (List.of_mem_zip hp).1
  obtain ⟨hge, hle⟩ := hbounds _ hp q _ hq (value_eq (hhs h hh))
  obtain rfl := Extremum.slack_eq_zero.mp (le_antisymm (hle hone) hge)
  refine ⟨h, hh, hq, fun h' hh' => Extremum.slack_nonneg.mp ?_⟩
  have hfirst : h' ∈ (hs.zip bs).map (·.1) := by rwa [List.map_fst_zip hlen.ge]
  obtain ⟨p, hp, rfl⟩ := List.mem_map.mp hfirst
  exact (hbounds p hp _ _ hq (value_eq (hhs p.1 (List.of_mem_zip hp).1))).1

/-- If the extremum has the value of the selected argument and no argument is better, all bounds
hold. -/
theorem Extremum.bounds_of_best {e : Extremum} {r : Expr} {ns : List ℤ}
    (hns : bs.map ((semantics σ).int ρ) = ns)
    (hselected : ∀ p ∈ hs.zip ns, p.2 = 1 → p.1 = h)
    (hr : value ρ r = .finite ((semantics σ).int ρ h : ℤ))
    (hhs : ∀ h ∈ hs, (semantics σ).Integral ρ h)
    (hkeeps : ∀ h' ∈ hs, e.Keeps ((semantics σ).int ρ h) ((semantics σ).int ρ h')) :
    ∀ p ∈ hs.zip bs, e.Bounds r p ρ := by
  intro p hp q a hq ha
  obtain ⟨hp₁, hp₂⟩ := List.of_mem_zip hp
  obtain rfl := Exact.finite.inj (hr.symm.trans hq)
  obtain rfl := Exact.finite.inj ((value_eq (hhs p.1 hp₁)).symm.trans ha)
  refine ⟨Extremum.slack_nonneg.mpr (hkeeps p.1 hp₁), fun h1 => (Extremum.slack_eq_zero.mpr ?_).le⟩
  rw [eq_selected hns hselected hp h1]

theorem computes_newExtremum (hP : Documented P) (e : Extremum) (x : Expr) (xs : List Expr) :
    (semantics σ).Computes (newExtremum P e (x :: xs)) (x :: xs)
      (fun ρ n => (∃ h ∈ x :: xs, n = (semantics σ).int ρ h) ∧
        ∀ h ∈ x :: xs, e.Keeps n ((semantics σ).int ρ h)) fun _ => True := by
  intro G s k s' hv hargs hr
  obtain ⟨hint, hint', hr⟩ : ∃ hint hint', (do
      let name ← auxiliaryName hint
      let result ← createVariable P .continuous Scalar.negInf Scalar.posInf name
      let selectors ← (x :: xs).mapM fun _ => newBinary P hint'
      requireOne P selectors
      ((x :: xs).zip selectors).forM fun (h, selector) => do
        let gap ← match e with
          | .least => LowerM.sub h result
          | .greatest => LowerM.sub result h
        constrain P gap realZero noUpper
        constrain P (← gated P selector gap) noLower realZero
      return result : TolerantM Exact σ Expr).Runs s k s' := by
    cases e <;> exact ⟨_, _, hr⟩
  obtain ⟨name, s₀, haux, hr⟩ := runs_bind.mp hr
  obtain ⟨r, s₁, hcreate, hr⟩ := runs_bind.mp hr
  obtain ⟨bs, s₂, hselectors, hr⟩ := runs_bind.mp hr
  obtain ⟨_, s₃, hone, hr⟩ := runs_bind.mp hr
  obtain ⟨_, s₄, hbounds, hr⟩ := runs_bind.mp hr
  obtain ⟨rfl, rfl⟩ := runs_pure.mp hr
  obtain ⟨G₁, g₁, hrmem, hnew⟩ := newAuxiliary_spec hP hv (runs_bind.mpr ⟨name, s₀, haux, hcreate⟩)
  obtain ⟨hlen, G₃, g₃, hbs, hsel⟩ := selectors_spec hP g₁.valid hselectors hone
  have hW : ∀ ρ, Admitted ρ s₃ → (∀ b ∈ bs, IsBinary (value ρ b)) ∧
      (∃ q, value ρ r = .finite q) ∧ ∀ h ∈ x :: xs, (semantics σ).Integral ρ h := fun ρ hρ =>
    ⟨hsel.binary ρ hρ, hnew.finite ρ, fun h hh =>
      (hargs h hh).integral ρ (g₁.admits ρ (g₃.admits ρ hρ))⟩
  obtain ⟨G₄, C, g₄, hC⟩ := amounts_forM (σ := σ) (r :: (x :: xs) ++ bs)
    ((x :: xs).zip bs) (W := fun ρ => (∀ b ∈ bs, IsBinary (value ρ b)) ∧
      (∃ q, value ρ r = .finite q) ∧ ∀ h ∈ x :: xs, (semantics σ).Integral ρ h)
    (T := fun p => e.Bounds r p) (fun p hp => by
      obtain ⟨h₁, h₂⟩ := List.of_mem_zip hp
      refine (amounts_bounds hP e hnew.term (hsel.term p.2 h₂) ?_).mono (fun _ h => .inl h)
        (fun ρ hρ => ⟨hρ.1 p.2 h₂, hρ.2.1, _, value_eq (hρ.2.2 p.1 h₁)⟩) fun _ _ => Iff.rfl
      intro a ha
      simp only [List.mem_cons, List.not_mem_nil, or_false] at ha
      rcases ha with rfl | rfl | rfl
      · simp
      · exact List.mem_append_left _ (List.mem_cons_of_mem _ h₁)
      · exact List.mem_append_right _ h₂) g₃.valid (fun a ha => by
      rcases List.mem_append.mp ha with ha | ha
      · rcases List.mem_cons.mp ha with rfl | ha
        · exact g₃.subset hrmem
        · exact (g₁.trans g₃).subset (hargs a ha).mem
      · exact hbs a ha) hbounds
  have hbest : ∀ ρ, Admitted ρ s₄ → ∃ h ∈ x :: xs, value ρ r = .finite ((semantics σ).int ρ h : ℤ) ∧
      ∀ h' ∈ x :: xs, e.Keeps ((semantics σ).int ρ h) ((semantics σ).int ρ h') := fun ρ hρ => by
    obtain ⟨hbinary, hr, hint⟩ := hW ρ (g₄.admits ρ hρ)
    exact Extremum.best_of_bounds hlen hbinary (hsel.sum ρ (g₄.admits ρ hρ)) hr hint
      ((hC ρ ⟨hbinary, hr, hint⟩).mp (g₄.holds hρ))
  refine ⟨G₄, g₁.trans (g₃.trans g₄.toStep), usable_of_held (held_iff.mpr
    ⟨(g₃.trans g₄.toStep).subset hrmem, fun ρ hρ => ?_⟩), fun ρ hρ => ?_, fun ρ _ hρ _ => ?_⟩
  · obtain ⟨h, -, hvalue, -⟩ := hbest ρ hρ
    exact ⟨_, hvalue⟩
  · obtain ⟨h, hh, hvalue, hkeeps⟩ := hbest ρ hρ
    rw [int_eq hvalue]
    exact ⟨⟨h, hh, rfl⟩, hkeeps⟩
  · obtain ⟨m, -, hm, hkeeps⟩ := e.exists_best ((semantics σ).int ρ x) (xs.map ((semantics σ).int ρ))
    rw [← List.map_cons] at hm hkeeps
    obtain ⟨h, hh, rfl⟩ := List.mem_map.mp hm
    obtain ⟨ns, hnlen, hnbinary, hnsum, hselected⟩ := exists_selection hh
    obtain ⟨ρ₁, ha₁, hρ₁, hr₁⟩ := hnew.takes ρ ((semantics σ).int ρ h) hρ trivial ⟨rfl, rfl⟩
    obtain ⟨ρ₂, ha₂, hρ₂, hns⟩ := hsel.takes ρ₁ ns hρ₁ (hnlen.trans hlen.symm) hnbinary hnsum
    have ha := ha₁.trans g₁.next_le ha₂
    have hsame : ∀ h' ∈ x :: xs, (semantics σ).int ρ h' = (semantics σ).int ρ₂ h' :=
      fun h' hh' => congrArg intOf (value_congr hv.world (hargs h' hh').mem ha)
    refine ⟨ρ₂, ha, (g₄.admitted_iff ρ₂).mpr ⟨hρ₂, (hC ρ₂ (hW ρ₂ hρ₂)).mpr ?_⟩⟩
    refine Extremum.bounds_of_best hns hselected ?_ (hW ρ₂ hρ₂).2.2
      fun h' hh' => ?_
    · rw [← value_congr g₁.valid.world hrmem ha₂, hr₁, hsame h hh]
    · rw [← hsame h hh, ← hsame h' hh']
      exact hkeeps _ (List.mem_map_of_mem hh')

theorem computes_extremum (hP : Documented P) (e : Extremum) (hs : List Expr) :
    (semantics σ).Computes (extremum P e hs) hs
      (fun ρ n => (∃ h ∈ hs, n = (semantics σ).int ρ h) ∧
        ∀ h ∈ hs, e.Keeps n ((semantics σ).int ρ h)) fun _ => True := by
  intro G s k s' hv hargs hr
  unfold extremum at hr
  split at hr
  · rename_i n ns hnumbers
    obtain rfl := Handle.eq_numbers hnumbers
    obtain ⟨rfl, rfl⟩ := runs_pure.mp hr
    clear hr
    have hexact : ∀ ρ, Admitted ρ s → ∀ m ∈ n :: ns,
        m.toScalar = .finite ((semantics σ).int ρ (.const m) : ℤ) := by
      intro ρ hρ m hm
      rw [toScalar_eq, ← value_eq ((hargs _ (List.mem_map_of_mem hm)).integral ρ hρ), value_const]
    have hbest : ∀ ρ, Admitted ρ s → ∃ k : ℤ, value ρ (scalar (match e with
        | .least => Scalar.least n.toScalar (ns.map Number.toScalar)
        | .greatest => Scalar.greatest n.toScalar (ns.map Number.toScalar))) = .finite k ∧
          (∃ h ∈ (n :: ns).map Handle.const, k = (semantics σ).int ρ h) ∧
            ∀ h ∈ (n :: ns).map Handle.const, e.Keeps k ((semantics σ).int ρ h) := by
      intro ρ hρ
      obtain ⟨k, hk, hmem, hkeeps⟩ := e.exists_best ((semantics σ).int ρ (.const n))
        (ns.map fun m => (semantics σ).int ρ (.const m))
      have hns : ns.map Number.toScalar =
          (ns.map fun m => (semantics σ).int ρ (.const m)).map fun n : ℤ => Exact.finite n := by
        rw [List.map_map]
        exact List.map_congr_left fun m hm => hexact ρ hρ m (List.mem_cons_of_mem _ hm)
      have hall : (semantics σ).int ρ (.const n) :: ns.map (fun m => (semantics σ).int ρ (.const m)) =
          ((n :: ns).map Handle.const).map ((semantics σ).int ρ) := by simp
      rw [hall] at hmem hkeeps
      obtain ⟨h, hh, rfl⟩ := List.mem_map.mp hmem
      refine ⟨_, ?_, ⟨h, hh, rfl⟩, fun h' hh' => hkeeps _ (List.mem_map_of_mem hh')⟩
      rw [scalar, value_const, exact_real, hns, hexact ρ hρ n (by simp)]
      exact hk
    refine ⟨G, .refl hv, usable_of_held (held_iff.mpr ⟨hv.world.const_mem _, fun ρ hρ => ?_⟩),
      fun ρ hρ => ?_, .refl⟩
    · obtain ⟨k, hk, -⟩ := hbest ρ hρ
      exact ⟨k, hk⟩
    · obtain ⟨k, hk, h⟩ := hbest ρ hρ
      have hint := int_eq (σ := σ) hk
      subst hint
      exact h
  · exact absurd hr runs_fail
  · rename_i hnot
    cases hs with
    | nil => simp at hnot
    | cons x xs => exact computes_newExtremum hP e x xs hv hargs hr

/-! ### Conditionals -/

/-- A gate that is an indicator lets a term pass where the statement holds. -/
theorem gated_indicator (hP : Documented P) {p : (HandleId → ℚ) → Prop} [∀ ρ, Decidable (p ρ)]
    (hv : (semantics σ).Valid G s) (hb : b ∈ G)
    (hbvalue : ∀ ρ, Admitted ρ s → value ρ b = .finite (indicator (p ρ) : ℤ)) (hh : h ∈ G)
    (hr : (gated P b h).Runs s k s') :
    ∃ G', Settles G s G' s' (fun _ => True) ∧ k ∈ G' ∧ ∀ ρ, Admitted ρ s' → ∀ q,
      value ρ h = .finite q → value ρ k = .finite (if p ρ then q else 0) := by
  obtain ⟨G', hs, hk, hvalue⟩ := gives_gated hP hv.world hb hh hr
  have g := hs.settles hv
  refine ⟨G', g, hk, fun ρ hρ q hq => ?_⟩
  obtain ⟨h0, h1⟩ := hvalue ρ q hq
  rw [hbvalue ρ (g.admits ρ hρ)] at h0 h1
  split
  · exact h1 (by simp [indicator, *])
  · exact h0 (by simp [indicator, *])

/-- A number that is an indicator is zero where the statement does not hold. -/
theorem isZero_of_indicator {p : Prop} [Decidable p] {n : Number Exact}
    (hn : value ρ (.const n) = .finite (indicator p : ℤ)) : n.isZero = true ↔ ¬ p := by
  rw [isZero_iff, ← value_const (ρ := ρ) n, hn, Exact.finite.injEq, Int.cast_eq_zero,
    indicator_eq_zero]

/-- A gate that is one where another is not. -/
theorem complement_indicator {p : (HandleId → ℚ) → Prop} [∀ ρ, Decidable (p ρ)]
    (hv : (semantics σ).Valid G s) (hb : b ∈ G)
    (hbvalue : ∀ ρ, Admitted ρ s → value ρ b = .finite (indicator (p ρ) : ℤ))
    (hr : (LowerM.sub (integer 1) b : TolerantM Exact σ Expr).Runs s k s') :
    ∃ G', Settles G s G' s' (fun _ => True) ∧ k ∈ G' ∧ ∀ ρ, Admitted ρ s' →
      value ρ k = .finite (indicator (¬ p ρ) : ℤ) := by
  obtain ⟨G', hs, hk, hvalue⟩ := gives_sub hv.world (hv.world.const_mem (.int 1)) hb hr
  have g := hs.settles hv
  refine ⟨G', g, hk, fun ρ hρ => ?_⟩
  rw [hvalue, value_const, exact_int, hbvalue ρ (g.admits ρ hρ), indicator_not, Exact.finite_sub,
    Int.cast_sub]

theorem computes_conditional (hP : Documented P) (x y z : Expr) :
    (semantics σ).Computes (conditional P x y z) [x, y, z]
      (fun ρ n => n = if (semantics σ).int ρ x = 0 then (semantics σ).int ρ z
        else (semantics σ).int ρ y) fun _ => True := by
  intro G s k s' hv hargs hr
  obtain ⟨c, s₁, htruth, hr⟩ := runs_bind.mp hr
  obtain ⟨G₁, g₁, hc, hcvalue, e₁⟩ := truth_spec hP hv (hargs x (by simp)) htruth
  have hy := (hargs y (by simp)).mono g₁.toGrows
  have hz := (hargs z (by simp)).mono g₁.toGrows
  split at hr
  · rename_i n hn
    obtain rfl := Handle.eq_const hn
    obtain ⟨rfl, rfl⟩ := runs_pure.mp hr
    refine ⟨G₁, g₁, ?_, fun ρ hρ => ?_, e₁⟩
    · split <;> assumption
    · have hzero := isZero_of_indicator (hcvalue ρ hρ)
      rw [not_not] at hzero
      show (semantics σ).int ρ (if n.isZero = true then z else y) = _
      rw [if_congr hzero rfl rfl]
      split <;> rfl
  · obtain ⟨t, s₂, hchosen, hr⟩ := runs_bind.mp hr
    obtain ⟨b, s₃, hnot, hr⟩ := runs_bind.mp hr
    obtain ⟨e, s₄, hother, hadd⟩ := runs_bind.mp hr
    obtain ⟨G₂, g₂, ht, htvalue⟩ := gated_indicator hP g₁.valid hc hcvalue hy.mem hchosen
    obtain ⟨G₃, g₃, hb, hbvalue⟩ := complement_indicator g₂.valid (g₂.subset hc)
      (fun ρ hρ => hcvalue ρ (g₂.admits ρ hρ)) hnot
    obtain ⟨G₄, g₄, he, hevalue⟩ := gated_indicator hP g₃.valid hb hbvalue
      ((g₂.trans g₃).subset hz.mem) hother
    obtain ⟨G₅, hs, hk, hkvalue⟩ := gives_add g₄.valid.world ((g₃.trans g₄).subset ht) he hadd
    have g₅ := hs.settles g₄.valid
    have g := g₂.after (g₃.after (g₄.after g₅))
    obtain ⟨u, hint⟩ := usable_of_value (f := fun ρ => if (semantics σ).int ρ x = 0 then
      (semantics σ).int ρ z else (semantics σ).int ρ y) hk fun ρ hρ => by
        have hρ₄ := g₅.admits ρ hρ
        have hρ₂ := (g₃.trans g₄).admits ρ hρ₄
        have hρ₁ := g₂.admits ρ hρ₂
        rw [hkvalue, htvalue ρ hρ₂ _ (value_eq (hy.integral ρ hρ₁)),
          hevalue ρ hρ₄ _ (value_eq (hz.integral ρ hρ₁)), Exact.finite_add]
        by_cases h0 : (semantics σ).int ρ x = 0 <;> simp [h0]
    exact ⟨G₅, g₁.trans g.toStep, u, hint, e₁.trans_always g₁.toGrows g.toGrows g.extends_⟩

/-! ### First matches -/

/-- The complement of a truth value that may be a number. -/
theorem complement_truth {p : (HandleId → ℚ) → Prop} [∀ ρ, Decidable (p ρ)]
    (hv : (semantics σ).Valid G s) (hb : b ∈ G)
    (hbvalue : ∀ ρ, Admitted ρ s → value ρ b = .finite (indicator (p ρ) : ℤ))
    (hr : (match b.number? with
      | some x => pure (.const (realOne.sub x))
      | none => LowerM.sub (integer 1) b : TolerantM Exact σ Expr).Runs s k s') :
    ∃ G', Settles G s G' s' (fun _ => True) ∧ k ∈ G' ∧ ∀ ρ, Admitted ρ s' →
      value ρ k = .finite (indicator (¬ p ρ) : ℤ) := by
  split at hr
  · rename_i x hx
    obtain rfl := Handle.eq_const hx
    obtain ⟨rfl, rfl⟩ := runs_pure.mp hr
    refine ⟨G, .refl hv, hv.world.const_mem _, fun ρ hρ => ?_⟩
    have hvalue := hbvalue ρ hρ
    rw [value_const] at hvalue
    rw [value_const, exact_sub, hvalue, indicator_not, Int.cast_sub, Int.cast_one,
      ← Exact.finite_sub]
    rfl
  · exact complement_indicator hv hb hbvalue hr

theorem value_eq_ratOf (hx : ∃ q, value ρ x = .finite q) : value ρ x = .finite (ratOf (value ρ x)) := by
  obtain ⟨q, hq⟩ := hx
  rw [hq]
  rfl

/-- The gated values sum up to the first match, where the last argument is gated by what is left. The
conditions are integral, the values need not be. -/
theorem gatePairs_spec (hP : Documented P) {p : (HandleId → ℚ) → Prop} [∀ ρ, Decidable (p ρ)]
    {pairs : List (Expr × Expr)} {pending pending' : Expr} {terms : List Expr}
    (hv : (semantics σ).Valid G s) (hpairs : ∀ q ∈ pairs, (semantics σ).Usable G s q.1 ∧ q.2 ∈ G)
    (hpending : pending ∈ G)
    (hvalue : ∀ ρ, Admitted ρ s → value ρ pending = .finite (indicator (p ρ) : ℤ))
    (hr : (gatePairs P pending pairs).Runs s (terms, pending') s') :
    ∃ G', (semantics σ).Step G s G' s' ∧ (semantics σ).Extends s s' (fun _ => True) ∧
      (∀ t ∈ terms, t ∈ G') ∧ pending' ∈ G' ∧ ∀ ρ, Admitted ρ s' →
        value ρ pending' =
          .finite (indicator (p ρ ∧ ∀ q ∈ pairs, (semantics σ).int ρ q.1 = 0) : ℤ) ∧
        ((∀ q ∈ pairs, ∃ r, value ρ q.2 = .finite r) → (∀ t ∈ terms, ∃ r, value ρ t = .finite r) ∧
          ∀ o : ℚ, (terms.map fun t => ratOf (value ρ t)).sum +
              (if p ρ ∧ ∀ q ∈ pairs, (semantics σ).int ρ q.1 = 0 then o else 0) =
            if p ρ then chosen (pairs.map fun q => ((semantics σ).int ρ q.1, ratOf (value ρ q.2))) o
              else 0) := by
  induction pairs generalizing G s p pending terms with
  | nil =>
    obtain ⟨h, rfl⟩ := runs_pure.mp hr
    obtain ⟨rfl, rfl⟩ := Prod.mk.inj h
    refine ⟨G, .refl hv, .refl, by simp, hpending, fun ρ hρ => ⟨?_, fun _ => ?_⟩⟩
    · rw [hvalue ρ hρ]
      simp
    · exact ⟨by simp, fun o => by simp [chosen]⟩
  | cons q pairs ih =>
    obtain ⟨condition, v⟩ := q
    obtain ⟨⟨hcondition, hvmem⟩, hpairs⟩ := List.forall_mem_cons.mp hpairs
    obtain ⟨c, s₁, htruth, hr⟩ := runs_bind.mp hr
    obtain ⟨gate, s₂, hgate, hr⟩ := runs_bind.mp hr
    obtain ⟨t, s₃, hterm, hr⟩ := runs_bind.mp hr
    obtain ⟨notC, s₄, hnot, hr⟩ : ∃ notC s₄, (match c.number? with
        | some x => pure (.const (realOne.sub x))
        | none => LowerM.sub (integer 1) c : TolerantM Exact σ Expr).Runs s₃ notC s₄ ∧ (do
          let pending ← gated P pending notC
          let r ← gatePairs P pending pairs
          return (t :: r.1, r.2)).Runs s₄ (terms, pending') s' := by
      split at hr
      · rename_i x hx
        exact ⟨_, s₃, by rw [hx]; exact runs_pure.mpr ⟨rfl, rfl⟩, hr⟩
      · rename_i hx
        obtain ⟨notC, s₄, hnot, hr⟩ := runs_bind.mp hr
        exact ⟨notC, s₄, by rwa [hx], hr⟩
    obtain ⟨pending₁, s₅, hleft, hr⟩ := runs_bind.mp hr
    obtain ⟨⟨terms, _⟩, s₆, hrest, hr⟩ := runs_bind.mp hr
    obtain ⟨h, rfl⟩ := runs_pure.mp hr
    obtain ⟨rfl, rfl⟩ := Prod.mk.inj h
    obtain ⟨G₁, g₁, hc, hcvalue, e₁⟩ := truth_spec hP hv hcondition htruth
    obtain ⟨G₂, hs₂, hgmem, hgvalue⟩ := gated_truth hP g₁.valid.world (g₁.subset hpending) hc
      (fun ρ hρ => hvalue ρ (g₁.admits ρ hρ)) hcvalue hgate
    have g₂ := hs₂.settles g₁.valid
    obtain ⟨G₃, g₃, ht, htvalue⟩ := gated_indicator hP g₂.valid hgmem
      (fun ρ hρ => hgvalue ρ (g₂.admits ρ hρ)) ((g₁.trans g₂.toStep).subset hvmem) hterm
    have g₂₃ := g₂.after g₃
    obtain ⟨G₄, g₄, hn, hnvalue⟩ := complement_truth g₃.valid (g₂₃.subset hc)
      (fun ρ hρ => hcvalue ρ (g₂₃.admits ρ hρ)) hnot
    have g₁₄ := g₁.trans (g₂₃.after g₄).toStep
    obtain ⟨G₅, hs₅, hp, hpvalue⟩ := gated_truth hP g₄.valid.world (g₁₄.subset hpending) hn
      (fun ρ hρ => hvalue ρ (g₁₄.admits ρ hρ)) hnvalue hleft
    have g₅ := hs₅.settles g₄.valid
    have g := g₂₃.after (g₄.after g₅)
    have g₁₅ := g₁.trans g.toStep
    obtain ⟨G₆, g₆, e₆, hterms, hpending', hsum⟩ := ih g₅.valid (fun q hq =>
      ⟨(hpairs q hq).1.mono g₁₅.toGrows, g₁₅.subset (hpairs q hq).2⟩) hp
      (fun ρ hρ => hpvalue ρ (g₅.admits ρ hρ)) hrest
    have hiff : ∀ ρ, ((p ρ ∧ ¬ (semantics σ).int ρ condition ≠ 0) ∧
        ∀ q ∈ pairs, (semantics σ).int ρ q.1 = 0) ↔
          p ρ ∧ ∀ q ∈ (condition, v) :: pairs, (semantics σ).int ρ q.1 = 0 := fun ρ => by
      rw [and_assoc, not_not, List.forall_mem_cons]
    refine ⟨G₆, g₁₅.trans g₆, ?_, ?_, hpending', fun ρ hρ => ?_⟩
    · exact (e₁.trans_always g₁.toGrows g.toGrows g.extends_).trans_always g₁₅.toGrows g₆.toGrows e₆
    · exact List.forall_mem_cons.mpr ⟨((g₄.after g₅).toStep.trans g₆).subset ht, hterms⟩
    · obtain ⟨hpvalue', hsum⟩ := hsum ρ hρ
      refine ⟨hpvalue'.trans (by rw [indicator_congr (hiff ρ)]), fun hfinite => ?_⟩
      obtain ⟨⟨r, hq⟩, hfinite⟩ := List.forall_mem_cons.mp hfinite
      obtain ⟨hterms', hsum⟩ := hsum hfinite
      have htr := htvalue ρ ((g₄.after g₅).admits ρ (g₆.admits ρ hρ)) r hq
      refine ⟨List.forall_mem_cons.mpr ⟨⟨_, htr⟩, hterms'⟩, fun o => ?_⟩
      have hsum := hsum o
      rw [if_congr (hiff ρ) rfl rfl] at hsum
      rw [List.map_cons, List.sum_cons, htr, add_assoc, hsum, List.map_cons]
      dsimp only at hq ⊢
      by_cases hp : p ρ <;> by_cases h0 : (semantics σ).int ρ condition = 0 <;>
        simp [hp, h0, chosen, hq, ratOf]

/-- What is left out of a sum is zero. -/
theorem sum_map_filter {β M : Type} [AddMonoid M] {f : β → M} {p : β → Bool} {xs : List β}
    (h : ∀ x ∈ xs, p x = false → f x = 0) : ((xs.filter p).map f).sum = (xs.map f).sum := by
  induction xs with
  | nil => rfl
  | cons x xs ih =>
    obtain ⟨hx, hxs⟩ := List.forall_mem_cons.mp h
    cases hp : p x with
    | true => simp [hp, ih hxs]
    | false => simp [hp, ih hxs, hx hp]

/-- A sum of finite terms from which zeros may be left out. -/
theorem total_filter (hP : Documented P) {ts : List Expr} (hw : World G s.nextHandle)
    (hts : ∀ t ∈ ts, t ∈ G)
    (hr : (P.total (ts.filter fun t => !t.number?.any Number.isZero)).Runs s k s') :
    Silent.Gives G s k s' fun ρ v => (∀ t ∈ ts, ∃ q, value ρ t = .finite q) →
      v = .finite (ts.map fun t => ratOf (value ρ t)).sum := by
  obtain ⟨G', hs, hk, hvalue⟩ := hP.total hw (fun t ht => hts t (List.mem_filter.mp ht).1) hr
  refine ⟨G', hs, hk, fun ρ hfinite => ?_⟩
  rw [hvalue ρ ((ts.filter fun t => !t.number?.any Number.isZero).map fun t => ratOf (value ρ t)) ?_]
  · refine congrArg Exact.finite (sum_map_filter fun t _ hzero => ?_)
    obtain ⟨x, hx, hx0⟩ := (Option.any_eq_true _ _).mp (by simpa using hzero)
    obtain rfl := Handle.eq_const hx
    rw [value_const, isZero_iff.mp hx0]
    rfl
  · rw [List.map_map]
    exact List.map_congr_left fun t ht => value_eq_ratOf (hfinite t (List.mem_filter.mp ht).1)

/-- A first match has the value of the handle that is chosen, where the conditions are integral and all
values are finite. -/
theorem firstMatch_spec (hP : Documented P) {conditions values : List Expr} {otherwise : Expr}
    (hv : (semantics σ).Valid G s) (hconditions : ∀ c ∈ conditions, (semantics σ).Usable G s c)
    (hvalues : ∀ h ∈ otherwise :: values, h ∈ G)
    (hr : (firstMatch P conditions values otherwise).Runs s k s') :
    ∃ G', (semantics σ).Step G s G' s' ∧ (semantics σ).Extends s s' (fun _ => True) ∧ k ∈ G' ∧
      ∀ ρ, Admitted ρ s' → (∀ h ∈ otherwise :: values, ∃ q, value ρ h = .finite q) →
        value ρ k = value ρ (chosen ((conditions.map ((semantics σ).int ρ)).zip values) otherwise) := by
  obtain ⟨⟨terms, pending⟩, s₁, hpairs, hr⟩ := runs_bind.mp hr
  obtain ⟨last, s₂, hlast, htotal⟩ := runs_bind.mp hr
  obtain ⟨hother, hvalues⟩ := List.forall_mem_cons.mp hvalues
  obtain ⟨G₁, g₁, e₁, hterms, hpending, hpoint⟩ := gatePairs_spec hP (p := fun _ => True) hv
    (fun q hq => ⟨hconditions _ (List.of_mem_zip hq).1, hvalues _ (List.of_mem_zip hq).2⟩)
    (hv.world.const_mem _) (fun ρ _ => by simp [indicator]) hpairs
  obtain ⟨G₂, g₂, hlmem, hlvalue⟩ := gated_indicator hP g₁.valid hpending
    (fun ρ hρ => (hpoint ρ hρ).1) (g₁.subset hother) hlast
  have hall : ∀ t ∈ terms ++ [last], t ∈ G₂ := by
    simpa [or_imp, forall_and] using ⟨fun t ht => g₂.subset (hterms t ht), hlmem⟩
  obtain ⟨G₃, hs₃, hk, hsum⟩ := total_filter hP g₂.valid.world hall htotal
  have g₃ := hs₃.settles g₂.valid
  have g := g₂.after g₃
  refine ⟨G₃, g₁.trans g.toStep, e₁.trans_always g₁.toGrows g.toGrows g.extends_, hk,
    fun ρ hρ hfinite => ?_⟩
  have hρ₂ := g₃.admits ρ hρ
  obtain ⟨⟨r, hr⟩, hrest⟩ := List.forall_mem_cons.mp hfinite
  obtain ⟨hfinite₁, hterms'⟩ := (hpoint ρ (g₂.admits ρ hρ₂)).2
    fun q hq => hrest _ (List.of_mem_zip hq).2
  have hlr := hlvalue ρ hρ₂ r hr
  have hchosen := hterms' r
  rw [if_pos trivial] at hchosen
  rw [hsum ρ (by simpa [or_imp, forall_and] using ⟨hfinite₁, _, hlr⟩), List.map_append, List.sum_append,
    List.map_singleton, List.sum_singleton, hlr, ratOf, hchosen,
    value_eq_ratOf (hfinite _ (chosen_mem _ _ _)), map_chosen (fun h => ratOf (value ρ h)), hr,
    List.zip_map_left, List.map_map]
  rfl

theorem computes_firstMatch (hP : Documented P) (conditions values : List Expr) (otherwise : Expr) :
    (semantics σ).Computes (firstMatch P conditions values otherwise)
      (conditions ++ values ++ [otherwise])
      (fun ρ n => n = chosen ((conditions.map ((semantics σ).int ρ)).zip
        (values.map ((semantics σ).int ρ))) ((semantics σ).int ρ otherwise)) fun _ => True := by
  intro G s k s' hv hargs hr
  have hvalues : ∀ h ∈ otherwise :: values, (semantics σ).Usable G s h := fun h hh => hargs h (by
    rcases List.mem_cons.mp hh with rfl | hh <;> simp [*])
  obtain ⟨G', g, e, hk, hvalue⟩ := firstMatch_spec hP hv (fun c hc => hargs c (by simp [hc]))
    (fun h hh => (hvalues h hh).mem) hr
  obtain ⟨u, hint⟩ := usable_of_value (f := fun ρ => (semantics σ).int ρ
    (chosen ((conditions.map ((semantics σ).int ρ)).zip values) otherwise)) hk fun ρ hρ => by
      have hintegral := fun h hh => (hvalues h hh).integral ρ (g.admits ρ hρ)
      rw [hvalue ρ hρ fun h hh => ⟨_, value_eq (hintegral h hh)⟩]
      exact value_eq (hintegral _ (chosen_mem _ _ _))
  refine ⟨G', g, u, fun ρ hρ => ?_, e⟩
  rw [hint ρ hρ, map_chosen ((semantics σ).int ρ), ← List.zip_map, List.map_id]

/-! ### Lookups -/

/-- Positions that are zero need not be added up. -/
theorem sum_weighted_filter {β : Type} {f : β → ℤ} {pairs : List (β × Expr)}
    (hbinary : ∀ q ∈ pairs, IsBinary (value ρ q.2)) :
    ((pairs.filter (f ·.1 ≠ 0)).map fun q => f q.1 * (semantics σ).int ρ q.2).sum =
      (pairs.map fun q => if (semantics σ).int ρ q.2 = 1 then f q.1 else 0).sum := by
  refine (sum_map_filter fun q _ hq => ?_).trans (congrArg List.sum (List.map_congr_left fun q hq => ?_))
  · rw [show f q.1 = 0 by simpa using hq, zero_mul]
  · rcases int_binary (σ := σ) (hbinary q hq) with h | h <;> simp [h]

/-- What a binary variable gates is the handle's value or zero. -/
theorem value_of_gate {q : ℚ} (hb : IsBinary (value ρ b)) (hh : value ρ h = .finite q)
    (hgate : (value ρ b = .finite 0 → value ρ k = .finite 0) ∧
      (value ρ b = .finite 1 → value ρ k = .finite q)) :
    value ρ k = .finite (if (semantics σ).int ρ b = 1 then ratOf (value ρ h) else 0) := by
  rcases hb with hb0 | hb1
  · rw [hgate.1 hb0, int_eq (σ := σ) (n := 0) (by simpa using hb0), if_neg zero_ne_one]
  · rw [hgate.2 hb1, int_eq (σ := σ) (n := 1) (by simpa using hb1), if_pos rfl, hh]
    rfl

/-- A sum of multiples of integral terms. -/
theorem gives_weighted (hP : Documented P) {β : Type} {f : β → ℤ} {pairs : List (β × Expr)}
    (hw : World G s.nextHandle) (hpairs : ∀ q ∈ pairs, q.2 ∈ G)
    (hr : (do
      let terms ← pairs.mapM fun q => LowerM.mul (integer (f q.1)) q.2
      P.total terms : TolerantM Exact σ Expr).Runs s k s') :
    Silent.Gives G s k s' fun ρ v => (∀ q ∈ pairs, (semantics σ).Integral ρ q.2) →
      v = .finite ((pairs.map fun q => f q.1 * (semantics σ).int ρ q.2).sum : ℤ) := by
  have hterms : ∀ {G s s'} {ts : List Expr} {pairs : List (β × Expr)}, World G s.nextHandle →
      (∀ q ∈ pairs, q.2 ∈ G) → (pairs.mapM fun q => LowerM.mul (integer (f q.1)) q.2 :
        TolerantM Exact σ (List Expr)).Runs s ts s' → ∃ G', Silent G s G' s' ∧ (∀ t ∈ ts, t ∈ G') ∧
          ∀ ρ, (∀ q ∈ pairs, (semantics σ).Integral ρ q.2) → ts.map (value ρ) =
            (pairs.map fun q => ((f q.1 * (semantics σ).int ρ q.2 : ℤ) : ℚ)).map Exact.finite := by
    intro G s s' ts pairs hw hpairs hr
    induction pairs generalizing G s ts with
    | nil =>
      obtain ⟨rfl, rfl⟩ := runs_mapM_nil.mp hr
      exact ⟨G, silent_refl hw, by simp, fun _ _ => rfl⟩
    | cons q pairs ih =>
      obtain ⟨hq, hpairs⟩ := List.forall_mem_cons.mp hpairs
      obtain ⟨t, s₁, ts, hmul, hrest, rfl⟩ := runs_mapM_cons.mp hr
      obtain ⟨G₁, h₁, ht, hvalue⟩ := gives_mul hw (hw.const_mem (.int (f q.1))) hq hmul
      obtain ⟨G₂, h₂, hts, hvalues⟩ := ih h₁.world (fun q hq => h₁.subset (hpairs q hq)) hrest
      refine ⟨G₂, h₁.trans h₂, List.forall_mem_cons.mpr ⟨h₂.subset ht, hts⟩, fun ρ hint => ?_⟩
      obtain ⟨hq, hint⟩ := List.forall_mem_cons.mp hint
      rw [List.map_cons, hvalues ρ hint, hvalue, value_const, exact_int, value_eq hq,
        Exact.finite_mul, ← Int.cast_mul]
      rfl
  obtain ⟨ts, s₁, hmap, htotal⟩ := runs_bind.mp hr
  obtain ⟨G₁, h₁, hts, hvalues⟩ := hterms hw hpairs hmap
  obtain ⟨G₂, h₂, hk, hvalue⟩ := hP.total h₁.world hts htotal
  refine ⟨G₂, h₁.trans h₂, hk, fun ρ hint => ?_⟩
  rw [hvalue ρ _ (hvalues ρ hint), Int.cast_list_sum, List.map_map]
  rfl

/-- The position that is selected, as a sum over all positions but zero. -/
theorem positions_spec (hP : Documented P) {β : Type} {f : β → ℤ} {pairs : List (β × Expr)}
    (hv : (semantics σ).Valid G s) (hpairs : ∀ q ∈ pairs, q.2 ∈ G ∧
      ∀ ρ, Admitted ρ s → IsBinary (value ρ q.2))
    (hr : (do
      let positions ← (pairs.filter (f ·.1 ≠ 0)).mapM fun q => LowerM.mul (integer (f q.1)) q.2
      P.total positions : TolerantM Exact σ Expr).Runs s k s') :
    ∃ G', Settles G s G' s' (fun _ => True) ∧ (semantics σ).Usable G' s' k ∧
      ∀ ρ, Admitted ρ s' → (semantics σ).int ρ k =
        (pairs.map fun q => if (semantics σ).int ρ q.2 = 1 then f q.1 else 0).sum := by
  have hmem : ∀ q ∈ pairs.filter (f ·.1 ≠ 0), q ∈ pairs := fun q hq => (List.mem_filter.mp hq).1
  obtain ⟨G', hs, hk, hvalue⟩ := gives_weighted hP hv.world
    (fun q hq => (hpairs q (hmem q hq)).1) hr
  have g := hs.settles hv
  obtain ⟨u, hint⟩ := usable_of_value hk fun ρ hρ =>
    hvalue ρ fun q hq => ((hpairs q (hmem q hq)).2 ρ (g.admits ρ hρ)).integral
  exact ⟨G', g, u, fun ρ hρ => (hint ρ hρ).trans
    (sum_weighted_filter fun q hq => (hpairs q hq).2 ρ (g.admits ρ hρ))⟩

/-- Handles gated by binary variables. -/
theorem gated_all (hP : Documented P) {pairs : List ((ℤ × Expr) × Expr)} {ts : List Expr}
    (hv : (semantics σ).Valid G s) (hpairs : ∀ q ∈ pairs, q.1.2 ∈ G ∧ q.2 ∈ G ∧
      ∀ ρ, Admitted ρ s → IsBinary (value ρ q.2))
    (hr : (pairs.mapM fun q => gated P q.2 q.1.2).Runs s ts s') :
    ∃ G', Settles G s G' s' (fun _ => True) ∧ (∀ t ∈ ts, t ∈ G') ∧
      ∀ ρ, Admitted ρ s' → (∀ q ∈ pairs, ∃ r, value ρ q.1.2 = .finite r) → ts.map (value ρ) =
        (pairs.map fun q => if (semantics σ).int ρ q.2 = 1 then ratOf (value ρ q.1.2) else 0).map
          Exact.finite := by
  induction pairs generalizing G s ts with
  | nil =>
    obtain ⟨rfl, rfl⟩ := runs_mapM_nil.mp hr
    exact ⟨G, .refl hv, by simp, fun _ _ _ => rfl⟩
  | cons q pairs ih =>
    obtain ⟨⟨hh, hb, hbinary⟩, hpairs⟩ := List.forall_mem_cons.mp hpairs
    obtain ⟨t, s₁, ts, hgate, hrest, rfl⟩ := runs_mapM_cons.mp hr
    obtain ⟨G₁, hs, ht, hvalue⟩ := gives_gated hP hv.world hb hh hgate
    have g₁ := hs.settles hv
    obtain ⟨G₂, g₂, hts, hvalues⟩ := ih g₁.valid (fun q hq => by
      obtain ⟨hh, hb, hbinary⟩ := hpairs q hq
      exact ⟨g₁.subset hh, g₁.subset hb, fun ρ hρ => hbinary ρ (g₁.admits ρ hρ)⟩) hrest
    refine ⟨G₂, g₁.after g₂, List.forall_mem_cons.mpr ⟨g₂.subset ht, hts⟩, fun ρ hρ hfinite => ?_⟩
    obtain ⟨⟨r, hq⟩, hfinite⟩ := List.forall_mem_cons.mp hfinite
    rw [List.map_cons, List.map_cons, List.map_cons, hvalues ρ hρ hfinite,
      value_of_gate (σ := σ) (hbinary ρ (g₁.admits ρ (g₂.admits ρ hρ))) hq (hvalue ρ r hq)]

/-- The values beside the selectors, as a sum. -/
theorem selected_spec (hP : Documented P) {pairs : List ((ℤ × Expr) × Expr)}
    (hv : (semantics σ).Valid G s) (hpairs : ∀ q ∈ pairs, q.1.2 ∈ G ∧ q.2 ∈ G ∧
      ∀ ρ, Admitted ρ s → IsBinary (value ρ q.2))
    (hr : (do
      let terms ← pairs.mapM fun q => gated P q.2 q.1.2
      P.total terms : TolerantM Exact σ Expr).Runs s k s') :
    ∃ G', Settles G s G' s' (fun _ => True) ∧ k ∈ G' ∧
      ∀ ρ, Admitted ρ s' → (∀ q ∈ pairs, ∃ r, value ρ q.1.2 = .finite r) → value ρ k =
        .finite (pairs.map fun q => if (semantics σ).int ρ q.2 = 1 then ratOf (value ρ q.1.2) else 0).sum
      := by
  obtain ⟨ts, s₁, hmap, htotal⟩ := runs_bind.mp hr
  obtain ⟨G₁, g₁, hts, hvalues⟩ := gated_all hP hv hpairs hmap
  obtain ⟨G₂, hs, hk, hvalue⟩ := hP.total g₁.valid.world hts htotal
  have g₂ := hs.settles g₁.valid
  exact ⟨G₂, g₁.after g₂, hk, fun ρ hρ hfinite =>
    hvalue ρ _ (hvalues ρ (g₂.admits ρ hρ) hfinite)⟩

/-- A lookup takes an entry whose position equals the index, and any such entry can be taken. The index
is integral, the entries need not be. -/
theorem lookup_spec (hP : Documented P) {index : Expr} {entries : List (ℤ × Expr)}
    (hv : (semantics σ).Valid G s) (hindex : (semantics σ).Usable G s index)
    (hentries : ∀ e ∈ entries, e.2 ∈ G) (hr : (lookup P index entries).Runs s k s') :
    ∃ G', (semantics σ).Step G s G' s' ∧ k ∈ G' ∧
      (∀ ρ, Admitted ρ s' → ∃ e ∈ entries, (semantics σ).int ρ index = e.1 ∧
        ((∀ e ∈ entries, ∃ q, value ρ e.2 = .finite q) → value ρ k = value ρ e.2)) ∧
      (semantics σ).Extends s s' fun ρ => ∃ e ∈ entries, (semantics σ).int ρ index = e.1 := by
  obtain ⟨bs, s₁, hselectors, hr⟩ := runs_bind.mp hr
  obtain ⟨_, s₂, hone, hr⟩ := runs_bind.mp hr
  obtain ⟨positions, s₃, hpositions, hr⟩ := runs_bind.mp hr
  obtain ⟨chosen, s₄, htotal, hr⟩ := runs_bind.mp hr
  obtain ⟨d, s₅, hsub, hr⟩ := runs_bind.mp hr
  obtain ⟨_, s₆, hconstrain, hr⟩ := runs_bind.mp hr
  obtain ⟨hlen, G₂, g₂, hbs, hsel⟩ := selectors_spec hP hv hselectors hone
  have hindex₂ := hindex.mono g₂.toGrows
  have hpairs : ∀ q ∈ entries.zip bs, q.1.2 ∈ G₂ ∧ q.2 ∈ G₂ ∧
      ∀ ρ, Admitted ρ s₂ → IsBinary (value ρ q.2) := fun q hq => by
    obtain ⟨h₁, h₂⟩ := List.of_mem_zip hq
    exact ⟨g₂.subset (hentries _ h₁), hbs _ h₂, fun ρ hρ => hsel.binary ρ hρ _ h₂⟩
  obtain ⟨G₄, g₄, u₄, b₄⟩ := positions_spec hP g₂.valid (f := fun e : ℤ × Expr => e.1)
    (fun q hq => (hpairs q hq).2) (runs_bind.mpr ⟨positions, s₃, hpositions, htotal⟩)
  obtain ⟨G₆, g₆, b₆, e₆⟩ := posts_equal hP index chosen g₄.valid (by
    simpa using ⟨(hindex₂.mono g₄.toGrows).toHeld, u₄.toHeld⟩) (runs_bind.mpr ⟨d, s₅, hsub, hconstrain⟩)
  have g₂₆ := g₄.toStep.trans g₆
  obtain ⟨G₇, g₇, hk, b₇⟩ := selected_spec hP g₆.valid (fun q hq => by
    obtain ⟨hh, hb, hbinary⟩ := hpairs q hq
    exact ⟨g₂₆.subset hh, g₂₆.subset hb, fun ρ hρ => hbinary ρ (g₂₆.admits ρ hρ)⟩) hr
  refine ⟨G₇, g₂.trans (g₂₆.trans g₇.toStep), hk, fun ρ hρ => ?_, ?_⟩
  · have hρ₆ := g₇.admits ρ hρ
    have hρ₄ := g₆.admits ρ hρ₆
    have hρ₂ := g₄.admits ρ hρ₄
    obtain ⟨e, b, hmem, -, hsum⟩ := exists_selected_term hlen (hsel.binary ρ hρ₂) (hsel.sum ρ hρ₂)
    have he := (List.of_mem_zip hmem).1
    refine ⟨e, he, ?_, fun hfinite => ?_⟩
    · rw [b₆ ρ hρ₆, b₄ ρ hρ₄, hsum fun e => e.1]
    · rw [b₇ ρ hρ fun q hq => hfinite _ (List.of_mem_zip hq).1, hsum fun e => ratOf (value ρ e.2),
        ← value_eq_ratOf (hfinite e he)]
  · rintro ρ hcalm hρ ⟨e, he, hindexe⟩
    obtain ⟨ns, hnlen, hnbinary, hnsum, hselected⟩ := exists_selection he
    obtain ⟨ρ₂, ha₂, hρ₂, hns⟩ := hsel.takes ρ ns hρ (hnlen.trans hlen.symm) hnbinary hnsum
    have hsame : ∀ {h : Expr} {ρ₄ : HandleId → ℚ}, h ∈ G₂ → Agree s₂.nextHandle ρ₂ ρ₄ →
        (semantics σ).int ρ₂ h = (semantics σ).int ρ₄ h := fun hh ha =>
      congrArg intOf (value_congr g₂.valid.world hh ha)
    have hrest : (semantics σ).Extends s₂ s' fun ρ => ρ = ρ₂ := by
      refine g₄.extends_.trans g₄.toGrows (g₆.trans g₇.toStep).toGrows
        (e₆.trans_always g₆.toGrows g₇.toGrows g₇.extends_) (fun _ _ _ => trivial) ?_
      rintro _ ρ₄ - rfl ha hρ₄
      have hρ₂' := g₄.admits ρ₄ hρ₄
      obtain ⟨e', b, hmem, hb, hsum⟩ := exists_selected_term hlen (hsel.binary ρ₄ hρ₂')
        (hsel.sum ρ₄ hρ₂')
      have hns₄ : bs.map ((semantics σ).int ρ₄) = ns := by
        rw [← hns]
        exact List.map_congr_left fun b hb => (hsame (hbs b hb) ha).symm
      obtain rfl := eq_selected hns₄ hselected hmem hb
      rw [b₄ ρ₄ hρ₄, hsum fun e => e.1, ← hsame hindex₂.mem ha, ← hindexe]
      exact (congrArg intOf (value_congr hv.world hindex.mem ha₂)).symm
    obtain ⟨ρ', ha', hρ'⟩ := hrest ρ₂ hcalm hρ₂ rfl
    exact ⟨ρ', ha₂.trans g₂.next_le ha', hρ'⟩

theorem computes_lookup (hP : Documented P) (index : Expr) (entries : List (ℤ × Expr)) :
    (semantics σ).Computes (lookup P index entries) (index :: entries.map (·.2))
      (fun ρ n => ∃ e ∈ entries, (semantics σ).int ρ index = e.1 ∧ n = (semantics σ).int ρ e.2)
      fun ρ => ∃ e ∈ entries, (semantics σ).int ρ index = e.1 := by
  intro G s k s' hv hargs hr
  have hentries : ∀ e ∈ entries, (semantics σ).Usable G s e.2 := fun e he =>
    hargs e.2 (List.mem_cons_of_mem _ (List.mem_map_of_mem he))
  obtain ⟨G', g, hk, b, e⟩ := lookup_spec hP hv (hargs index (by simp))
    (fun e he => (hentries e he).mem) hr
  have hvalue : ∀ ρ, Admitted ρ s' → ∃ e ∈ entries, (semantics σ).int ρ index = e.1 ∧
      value ρ k = .finite ((semantics σ).int ρ e.2 : ℤ) := fun ρ hρ => by
    have hintegral := fun e he => (hentries e he).integral ρ (g.admits ρ hρ)
    obtain ⟨e, he, hindex, hvalue⟩ := b ρ hρ
    exact ⟨e, he, hindex, (hvalue fun e he => ⟨_, value_eq (hintegral e he)⟩).trans
      (value_eq (hintegral e he))⟩
  refine ⟨G', g, usable_of_held (held_iff.mpr ⟨hk, fun ρ hρ => ?_⟩), fun ρ hρ => ?_, e⟩
  · obtain ⟨e, -, -, hvalue⟩ := hvalue ρ hρ
    exact ⟨_, hvalue⟩
  · obtain ⟨e, he, hindex, hvalue⟩ := hvalue ρ hρ
    exact ⟨e, he, hindex, int_eq hvalue⟩

end DecisionModel.Tolerant
