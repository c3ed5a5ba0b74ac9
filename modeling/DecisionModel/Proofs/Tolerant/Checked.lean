import DecisionModel.Proofs.Tolerant.Trust

/-!
# Tolerant lowering with checked products

Each operation of tolerant lowering does the same with checked products: the first factor of each product
is a truth value, that is, a binary variable, its complement, or a product of such. What an operation
marks is one as well; for a membership table this needs that exactly one entry is selected. So the two
back-ends agree (`agree_checked`).
-/

namespace DecisionModel.Tolerant

open LowerM

variable {σ : Type} {P : Primitives Exact σ} {w : Stage (Number Exact) ℚ} {b h k x y : Expr}

/-! ### Gated handles -/

/-- The value of a gated handle, as far as it is known. -/
def IsGated (b h k : Expr) : Prop := ∀ ρ q, value ρ h = .finite q →
  (value ρ b = .finite 0 → value ρ k = .finite 0) ∧ (value ρ b = .finite 1 → value ρ k = .finite q)

theorem alike_gated (hP : P.Closed) (hb : IsTruth w b) (hh : w.Has h) :
    Alike Trusted w (gated P b h) (gated P.checked b h) fun w k => w.Has k ∧ IsGated b h k := by
  have halike : Alike Trusted w (gated P b h) (gated P.checked b h) Stage.Has := by
    unfold gated
    split
    · split
      · exact alike_const _
      · exact alike_pure hh
    · exact alike_ite (alike_const _) (alike_mul hb.has hh)
    · intro s hs
      obtain ⟨-, hgate⟩ := hP.gate hb.has hh s hs
      exact ⟨run_checked_gate (hs.own.gates hb h), hgate⟩
  refine halike.and_runs fun s k s' hs hr => ?_
  obtain ⟨-, -, -, hvalue⟩ := gives_gated hP.documented hs.own.world hb.has hh hr
  exact fun ρ => hvalue ρ

/-- A product of truth values is a truth value. -/
theorem alike_gated_truth (hP : P.Closed) (hb : IsTruth w b) (hh : IsTruth w h) :
    Alike Trusted w (gated P b h) (gated P.checked b h) IsTruth := by
  refine (alike_gated hP hb hh.has).mono fun w' hw k ⟨hk, hgated⟩ => ⟨hk, fun {ρ} hρ => ?_⟩
  rcases hh.binary (hw.2 hρ) with hq | hq <;> rcases hb.binary (hw.2 hρ) with h0 | h1
  · exact .inl ((hgated ρ 0 hq).1 h0)
  · exact .inl ((hgated ρ 0 hq).2 h1)
  · exact .inl ((hgated ρ 1 hq).1 h0)
  · exact .inr ((hgated ρ 1 hq).2 h1)

theorem IsBinary.oneMinus {v : Exact} (hv : IsBinary v) : IsBinary ((Exact.finite 1).sub v) := by
  rcases hv with rfl | rfl
  · exact .inr (by simp)
  · exact .inl (by simp)

/-- The complement of a truth value is one. -/
theorem alike_oneMinus (hb : IsTruth w b) :
    Alike Trusted w (sub (integer 1) b : TolerantM Exact σ Expr) (sub (integer 1) b) IsTruth := by
  have hone : w.Has (integer 1) := w.has_const _
  have halike : Alike Trusted w (sub (integer 1) b : TolerantM Exact σ Expr) (sub (integer 1) b)
      Stage.Has := alike_sub hone hb.has
  have hvalue := halike.and_runs
    (F := fun k => ∀ ρ, value ρ k = (value ρ (integer 1)).sub (value ρ b)) fun s k s' hs hr => by
      obtain ⟨-, -, -, hvalue⟩ := gives_sub hs.own.world hone hb.has hr
      exact hvalue
  refine hvalue.mono fun w' hw k ⟨hk, hsub⟩ => ⟨hk, fun {ρ} hρ => ?_⟩
  rw [hsub, integer, value_const, exact_int, Int.cast_one]
  exact (hb.binary (hw.2 hρ)).oneMinus

theorem isTruth_zero (w : Stage (Number Exact) ℚ) : IsTruth w zero :=
  ⟨w.has_const _, fun _ => .inl (by simp [zero, scalar])⟩

theorem isTruth_one (w : Stage (Number Exact) ℚ) : IsTruth w one :=
  ⟨w.has_const _, fun _ => .inr (by simp [one, scalar])⟩

/-! ### Truth -/

theorem alike_postComparison (hP : P.Closed) (c : Comparison) (hx : w.Has x) (hy : w.Has y) :
    Alike Trusted w (postComparison P c x y) (postComparison P.checked c x y) Stage.Admits := by
  refine alike_bind alike_epsilon fun w₁ hw₁ _ _ => ?_
  refine alike_bind (alike_sub (hx.mono hw₁) (hy.mono hw₁)) fun w₂ _ δ hδ => ?_
  cases c with
  | le => exact alike_constrain hP hδ _ _
  | lt => exact alike_bind alike_negatedThreshold fun _ hw _ _ => alike_constrain hP (hδ.mono hw) _ _
  | ge => exact alike_constrain hP hδ _ _
  | gt => exact alike_bind alike_threshold fun _ hw _ _ => alike_constrain hP (hδ.mono hw) _ _
  | eq => exact alike_constrain hP hδ _ _
  | ne =>
    refine alike_bind (hP.absolute hδ) fun w₃ _ magnitude hm => ?_
    exact alike_bind alike_threshold fun _ hw _ _ => alike_constrain hP (hm.mono hw) _ _

/-- One gated range, for a handle that is made first. -/
theorem alike_requireGated_of {β : Type} {Q : Stage (Number Exact) ℚ → β → Prop} (hP : P.Closed)
    {m : TolerantM Exact σ Expr} {rest rest' : TolerantM Exact σ β} (hb : IsTruth w b)
    (hm : Alike Trusted w m m Stage.Has) (hrest : ∀ w', w ≤ w' → Alike Trusted w' rest rest' Q) :
    Alike Trusted w (m >>= fun h => requireGated P b h >>= fun _ => rest)
      (m >>= fun h => requireGated P.checked b h >>= fun _ => rest') Q := by
  refine alike_bind hm fun w₁ hw₁ h hh => ?_
  refine alike_bind (alike_bind (alike_gated hP (hb.mono hw₁) hh) fun w₂ _ k hk =>
    alike_constrain hP hk.1 _ _) fun w₃ hw₃ _ _ => hrest w₃ (hw₁.trans hw₃)

/-- A comparison becomes a new binary variable. The variable gates one range, its complement another. -/
theorem alike_reify (hP : P.Closed) (c : Comparison) (hx : w.Has x) (hy : w.Has y) :
    Alike Trusted w (reify P c x y) (reify P.checked c x y) IsTruth := by
  refine alike_bind alike_epsilon fun w₁ hw₁ ε _ => alike_bind alike_threshold fun w₂ hw₂ u _ => ?_
  refine alike_bind alike_negatedThreshold fun w₃ hw₃ l _ => ?_
  have hw₀ := hw₁.trans (hw₂.trans hw₃)
  refine alike_bind (alike_sub (hx.mono hw₀) (hy.mono hw₀)) fun w₄ hw₄ δ hδ₄ => ?_
  refine alike_bind (alike_newBinary hP _) fun w₅ hw₅ b hb₅ => ?_
  refine alike_bind (alike_oneMinus hb₅.1) fun w₆ hw₆ notB hn => ?_
  have hδ := hδ₄.mono (hw₅.trans hw₆)
  have hb := hb₅.1.mono hw₆
  have hend {w} (hw : w₆ ≤ w) : Alike Trusted w (pure b : TolerantM Exact σ Expr) (pure b) IsTruth :=
    alike_pure (hb.mono hw)
  have hfirst {m rest rest' : TolerantM Exact σ Expr} (hm : Alike Trusted w₆ m m Stage.Has)
      (hrest : ∀ w, w₆ ≤ w → Alike Trusted w rest rest' IsTruth) := alike_requireGated_of hP hb hm hrest
  have hlast {w} (hw : w₆ ≤ w) {m : TolerantM Exact σ Expr} (hm : Alike Trusted w m m Stage.Has) :=
    alike_requireGated_of hP (hn.mono hw) hm fun w' hw' => hend (hw.trans hw')
  have hc {w : Stage (Number Exact) ℚ} (z : Number Exact) : w.Has (.const z) := w.has_const z
  cases c with
  | ge => exact hfirst (alike_add hδ (hc ε)) fun w hw => hlast hw (alike_sub (hc l) (hδ.mono hw))
  | le => exact hfirst (alike_sub (hc ε) hδ) fun w hw => hlast hw (alike_sub (hδ.mono hw) (hc u))
  | gt => exact hfirst (alike_sub hδ (hc u)) fun w hw => hlast hw (alike_sub (hc ε) (hδ.mono hw))
  | lt => exact hfirst (alike_sub (hc l) hδ) fun w hw => hlast hw (alike_add (hδ.mono hw) (hc ε))
  | eq =>
    refine hfirst (alike_sub (hc ε) hδ) fun w hw => alike_requireGated_of hP (hb.mono hw)
      (alike_add (hc ε) (hδ.mono hw)) fun w' hw' => ?_
    refine alike_bind (hP.absolute (hδ.mono (hw.trans hw'))) fun w'' hw'' magnitude hm => ?_
    exact hlast (hw.trans (hw'.trans hw'')) (alike_sub hm (hc u))
  | ne =>
    refine alike_bind (hP.absolute hδ) fun w₇ hw₇ magnitude hm => ?_
    refine alike_requireGated_of hP (hb.mono hw₇) (alike_sub hm (hc u)) fun w hw => ?_
    exact hlast (hw₇.trans hw) (alike_sub (hc ε) (hm.mono hw))

theorem alike_newTruth (hP : P.Closed) (hh : w.Has h) :
    Alike Trusted w (newTruth P h) (newTruth P.checked h) IsTruth := by
  refine alike_bind alike_epsilon fun w₁ hw₁ ε _ => alike_bind alike_threshold fun w₂ hw₂ u _ => ?_
  refine alike_bind (alike_newBinary hP _) fun w₃ hw₃ b ⟨hb, _⟩ => ?_
  refine alike_bind (hP.absolute (hh.mono (hw₁.trans (hw₂.trans hw₃)))) fun w₄ hw₄ magnitude hm => ?_
  refine alike_bind (alike_mul (w₄.has_const u) (hb.has.mono hw₄)) fun w₅ hw₅ ub hub => ?_
  refine alike_bind (alike_sub (hm.mono hw₅) hub) fun w₆ hw₆ gap hgap => ?_
  refine alike_bind (alike_constrain hP hgap _ _) fun w₇ hw₇ _ _ => ?_
  have hb₇ := hb.mono (hw₄.trans (hw₅.trans (hw₆.trans hw₇)))
  refine alike_bind (alike_oneMinus hb₇) fun w₈ hw₈ notB hn => ?_
  have hm₈ := hm.mono (hw₅.trans (hw₆.trans (hw₇.trans hw₈)))
  refine alike_bind (alike_sub hm₈ (w₈.has_const ε)) fun w₉ hw₉ rest hrest => ?_
  refine alike_bind (alike_gated hP (hn.mono hw₉) hrest) fun w₁₀ hw₁₀ k hk => ?_
  refine alike_bind (alike_constrain hP hk.1 _ _) fun w₁₁ hw₁₁ _ _ => ?_
  exact alike_pure (hb₇.mono (hw₈.trans (hw₉.trans (hw₁₀.trans hw₁₁))))

/-- The truth value of a handle: a marked handle is its own, and the table holds those of others. -/
theorem alike_truth (hP : P.Closed) (hh : w.Has h) :
    Alike Trusted w (truth P h) (truth P.checked h) IsTruth := by
  unfold truth
  split
  · split
    · exact alike_pure (isTruth_zero w)
    · exact alike_pure (isTruth_one w)
  · rename_i hnumber hid
    exact absurd hid (Handle.id?_ne_none hnumber)
  · rename_i id _ hid
    refine alike_withEncoding fun n e ht => ?_
    split
    · rename_i hm
      -- The mark was set for this very handle, since no other one in circulation has its identity.
      exact alike_pure (ht.isTruth hh hid (List.contains_iff_mem.mp hm))
    · split
      · rename_i b hfound
        exact alike_pure (ht.booleans (Table.mem_of_get? hfound)).1
      · refine alike_bind (alike_newTruth hP hh) fun w₁ hw₁ b hb => ?_
        refine alike_bind (Q := Stage.Admits) (alike_modifyEncoding fun n e ht =>
          ⟨w₁, le_rfl, ?_, trivial⟩) fun w₂ hw₂ _ _ => alike_pure (hb.mono hw₂)
        refine ht.note rfl rfl (fun _ => .inl) (fun _ => .inl) fun p hp => ?_
        rcases List.mem_cons.mp hp with rfl | hp
        · exact .inr ⟨hb, h, hh.mono hw₁, hid⟩
        · exact .inl hp

theorem alike_complement (hP : P.Closed) (hh : w.Has h) :
    Alike Trusted w (complement P h) (complement P.checked h) Stage.Has := by
  refine alike_bind (alike_truth hP hh) fun w₁ _ b hb => ?_
  cases b.number? with
  | some x => exact alike_const _
  | none =>
    exact (alike_bind (alike_oneMinus hb) fun _ _ _ hn => alike_markBinary hn).mono
      fun _ _ _ hn => hn.has

theorem alike_conjoinFrom (hP : P.Closed) (hb : IsTruth w b) {hs : List Expr} (hhs : w.HasAll hs) :
    Alike Trusted w (conjoinFrom P b hs) (conjoinFrom P.checked b hs) IsTruth := by
  induction hs generalizing w b with
  | nil => exact alike_markBinary hb
  | cons h hs ih =>
    obtain ⟨hfirst, hrest⟩ := Stage.hasAll_cons.mp hhs
    refine alike_bind (alike_truth hP hfirst) fun w₁ hw₁ t ht => ?_
    refine alike_bind (alike_gated_truth hP (hb.mono hw₁) ht) fun w₂ hw₂ k hk => ?_
    refine alike_ite (alike_pure (isTruth_zero w₂)) ?_
    exact ih hk (hrest.mono (hw₁.trans hw₂))

theorem alike_conjoin (hP : P.Closed) {hs : List Expr} (hhs : w.HasAll hs) :
    Alike Trusted w (conjoin P hs) (conjoin P.checked hs) Stage.Has :=
  (alike_conjoinFrom hP (isTruth_one w) hhs).mono fun _ _ _ hk => hk.has

theorem alike_openTruths (hP : P.Closed) {hs : List Expr} (hhs : w.HasAll hs) :
    Alike Trusted w (openTruths P hs) (openTruths P.checked hs) fun w o => ∀ bs ∈ o, w.HasAll bs := by
  induction hs generalizing w with
  | nil => exact alike_pure (by simp)
  | cons h hs ih =>
    obtain ⟨hfirst, hrest⟩ := Stage.hasAll_cons.mp hhs
    refine alike_bind (alike_truth hP hfirst) fun w₁ hw₁ b hb => ?_
    cases b.number? with
    | some x => exact alike_ite (ih (hrest.mono hw₁)) (alike_pure (by simp))
    | none =>
      refine alike_bind (ih (hrest.mono hw₁)) fun w₂ hw₂ o ho => alike_pure fun bs hbs => ?_
      obtain ⟨bs, hmem, rfl⟩ := Option.map_eq_some_iff.mp hbs
      exact Stage.hasAll_cons.mpr ⟨hb.has.mono hw₂, ho bs hmem⟩

theorem alike_disjoin (hP : P.Closed) {hs : List Expr} (hhs : w.HasAll hs) :
    Alike Trusted w (disjoin P hs) (disjoin P.checked hs) Stage.Has := by
  refine alike_bind (alike_openTruths hP hhs) fun w₁ _ o ho => ?_
  split
  · exact alike_const _
  · exact alike_const _
  · exact alike_pure (ho _ rfl _ (by simp))
  · exact alike_bind (hP.total (ho _ rfl)) fun _ _ k hk =>
      (alike_truth hP hk).mono fun _ _ _ hb => hb.has

theorem alike_membership (hP : P.Closed) (hh : w.Has h) {hs : List (Option Expr)}
    (hhs : ∀ o ∈ hs, w.HasAny o) :
    Alike Trusted w (membership P h hs) (membership P.checked h hs) Stage.Has := by
  refine alike_bind (alike_mapM_has fun w' hw k hk => ?_) fun _ _ _ htests => alike_disjoin hP htests
  obtain ⟨o, ho, rfl⟩ := List.mem_filterMap.mp hk
  have hk := hhs _ ho k rfl
  split
  · refine alike_pure ?_
    split <;> exact Stage.has_const _ _
  · exact (alike_reify hP _ (hh.mono hw) (hk.mono hw)).mono fun _ _ _ hb => hb.has

/-! ### Arithmetic -/

theorem alike_divide (hP : P.Closed) (hx : w.Has x) (hy : w.Has y) :
    Alike Trusted w (divide P x y) (divide P.checked x y) Stage.Has := by
  unfold divide
  split
  · exact hP.quotient hx hy
  · refine alike_when (alike_fail _) fun w₁ hw₁ => ?_
    split
    · exact alike_const _
    · exact alike_mul (hx.mono hw₁) (w₁.has_const _)

theorem alike_power (hP : P.Closed) (hx : w.Has x) (y : Expr) :
    Alike Trusted w (power P x y) (power P.checked x y) Stage.Has := by
  unfold power
  split
  · exact alike_fail _
  · split
    · exact alike_const _
    · exact alike_fail _
  · exact alike_ite (alike_const _) (alike_ite (alike_pure hx) (hP.power _ hx))

theorem alike_absolute (hP : P.Closed) (hx : w.Has x) :
    Alike Trusted w (absolute P x) (absolute P.checked x) Stage.Has := by
  unfold absolute
  split
  · exact alike_const _
  · exact hP.absolute hx

/-! ### Selection -/

theorem alike_total (hP : P.Closed) {hs : List Expr} (hhs : w.HasAll hs) :
    Alike Trusted w (P.total hs) (P.checked.total hs) fun w k => w.Has k ∧ ∀ ρ, ∀ qs : List ℚ,
      hs.map (value ρ) = qs.map Exact.finite → value ρ k = .finite qs.sum :=
  (hP.total hhs).and_runs fun s k s' hs hr => by
    obtain ⟨-, -, -, hvalue⟩ := hP.documented.total hs.own.world hhs hr
    exact fun ρ => hvalue ρ

/-- At most one of several variables is one afterwards. A sum that is a number is zero at one point, so
it is the empty sum. -/
theorem alike_requireOne (hP : P.Closed) {hs : List Expr} (hhs : w.HasAll hs) :
    Alike Trusted w (requireOne P hs) (requireOne P.checked hs) fun w _ =>
      (∀ b ∈ hs, b.isLeaf = true) → ∀ ρ ∈ w.points, ∀ qs : List ℚ,
        hs.map (value ρ) = qs.map Exact.finite → qs.sum ≤ 1 := by
  refine alike_bind (alike_total hP hhs) fun w₁ hw₁ k ⟨hk, hsum⟩ => ?_
  refine (alike_constrain_between hP hk _ _).mono fun w₂ hw₂ _ hbetween hleaf ρ hρ qs hqs => ?_
  cases hn : k.number? with
  | none =>
    have hupper := (hbetween hn ρ hρ).2
    rw [hsum ρ qs hqs] at hupper
    simpa [realOne] using hupper
  | some x =>
    obtain rfl := Handle.eq_const hn
    have hzero : hs.map (value fun _ => 0) = (hs.map fun _ => (0 : ℚ)).map Exact.finite := by
      rw [List.map_map]
      refine List.map_congr_left fun b hb => ?_
      cases b with
      | leaf => exact value_leaf _ _
      | _ => exact absurd (hleaf _ hb) (by simp [Handle.isLeaf])
    have h0 := hsum _ _ hzero
    have h1 := hsum ρ qs hqs
    rw [value_const] at h0 h1
    obtain h : qs.sum = 0 := by simpa [h1] using h0
    exact h.trans_le zero_le_one

theorem alike_newExtremum (hP : P.Closed) (e : Extremum) {hs : List Expr} (hhs : w.HasAll hs) :
    Alike Trusted w (newExtremum P e hs) (newExtremum P.checked e hs) Stage.Has := by
  have hcontinuous : Kind.continuous ≠ .binary := by decide
  unfold newExtremum
  refine alike_bind (alike_auxiliaryName _) fun w₁ hw₁ name _ => ?_
  refine alike_bind (alike_createVariable hP _ fun h => absurd h hcontinuous) ?_
  intro w₂ hw₂ result ⟨hresult, _⟩
  refine alike_bind (alike_mapM_all persists_isTruth fun w _ h _ =>
    (alike_newBinary hP _).mono fun _ _ _ hb => hb.1) fun w₃ hw₃ selectors hselectors => ?_
  refine alike_bind (alike_requireOne hP fun b hb => (hselectors b hb).has) fun w₄ hw₄ _ _ => ?_
  have hr₄ := hresult.mono (hw₃.trans hw₄)
  refine alike_bind (alike_forM fun w₅ hw₅ p hp => ?_) fun w₅ hw₅ _ _ => alike_pure (hr₄.mono hw₅)
  obtain ⟨h, b⟩ := p
  have hh := (hhs h (List.of_mem_zip hp).1).mono
    (hw₁.trans (hw₂.trans (hw₃.trans (hw₄.trans hw₅))))
  have hb := (hselectors b (List.of_mem_zip hp).2).mono (hw₄.trans hw₅)
  have hgap (w) (hw : w₅ ≤ w) (gap : Expr) (hgap : w.Has gap) : Alike Trusted w
      (do constrain P gap realZero noUpper
          constrain P (← gated P b gap) noLower realZero)
      (do constrain P.checked gap realZero noUpper
          constrain P.checked (← gated P.checked b gap) noLower realZero) Stage.Admits := by
    refine alike_bind (alike_constrain hP hgap _ _) fun w₆ hw₆ _ _ => ?_
    refine alike_bind (alike_gated hP (hb.mono (hw.trans hw₆)) (hgap.mono hw₆)) fun _ _ k hk => ?_
    exact alike_constrain hP hk.1 _ _
  cases e with
  | least => exact alike_bind (alike_sub hh (hr₄.mono hw₅)) hgap
  | greatest => exact alike_bind (alike_sub (hr₄.mono hw₅) hh) hgap

theorem alike_extremum (hP : P.Closed) (e : Extremum) {hs : List Expr} (hhs : w.HasAll hs) :
    Alike Trusted w (extremum P e hs) (extremum P.checked e hs) Stage.Has := by
  unfold extremum
  split
  · exact alike_const _
  · exact alike_fail _
  · exact alike_newExtremum hP e hhs

theorem alike_conditional (hP : P.Closed) {c t e : Expr} (hc : w.Has c) (ht : w.Has t)
    (he : w.Has e) : Alike Trusted w (conditional P c t e) (conditional P.checked c t e) Stage.Has := by
  refine alike_bind (alike_truth hP hc) fun w₁ hw₁ b hb => ?_
  cases b.number? with
  | some x =>
    refine alike_pure ?_
    split
    · exact he.mono hw₁
    · exact ht.mono hw₁
  | none =>
    refine alike_bind (alike_gated hP hb (ht.mono hw₁)) fun w₂ hw₂ chosen hchosen => ?_
    refine alike_bind (alike_oneMinus (hb.mono hw₂)) fun w₃ hw₃ notB hn => ?_
    have he₃ := he.mono (hw₁.trans (hw₂.trans hw₃))
    refine alike_bind (alike_gated hP hn he₃) fun w₄ hw₄ other hother => ?_
    exact alike_add (hchosen.1.mono (hw₃.trans hw₄)) hother.1

/-- What gates a pair is a product of truth values: the earlier conditions fail, and this one holds. -/
theorem alike_gatePairs (hP : P.Closed) {pending : Expr} (hpending : IsTruth w pending)
    {pairs : List (Expr × Expr)} (hpairs : ∀ p ∈ pairs, w.Has p.1 ∧ w.Has p.2) :
    Alike Trusted w (gatePairs P pending pairs) (gatePairs P.checked pending pairs) fun w r =>
      w.HasAll r.1 ∧ IsTruth w r.2 := by
  induction pairs generalizing w pending with
  | nil => exact alike_pure ⟨by simp, hpending⟩
  | cons p ps ih =>
    obtain ⟨hcondition, hvalue⟩ := hpairs p List.mem_cons_self
    refine alike_bind (alike_truth hP hcondition) fun w₁ hw₁ c hc => ?_
    refine alike_bind (alike_gated_truth hP (hpending.mono hw₁) hc) fun w₂ hw₂ both hboth => ?_
    refine alike_bind (alike_gated hP hboth (hvalue.mono (hw₁.trans hw₂))) fun w₃ hw₃ term hterm => ?_
    have hw := hw₁.trans (hw₂.trans hw₃)
    -- What follows is the same whether the complement folds to a number or not.
    have hrest (w') (hw' : w₃ ≤ w') (notC : Expr) (hn : IsTruth w' notC) : Alike Trusted w'
        (do let pending ← gated P pending notC
            let r ← gatePairs P pending ps
            return (term :: r.1, r.2))
        (do let pending ← gated P.checked pending notC
            let r ← gatePairs P.checked pending ps
            return (term :: r.1, r.2)) fun w r => w.HasAll r.1 ∧ IsTruth w r.2 := by
      refine alike_bind (alike_gated_truth hP (hpending.mono (hw.trans hw')) hn) fun w₄ hw₄ k hk => ?_
      have hw₅ := hw.trans (hw'.trans hw₄)
      refine alike_bind (ih hk fun q hq => (hpairs q (List.mem_cons_of_mem p hq)).imp
        (·.mono hw₅) (·.mono hw₅)) fun w₆ hw₆ r hr => alike_pure ⟨?_, hr.2⟩
      exact Stage.hasAll_cons.mpr ⟨hterm.1.mono (hw'.trans (hw₄.trans hw₆)), hr.1⟩
    have hc₃ := hc.mono (hw₂.trans hw₃)
    dsimp only
    cases hn : c.number? with
    | some x =>
      obtain rfl := Handle.eq_const hn
      refine alike_bind (alike_pure ⟨w₃.has_const _, fun {ρ} hρ => ?_⟩) hrest
      rw [value_const, exact_sub]
      exact (value_const (ρ := ρ) x ▸ hc₃.binary hρ).oneMinus
    | none => exact alike_bind (alike_oneMinus hc₃) hrest

theorem alike_firstMatch (hP : P.Closed) {cs vs : List Expr} (hcs : w.HasAll cs) (hvs : w.HasAll vs)
    (hh : w.Has h) :
    Alike Trusted w (firstMatch P cs vs h) (firstMatch P.checked cs vs h) Stage.Has := by
  refine alike_bind (alike_gatePairs hP (isTruth_one w) fun p hp =>
    ⟨hcs _ (List.of_mem_zip hp).1, hvs _ (List.of_mem_zip hp).2⟩) fun w₁ hw₁ r ⟨hterms, hlast⟩ => ?_
  refine alike_bind (alike_gated hP hlast (hh.mono hw₁)) fun w₂ hw₂ k hk => hP.total ?_
  intro t ht
  rcases List.mem_append.mp (List.mem_of_mem_filter ht) with ht | ht
  · exact (hterms t ht).mono hw₂
  · rw [List.mem_singleton.mp ht]
    exact hk.1

/-- Truth values at a point as rationals, of which `n` are one. -/
theorem exists_bits {ρ : HandleId → ℚ} {bs : List Expr} (hbs : ∀ b ∈ bs, IsBinary (value ρ b)) :
    ∃ (qs : List ℚ) (n : ℕ), bs.map (value ρ) = qs.map Exact.finite ∧ qs.sum = n := by
  induction bs with
  | nil => exact ⟨[], 0, rfl, by simp⟩
  | cons b bs ih =>
    obtain ⟨qs, n, hqs, hsum⟩ := ih fun c hc => hbs c (List.mem_cons_of_mem b hc)
    rcases hbs b List.mem_cons_self with hb | hb
    · exact ⟨0 :: qs, n, by simp [hb, hqs], by simp [hsum]⟩
    · exact ⟨1 :: qs, n + 1, by simp [hb, hqs], by simp [hsum, add_comm]⟩

/-- Among zeros and ones, no more ones are selected than there are selectors that are one. -/
theorem exists_bits_le {ρ : HandleId → ℚ} {entries : List (ℤ × Expr)} {bs ts : List Expr}
    (hentries : ∀ e ∈ entries, IsBinary (value ρ e.2)) (hbs : ∀ b ∈ bs, IsBinary (value ρ b))
    (hts : List.Forall₂ (fun p t => IsGated p.2 p.1.2 t) (entries.zip bs) ts) :
    ∃ (qs rs : List ℚ) (n m : ℕ), bs.map (value ρ) = qs.map Exact.finite ∧ qs.sum = n ∧
      ts.map (value ρ) = rs.map Exact.finite ∧ rs.sum = m ∧ m ≤ n := by
  induction entries generalizing bs ts with
  | nil =>
    obtain ⟨qs, n, hqs, hsum⟩ := exists_bits hbs
    cases hts
    exact ⟨qs, [], n, 0, hqs, hsum, rfl, by simp, n.zero_le⟩
  | cons e entries ih =>
    cases bs with
    | nil =>
      cases hts
      exact ⟨[], [], 0, 0, rfl, by simp, rfl, by simp, le_rfl⟩
    | cons b bs =>
      rw [List.zip_cons_cons] at hts
      obtain _ | @⟨_, t, _, ts, ht, hts⟩ := hts
      obtain ⟨qs, rs, n, m, hqs, hn, hrs, hm, hle⟩ := ih
        (fun e he => hentries e (List.mem_cons_of_mem _ he))
        (fun b hb => hbs b (List.mem_cons_of_mem _ hb)) hts
      rcases hbs b List.mem_cons_self with hb | hb <;>
        rcases hentries e List.mem_cons_self with he | he
      · exact ⟨0 :: qs, 0 :: rs, n, m, by simp [hb, hqs], by simp [hn],
          by simp [(ht ρ 0 he).1 hb, hrs], by simp [hm], hle⟩
      · exact ⟨0 :: qs, 0 :: rs, n, m, by simp [hb, hqs], by simp [hn],
          by simp [(ht ρ 1 he).1 hb, hrs], by simp [hm], hle⟩
      · exact ⟨1 :: qs, 0 :: rs, n + 1, m, by simp [hb, hqs], by simp [hn, add_comm],
          by simp [(ht ρ 0 he).2 hb, hrs], by simp [hm], hle.trans n.le_succ⟩
      · exact ⟨1 :: qs, 1 :: rs, n + 1, m + 1, by simp [hb, hqs], by simp [hn, add_comm],
          by simp [(ht ρ 1 he).2 hb, hrs], by simp [hm, add_comm], Nat.succ_le_succ hle⟩

/-- A lookup among zeros and ones is a truth value: at most one of them is selected. -/
theorem alike_lookup (hP : P.Closed) (hh : w.Has h) {entries : List (ℤ × Expr)}
    (hentries : ∀ e ∈ entries, w.Has e.2) :
    Alike Trusted w (lookup P h entries) (lookup P.checked h entries) fun w k =>
      w.Has k ∧ ((∀ e ∈ entries, IsTruth w e.2) → IsTruth w k) := by
  refine alike_bind (alike_mapM_all (fun _ _ _ hw hb => ⟨hb.1.mono hw, hb.2⟩) fun _ _ _ _ =>
    alike_newBinary hP _) fun w₁ hw₁ bs hbs => ?_
  refine alike_bind (alike_requireOne hP fun b hb => (hbs b hb).1.has) fun w₂ hw₂ _ hone => ?_
  have hpair {p : (ℤ × Expr) × Expr} (hp : p ∈ entries.zip bs) := List.of_mem_zip hp
  refine alike_bind (alike_mapM_has fun w₃ hw₃ p hp => ?_) fun w₃ hw₃ positions hpositions => ?_
  · exact alike_mul (w₃.has_const _)
      ((hbs _ (hpair (List.mem_of_mem_filter hp)).2).1.has.mono (hw₂.trans hw₃))
  refine alike_bind (hP.total hpositions) fun w₄ hw₄ chosen hchosen => ?_
  have hw := hw₁.trans (hw₂.trans (hw₃.trans hw₄))
  refine alike_bind (alike_sub (hh.mono hw) hchosen) fun w₅ hw₅ gap hgap => ?_
  refine alike_bind (alike_constrain hP hgap _ _) fun w₆ hw₆ _ _ => ?_
  have hw₂₆ := hw₃.trans (hw₄.trans (hw₅.trans hw₆))
  refine alike_bind (alike_mapM (Q := fun (p : (ℤ × Expr) × Expr) w k => w.Has k ∧ IsGated p.2 p.1.2 k)
    (fun _ _ _ _ hw hk => ⟨hk.1.mono hw, hk.2⟩) fun w₇ hw₇ p hp => ?_) fun w₇ hw₇ ts hts => ?_
  · exact alike_gated hP ((hbs _ (hpair hp).2).1.mono (hw₂.trans (hw₂₆.trans hw₇)))
      ((hentries _ (hpair hp).1).mono (hw.trans (hw₅.trans (hw₆.trans hw₇))))
  have hall : w₇.HasAll ts := forall_of_forall₂ (hts.imp fun _ _ ht => ht.1)
  refine (alike_total hP hall).mono fun w₈ hw₈ k ⟨hk, hsum⟩ => ⟨hk, fun hbits => ⟨hk, fun {ρ} hρ => ?_⟩⟩
  -- The ranges of the other entries are not needed: the sum of the selectors alone keeps the lookup small.
  have hρ₂ : ρ ∈ w₂.points := (hw₂₆.trans (hw₇.trans hw₈)).2 hρ
  obtain ⟨qs, rs, n, m, hqs, hn, hrs, hm, hle⟩ := exists_bits_le
    (fun e he => (hbits e he).binary hρ) (fun b hb => (hbs b hb).1.binary (hw₂.2 hρ₂))
    (hts.imp fun _ _ ht => ht.2)
  have hn1 : n ≤ 1 := by
    have := hone (fun b hb => (hbs b hb).2) ρ hρ₂ qs hqs
    rw [hn] at this
    exact_mod_cast this
  rw [hsum ρ rs hrs, hm]
  rcases Nat.le_one_iff_eq_zero_or_eq_one.mp (hle.trans hn1) with rfl | rfl
  · exact .inl (by rw [Nat.cast_zero])
  · exact .inr (by rw [Nat.cast_one])

/-- A table of memberships is marked as binary rightly. -/
theorem alike_tabulatedMembership (hP : P.Closed) (c : Context Exact) {key : Expr} (hkey : w.Has key)
    (keys : List ℤ) (v : VarId) (low high : ℤ) :
    Alike Trusted w (tabulatedMembership P c key keys v low high)
      (tabulatedMembership P.checked c key keys v low high) Stage.Has := by
  refine alike_bind (alike_newInteger hP _ _ _) fun w₁ hw₁ flat hflat => ?_
  refine alike_bind (alike_sub (hkey.mono hw₁) (w₁.has_const _)) fun w₂ hw₂ row hrow => ?_
  refine alike_bind (alike_mul hrow (w₂.has_const _)) fun w₃ hw₃ start hstart => ?_
  refine alike_bind (Backend.alike_variableHandle c v) fun w₄ hw₄ x hx => ?_
  refine alike_bind (alike_add (hstart.mono hw₄) hx) fun w₅ hw₅ sum hsum => ?_
  refine alike_bind (alike_sub hsum (w₅.has_const _)) fun w₆ hw₆ position hposition => ?_
  have hflat₆ := hflat.mono (hw₂.trans (hw₃.trans (hw₄.trans (hw₅.trans hw₆))))
  refine alike_bind (alike_sub hflat₆ hposition) fun w₇ hw₇ gap hgap => ?_
  refine alike_bind (alike_constrain hP hgap _ _) fun w₈ hw₈ _ _ => ?_
  let width := (high - low + 1).toNat
  have hentries : Alike (σ := Encoding Exact σ) Trusted w₈ (membershipEntries c low width keys)
      (membershipEntries c low width keys) Stage.Admits := by
    refine alike_of_untouched (keeps_bind (keeps_mapM fun _ _ => ?_) fun _ => keeps_pure _)
    exact keeps_bind (keeps_collection c _) fun _ => keeps_pure _
  refine alike_bind (hentries.and_runs fun s entries s' _ hr => bits_membershipEntries hr) ?_
  intro w₉ hw₉ entries ⟨_, hbits⟩
  have htruth (w) : ∀ e ∈ entries, IsTruth w e.2 := by
    intro e he
    obtain ⟨b, hb⟩ := hbits e he
    rw [hb]
    cases b with
    | false => exact isTruth_zero w
    | true => exact isTruth_one w
  refine alike_bind (alike_lookup hP (hflat₆.mono (hw₇.trans (hw₈.trans hw₉)))
    fun e he => (htruth _ e he).has) fun w₁₀ hw₁₀ k hk => ?_
  exact (alike_markBinary (hk.2 (htruth w₁₀))).mono fun _ _ _ hk => hk.has

theorem alike_keyedMembership? (hP : P.Closed) (c : Context Exact) {key : Expr} (hkey : w.Has key)
    (keys : List ℤ) (v : VarId) :
    Option.Rel (fun m m' => Alike Trusted w m m' Stage.Has) (keyedMembership? P c key keys v)
      (keyedMembership? P.checked c key keys v) := by
  unfold keyedMembership?
  split
  · exact .none
  · split
    · exact .none
    · split
      · exact .some (alike_tabulatedMembership hP c hkey keys v _ _)
      · exact .none

/-! ### Variables and constraints -/

theorem alike_createSequence (hP : P.Closed) (name : String) (members : List String) :
    Alike Trusted w (createSequence P name members) (createSequence P.checked name members)
      Stage.HasAll := by
  have hinteger : Kind.integer ≠ .binary := by decide
  refine alike_bind (alike_mapM_has fun _ _ member _ =>
    (alike_createVariable hP member fun h => absurd h hinteger).mono fun _ _ _ hh => hh.1) ?_
  intro w₁ _ handles hhandles
  refine alike_bind (alike_mapM_all persists_hasAll fun _ _ _ _ => alike_mapM_has fun _ _ _ _ =>
    (alike_newBinary hP _).mono fun _ _ _ hb => hb.1.has) fun w₂ hw₂ matrix hmatrix => ?_
  refine alike_bind (alike_forM fun w₃ hw₃ p hp => ?_) fun w₃ hw₃ _ _ =>
    alike_pure (hhandles.mono (hw₂.trans hw₃))
  obtain ⟨h, i, row⟩ := p
  have hh := (hhandles h (List.of_mem_zip hp).1).mono (hw₂.trans hw₃)
  have hrow : w₃.HasAll row := by
    obtain ⟨j, hj, heq⟩ := List.mem_mapIdx.mp (List.of_mem_zip hp).2
    cases heq
    exact (hmatrix _ (List.getElem_mem hj)).mono hw₃
  have hcolumn : w₃.HasAll (matrix.filterMap (·[i]?)) := by
    intro b hb
    obtain ⟨row, hrow, hb⟩ := List.mem_filterMap.mp hb
    exact (hmatrix row hrow b (List.mem_of_getElem? hb)).mono hw₃
  refine alike_bind (alike_requireOne hP hrow) fun w₄ hw₄ _ _ => ?_
  refine alike_bind (alike_requireOne hP (hcolumn.mono hw₄)) fun w₅ hw₅ _ _ => ?_
  refine alike_bind (alike_mapM_has fun w₆ hw₆ q hq => ?_) fun w₆ hw₆ weighted hweighted => ?_
  · obtain ⟨j, hj, rfl⟩ := List.mem_mapIdx.mp hq
    exact alike_mul (w₆.has_const _) ((hrow _ (List.getElem_mem hj)).mono
      (hw₄.trans (hw₅.trans hw₆)))
  refine alike_bind (hP.total hweighted) fun w₇ hw₇ channel hchannel => ?_
  have hw₃₇ := hw₄.trans (hw₅.trans (hw₆.trans hw₇))
  exact alike_bind (alike_sub (hh.mono hw₃₇) hchannel) fun _ _ gap hgap => alike_constrain hP hgap _ _

theorem alike_postEqual (hP : P.Closed) (hx : w.Has x) (hy : w.Has y) :
    Alike Trusted w (postEqual P x y) (postEqual P.checked x y) Stage.Admits :=
  alike_bind (alike_sub hx hy) fun _ _ _ hgap => alike_constrain hP hgap _ _

theorem alike_postObjective (hP : P.Closed) (sense : Sense) (hh : w.Has h) :
    Alike Trusted w (postObjective P sense h) (postObjective P.checked sense h) Stage.Admits := by
  have hcontinuous : Kind.continuous ≠ .binary := by decide
  refine alike_bind (alike_createVariable hP _ fun h => absurd h hcontinuous) ?_
  intro w₁ hw₁ objective ⟨hobjective, _⟩
  refine alike_bind (alike_sub hobjective (hh.mono hw₁)) fun w₂ hw₂ gap hgap => ?_
  refine alike_bind (alike_constrain hP hgap _ _) fun w₃ hw₃ _ _ => ?_
  have hobjective₃ := hobjective.mono (hw₂.trans hw₃)
  refine alike_bind (Q := Stage.Admits) (alike_modifyEncoding fun n e ht =>
    ⟨w₃, le_rfl, ht.note rfl rfl (fun k hk => .inr ?_) (fun _ => .inl) fun _ => .inl, trivial⟩)
    fun w₄ hw₄ _ _ => hP.setObjective sense (hobjective₃.mono hw₄)
  cases hk
  exact hobjective₃

/-- The bounds of a truth value are between zero and one. -/
def BooleanWithinUnit (d : Variable Exact) : Prop :=
  d.kind = .boolean → WithinUnit d.lower d.upper

instance (d : Variable Exact) : Decidable (BooleanWithinUnit d) := inferInstanceAs (Decidable (_ → _))

/-- All truth values among the variables of the model have bounds between zero and one. -/
def BooleansWithinUnit (c : Context Exact) : Prop :=
  ∀ v ∈ c.vars, ∀ d ∈ c.workspace.findVariable v, BooleanWithinUnit d

instance (c : Context Exact) : Decidable (BooleansWithinUnit c) :=
  inferInstanceAs (Decidable (∀ v ∈ c.vars, ∀ d ∈ c.workspace.findVariable v, BooleanWithinUnit d))

/-- Truth values are created with bounds between zero and one; sequences are not restricted. -/
def creatable : Creatable Exact := ⟨BooleanWithinUnit, fun _ => True⟩

theorem BooleansWithinUnit.takesModel {c : Context Exact} (hc : BooleansWithinUnit c) :
    creatable.TakesModel c := ⟨hc, fun _ _ _ _ => trivial⟩

/-- Checking the products changes nothing, wherever lowering stops. -/
theorem agree_checked (hP : P.Closed) :
    (backend P).Agree (backend P.checked) Trusted creatable where
  name := rfl
  constant x := alike_const _
  constant? x := alike_pure fun h hh => by
    cases hh
    exact Stage.has_const _ _
  negate := alike_neg
  add := alike_add
  subtract := alike_sub
  multiply := alike_mul
  divide := alike_divide hP
  power hx _ := alike_power hP hx _
  absolute := alike_absolute hP
  minimum := alike_extremum hP .least
  maximum := alike_extremum hP .greatest
  reify c hx hy := (alike_reify hP c hx hy).mono fun _ _ _ hb => hb.has
  complement := alike_complement hP
  conjoin := alike_conjoin hP
  disjoin := alike_disjoin hP
  conditional := alike_conditional hP
  firstMatch := alike_firstMatch hP
  membership hh hhs := alike_membership hP hh hhs
  lookup hh hentries := (alike_lookup hP hh hentries).mono fun _ _ _ hk => hk.1
  keyedMembership? c keys v hkey := alike_keyedMembership? hP c hkey keys v
  createVariable {w d} hd := by
    refine (alike_createVariable hP d.name fun hkind => hd ?_).mono fun _ _ _ hh => hh.1
    cases hk : d.kind <;> rw [hk] at hkind <;> first | rfl | cases hkind
  createSequence name members _ := alike_createSequence hP name members
  newInteger hint _ := alike_newInteger hP _ _ hint
  flatIndex {w key column count width} firstKey _ _ := Backend.alike_flatIndex
    (alike_newInteger hP) (fun hx hy => alike_postEqual hP hx hy) count width firstKey
  postEqual := alike_postEqual hP
  postComparison c hx hy := alike_postComparison hP c hx hy
  postTrue hh := alike_bind alike_epsilon fun _ hw _ _ => alike_constrain hP (hh.mono hw) _ _
  postDefinition _ := alike_postEqual hP
  postObjective := alike_postObjective hP

theorem alike_lowerModel (hP : P.Closed) {c : Context Exact} (hc : BooleansWithinUnit c) :
    Alike Trusted w (lowerModel P c) (lowerModel P.checked c) Stage.Admits := by
  unfold lowerModel
  dsimp only
  split
  case' h_1 => refine alike_bind (Q := Stage.Admits) (alike_pure trivial) fun w₁ _ eps _ => ?_
  case' h_2 => refine alike_bind hP.tolerance fun w₁ _ eps _ => ?_
  all_goals
    refine alike_bind (Q := Stage.Admits) (alike_modifyEncoding fun n e ht =>
      ⟨w₁, le_rfl, ht.note rfl rfl (fun _ => .inl) (fun _ => .inl) fun _ => .inl, trivial⟩)
      fun w₂ _ _ _ => alike_bind (alike_log _ _ _) fun w₃ _ _ _ => ?_
    refine alike_bind (Backend.alike_lowerModel (agree_checked hP) hc.takesModel w₃) fun w₄ _ _ _ => ?_
    exact alike_withEncoding fun _ _ _ => alike_log _ _ _

end DecisionModel.Tolerant
