import DecisionModel.Solver.Scip
import DecisionModel.Solver.Z3.Basic
import DecisionModel.Proofs.Tolerant.Tables

/-!
# The primitives of SCIP and Z3

Both solvers offer what `Documented` asks for. SCIP has absolute values, powers, sums and products of
its own; Z3 chooses between two terms where the tolerant lowering asks for an absolute value or a
gated term, and takes powers as repeated products.
-/

namespace DecisionModel.Tolerant

open LowerM

variable {σ : Type} {G G₁ : Set Expr} {s s' s₁ : TolerantState σ} {h k : Expr} {ρ : HandleId → ℚ}
  {R R' : (HandleId → ℚ) → Exact → Prop}

theorem Silent.Gives.after (h₁ : Silent G s G₁ s₁) (h₂ : Silent.Gives G₁ s₁ k s' R) :
    Silent.Gives G s k s' R := by
  obtain ⟨G', hs, hk, hvalue⟩ := h₂
  exact ⟨G', h₁.trans hs, hk, hvalue⟩

theorem Silent.Gives.mono (hg : Silent.Gives G s k s' R) (hR : ∀ ρ v, R ρ v → R' ρ v) :
    Silent.Gives G s k s' R' := by
  obtain ⟨G', hs, hk, hvalue⟩ := hg
  exact ⟨G', hs, hk, fun ρ => hR ρ _ (hvalue ρ)⟩

theorem silent_own (hw : World G s.nextHandle) {f : σ → σ}
    (hr : (modifyOwn f : TolerantM Exact σ Unit).Runs s () s') : Silent G s G s' := by
  simp only [modifyOwn, modifyEncoding, runs_modifySolver] at hr
  subst hr
  exact ⟨subset_rfl, hw, le_rfl, _, rfl⟩

/-- A step that is taken under a condition only, and what follows it. -/
theorem silent_if (hw : World G s.nextHandle) {p : Prop} [Decidable p]
    {m rest : TolerantM Exact σ Unit} (hm : ∀ s₁, m.Runs s () s₁ → ∃ G₁, Silent G s G₁ s₁)
    (hrest : ∀ G₁ s₁, Silent G s G₁ s₁ → rest.Runs s₁ () s' → ∃ G', Silent G₁ s₁ G' s')
    (hr : (if p then do m; rest else rest).Runs s () s') : ∃ G', Silent G s G' s' := by
  split at hr
  · obtain ⟨_, s₁, hfirst, hr⟩ := runs_bind.mp hr
    obtain ⟨G₁, hs₁⟩ := hm s₁ hfirst
    obtain ⟨G', hs⟩ := hrest G₁ s₁ hs₁ hr
    exact ⟨G', hs₁.trans hs⟩
  · exact hrest G s (silent_refl hw) hr

/-- A last step that is taken under a condition only. -/
theorem silent_if_last (hw : World G s.nextHandle) {p : Prop} [Decidable p]
    {m : TolerantM Exact σ Unit} (hm : ∀ s', m.Runs s () s' → ∃ G', Silent G s G' s')
    (hr : (if p then m else pure ()).Runs s () s') : ∃ G', Silent G s G' s' := by
  split at hr
  · exact hm s' hr
  · obtain ⟨-, rfl⟩ := runs_pure.mp hr
    exact ⟨G, silent_refl hw⟩

/-- A new leaf enters circulation. -/
theorem silent_leaf (hw : World G s.nextHandle) {name : String} {integral : Bool}
    (hr : (leaf name integral : TolerantM Exact σ Expr).Runs s h s') :
    h = .leaf ⟨s.nextHandle⟩ name integral ∧ Silent G s (insert h G) s' := by
  obtain ⟨rfl, rfl⟩ := runs_leaf.mp hr
  exact ⟨rfl, Set.subset_insert _ _, hw.insert_leaf name integral, Nat.le_succ _, _, rfl⟩

/-! ### Sums and powers -/

theorem value_sum {hs : List Expr} {h : Expr} {q : ℚ} {qs : List ℚ}
    (hr : (hs.foldlM LowerM.add h : TolerantM Exact σ Expr).Runs s k s') (hq : value ρ h = .finite q)
    (hqs : hs.map (value ρ) = qs.map Exact.finite) : value ρ k = .finite (q + qs.sum) := by
  induction hs generalizing s h q qs with
  | nil =>
    obtain ⟨rfl, -⟩ := runs_foldlM_nil.mp hr
    obtain rfl : qs = [] := by simpa using hqs.symm
    rw [hq, List.sum_nil, add_zero]
  | cons x xs ih =>
    obtain ⟨y, s₁, hadd, hrest⟩ := runs_foldlM_cons.mp hr
    obtain ⟨p, qs, rfl⟩ := List.exists_cons_of_ne_nil (l := qs) (by rintro rfl; simp at hqs)
    simp only [List.map_cons, List.cons.injEq] at hqs
    rw [ih (q := q + p) hrest (by rw [value_add hadd, hq, hqs.1, Exact.finite_add]) hqs.2, List.sum_cons,
      add_assoc]

theorem number?_sum {hs : List Expr} {h : Expr}
    (hr : (hs.foldlM LowerM.add h : TolerantM Exact σ Expr).Runs s k s') (hterm : h.number? = none) :
    k.number? = none := by
  induction hs generalizing s h with
  | nil =>
    obtain ⟨rfl, -⟩ := runs_foldlM_nil.mp hr
    exact hterm
  | cons x xs ih =>
    obtain ⟨y, s₁, hadd, hrest⟩ := runs_foldlM_cons.mp hr
    exact ih hrest (number?_binary hadd (.inl hterm))

theorem silent_sum (hw : World G s.nextHandle) {hs : List Expr} {h : Expr} (hmem : ∀ a ∈ h :: hs, a ∈ G)
    (hr : (hs.foldlM LowerM.add h : TolerantM Exact σ Expr).Runs s k s') :
    ∃ G', Silent G s G' s' ∧ k ∈ G' := by
  induction hs generalizing G s h with
  | nil =>
    obtain ⟨rfl, rfl⟩ := runs_foldlM_nil.mp hr
    exact ⟨G, silent_refl hw, hmem h (by simp)⟩
  | cons x xs ih =>
    obtain ⟨y, s₁, hadd, hrest⟩ := runs_foldlM_cons.mp hr
    obtain ⟨G₁, hs₁, hy, -⟩ := gives_add hw (hmem h (by simp)) (hmem x (by simp)) hadd
    obtain ⟨G', hs, hk⟩ := ih hs₁.world (List.forall_mem_cons.mpr
      ⟨hy, fun a ha => hs₁.subset (hmem a (by simp [ha]))⟩) hrest
    exact ⟨G', hs₁.trans hs, hk⟩

theorem value_chainedSum {hs : List Expr} {qs : List ℚ}
    (hr : (chainedSum hs : TolerantM Exact σ Expr).Runs s k s')
    (hqs : hs.map (value ρ) = qs.map Exact.finite) : value ρ k = .finite qs.sum := by
  cases hs with
  | nil =>
    obtain ⟨rfl, -⟩ := runs_pure.mp hr
    obtain rfl : qs = [] := by simpa using hqs.symm
    simp [zero, scalar]
  | cons h hs =>
    obtain ⟨q, qs, rfl⟩ := List.exists_cons_of_ne_nil (l := qs) (by rintro rfl; simp at hqs)
    simp only [List.map_cons, List.cons.injEq] at hqs
    rw [value_sum hr hqs.1 hqs.2, List.sum_cons]

theorem gives_chainedSum (hw : World G s.nextHandle) {hs : List Expr} (hmem : ∀ a ∈ hs, a ∈ G)
    (hr : (chainedSum hs : TolerantM Exact σ Expr).Runs s k s') :
    Silent.Gives G s k s' fun ρ v =>
      ∀ qs : List ℚ, hs.map (value ρ) = qs.map Exact.finite → v = .finite qs.sum := by
  have hvalue (ρ : HandleId → ℚ) (qs : List ℚ) (hqs : hs.map (value ρ) = qs.map Exact.finite) :=
    value_chainedSum hr hqs
  cases hs with
  | nil =>
    obtain ⟨rfl, rfl⟩ := runs_pure.mp hr
    exact ⟨G, silent_refl hw, hw.const_mem _, hvalue⟩
  | cons h hs =>
    obtain ⟨G', hs', hk⟩ := silent_sum hw hmem hr
    exact ⟨G', hs', hk, hvalue⟩

end DecisionModel.Tolerant

/-! ### SCIP -/

namespace DecisionModel.Scip

open LowerM Tolerant

theorem foldl_add (qs : List ℚ) (q : ℚ) :
    (qs.map Exact.finite).foldl Exact.add (.finite q) = .finite (q + qs.sum) := by
  induction qs generalizing q with
  | nil => simp
  | cons p qs ih => rw [List.map_cons, List.foldl_cons, Exact.finite_add, ih, List.sum_cons, add_assoc]

variable {s s' : ScipState Exact} {b h k : Expr} {ρ : HandleId → ℚ}

/-- A gated term is a product. -/
theorem value_gate {q : ℚ} (hr : (primitives.gate b h).Runs s k s') (hq : value ρ h = .finite q) :
    (value ρ b = .finite 0 → value ρ k = .finite 0) ∧
      (value ρ b = .finite 1 → value ρ k = .finite q) := by
  rw [value_mul hr, hq]
  exact ⟨fun h0 => by rw [h0, Exact.finite_mul, zero_mul],
    fun h1 => by rw [h1, Exact.finite_mul, one_mul]⟩

theorem value_total {hs : List Expr} {qs : List ℚ} (hr : (primitives.total hs).Runs s k s')
    (hqs : hs.map (value ρ) = qs.map Exact.finite) : value ρ k = .finite qs.sum := by
  cases hs with
  | nil =>
    have hsum : (chainedSum [] : ScipM Exact Expr).Runs s k s' := hr
    exact value_chainedSum hsum hqs
  | cons h hs =>
    obtain ⟨rfl, -⟩ := runs_node.mp hr
    rw [value_node, values_eq_map, hqs]
    exact (foldl_add qs 0).trans (by rw [zero_add])

theorem documented : Documented (primitives : Primitives Exact (Solver Exact)) where
  newVariable {kind lower upper name G s s' h} hw hr := by
    obtain ⟨_, s₁, hcall, hleaf⟩ := runs_bind.mp hr
    have hs₁ := silent_own hw hcall
    obtain ⟨rfl, hs⟩ := silent_leaf hs₁.world hleaf
    exact ⟨_, hs₁.trans hs, .inl rfl, _, _, rfl, hs₁.next_le⟩
  addRange {h lower upper name G s s'} hw hh hr := by
    simp only [primitives, addRange] at hr
    split at hr
    · exact ⟨G, silent_own hw hr⟩
    · exact silent_if hw (fun _ h => ⟨G, silent_own hw h⟩) (fun G₁ _ hs₁ hupper =>
        silent_if_last hs₁.world (fun _ h => ⟨G₁, silent_own hs₁.world h⟩) hupper) hr
  absolute {h k G s s'} hw hh hr := by
    refine (gives_node hw (by simpa using hh) hr).mono fun ρ v hv q hq => ?_
    rw [hv, List.map_singleton, hq]
    exact Exact.finite_abs q
  power {h k n G s s'} hw hh hn hr := by
    refine (gives_node hw (by simpa [scalar] using ⟨hh, hw.const_mem _⟩) hr).mono fun ρ v hv q hq => ?_
    rw [hv, List.map_cons, List.map_singleton, hq, scalar, value_const, exact_real]
    simp only [apply, Exact.power_nat]
  gate {b h k G s s'} hw hb hh hbterm hhterm hr := by
    obtain ⟨G', hs, hk, -⟩ := gives_mul hw hb hh hr
    exact ⟨number?_binary hr (.inl hbterm), G', hs, hk, fun _ _ => value_gate hr⟩
  total {hs k G s s'} hw hmem hr := by
    cases hs with
    | nil => exact gives_chainedSum hw hmem hr
    | cons h hs =>
      obtain ⟨G', hs', hk, -⟩ := gives_node hw hmem hr
      exact ⟨G', hs', hk, fun _ _ => value_total hr⟩
  tolerance {x G s s'} hw hr := by
    simp only [primitives, tolerance, getEncoding, runs_bind, runs_getSolver] at hr
    obtain ⟨_, _, ⟨rfl, rfl⟩, hr⟩ := hr
    split at hr
    · obtain ⟨-, rfl⟩ := runs_pure.mp hr
      exact ⟨G, silent_refl hw⟩
    · exact absurd hr runs_fail
  setObjective hw _ hr := ⟨_, silent_own (f := (·.call _)) hw hr⟩

end DecisionModel.Scip

/-! ### Z3 -/

namespace DecisionModel.Z3

open LowerM Tolerant

variable {G : Set Expr} {s s' : Z3State Exact} {h k : Expr}

theorem gives_exactTerm (hw : World G s.nextHandle) {x : Number Exact}
    (hr : (exactTerm x).Runs s k s') : Silent.Gives G s k s' fun _ v => v = x.exact := by
  simp only [exactTerm, runs_bind, runs_lift] at hr
  obtain ⟨q, _, ⟨hq, rfl⟩, hr⟩ := hr
  have hx : x.exact = .finite q := by
    cases hx : x.exact <;> simp_all [Exact.toRat]
  split at hr
  · rename_i hden
    obtain ⟨rfl, rfl⟩ := runs_pure.mp hr
    refine ⟨G, silent_refl hw, hw.const_mem _, fun ρ => ?_⟩
    rw [integer, value_const, exact_int, hx]
    exact congrArg _ (Rat.coe_int_num_of_den_eq_one hden)
  · refine (gives_node hw (by simp) hr).mono fun ρ v hv => ?_
    rw [hv, hx]
    rfl

theorem silent_require (hw : World G s.nextHandle) {c : Comparison} {x : Number Exact}
    (hr : (do require c h (← exactTerm x) : Z3M Exact Unit).Runs s () s') : ∃ G', Silent G s G' s' := by
  obtain ⟨t, s₁, hterm, hrequire⟩ := runs_bind.mp hr
  obtain ⟨G₁, hs₁, -, -⟩ := gives_exactTerm hw hterm
  exact ⟨G₁, hs₁.trans (silent_own hs₁.world hrequire)⟩

theorem silent_requireBounds (hw : World G s.nextHandle) {lower upper : Number Exact}
    (hr : (requireBounds h lower upper).Runs s () s') : ∃ G', Silent G s G' s' := by
  unfold requireBounds at hr
  simp only [← bind_assoc] at hr
  exact silent_if hw (fun _ h => silent_require hw h) (fun _ _ hs₁ hupper =>
    silent_if_last hs₁.world (fun _ h => silent_require hs₁.world h) hupper) hr

/-- A gated term is a choice. -/
theorem value_gate {b : Expr} {ρ : HandleId → ℚ} {q : ℚ}
    (hr : (primitives.gate b h).Runs s k s') (hq : value ρ h = .finite q) :
    (value ρ b = .finite 0 → value ρ k = .finite 0) ∧
      (value ρ b = .finite 1 → value ρ k = .finite q) := by
  obtain ⟨rfl, -⟩ := runs_node.mp hr
  rw [value_node, values_eq_map]
  exact ⟨fun h0 => by simp [h0, integer, apply, Comparison.holdsExactly],
    fun h1 => by simp [h1, hq, integer, apply, Comparison.holdsExactly]⟩

theorem gives_repeatedProduct (hw : World G s.nextHandle) {n : ℕ} (hh : h ∈ G)
    (hr : (repeatedProduct h n).Runs s k s') : Silent.Gives G s k s' fun ρ v =>
      ∀ q, value ρ h = .finite q → v = .finite (q ^ (n + 1)) := by
  induction n generalizing k s' with
  | zero =>
    obtain ⟨rfl, rfl⟩ := runs_pure.mp hr
    exact ⟨G, silent_refl hw, hh, fun ρ q hq => by rw [hq, zero_add, pow_one]⟩
  | succ n ih =>
    obtain ⟨p, s₁, hproduct, hmul⟩ := runs_bind.mp hr
    obtain ⟨G₁, hs₁, hp, hpvalue⟩ := ih hproduct
    refine Silent.Gives.after hs₁ ((gives_mul hs₁.world hp (hs₁.subset hh) hmul).mono
      fun ρ v hv q hq => ?_)
    rw [hv, hpvalue ρ q hq, hq, Exact.finite_mul, ← pow_succ]

theorem documented : Documented (primitives : Primitives Exact (Solver Exact)) where
  newVariable {kind lower upper name G s s' h} hw hr := by
    obtain ⟨_, s₁, hcall, hr⟩ := runs_bind.mp hr
    obtain ⟨l, s₂, hleaf, hr⟩ := runs_bind.mp hr
    obtain ⟨_, s₃, hbounds, hr⟩ := runs_bind.mp hr
    obtain ⟨rfl, rfl⟩ := runs_pure.mp hr
    have hs₁ := silent_own hw hcall
    obtain ⟨rfl, hs₂⟩ := silent_leaf hs₁.world hleaf
    obtain ⟨G₃, hs₃⟩ := silent_requireBounds hs₂.world hbounds
    exact ⟨G₃, hs₁.trans (hs₂.trans hs₃), hs₃.subset (.inl rfl), _, _, rfl, hs₁.next_le⟩
  addRange {h lower upper name G s s'} hw hh hr := by
    simp only [primitives, addRange] at hr
    split at hr
    · exact silent_require hw hr
    · exact silent_requireBounds hw hr
  absolute {h k G s s'} hw hh hr := by
    obtain ⟨m, s₁, hneg, hnode⟩ := runs_bind.mp hr
    obtain ⟨G₁, hs₁, hm, hmvalue⟩ := gives_neg hw hh hneg
    refine Silent.Gives.after hs₁ ((gives_node hs₁.world ?_ hnode).mono fun ρ v hv q hq => ?_)
    · simpa [integer] using ⟨hs₁.subset hh, hs₁.world.const_mem _, hs₁.subset hh, hm⟩
    · have hneg : value ρ m = .finite (-q) := by rw [hmvalue, hq, Exact.finite_neg]
      have hge : Comparison.ge.holdsExactly (.finite q) (.finite (0 : ℤ)) = decide (0 ≤ q) := by
        simp [Comparison.holdsExactly]
      rw [hv]
      simp only [List.map_cons, List.map_nil, hq, hneg, integer, value_const, exact_int, apply, hge,
        decide_eq_true_iff]
      split
      · rename_i h0
        rw [abs_of_nonneg h0]
      · rename_i h0
        rw [abs_of_neg (not_le.mp h0)]
  power {h k n G s s'} hw hh hn hr := by
    have hint : Scalar.isInteger (Exact.finite n) = true := by
      simp [Scalar.isInteger, Exact.isInteger]
    have htruncate : (Scalar.exact (Exact.finite n)).truncate = .ok (n : ℤ) := by
      simp [Exact.truncate, Exact.toIntBy]
    simp only [primitives, power, if_pos hint, htruncate, runs_bind (m := LowerM.lift _), runs_lift,
      Except.ok.injEq] at hr
    obtain ⟨_, _, ⟨rfl, rfl⟩, hr⟩ := hr
    obtain ⟨p, s₁, hproduct, hr⟩ := runs_bind.mp hr
    rw [if_neg (by omega), Int.natAbs_natCast] at *
    obtain ⟨rfl, rfl⟩ := runs_pure.mp hr
    refine (gives_repeatedProduct hw hh hproduct).mono fun ρ v hv q hq => ?_
    rw [hv q hq, Nat.sub_add_cancel (by omega)]
  gate {b h k G s s'} hw hb hh hbterm hhterm hr := by
    have hargs : ∀ a ∈ [b, integer 1, h, integer 0], a ∈ G := by
      simpa [integer] using ⟨hb, hw.const_mem _, hh, hw.const_mem _⟩
    obtain ⟨G', hs, hk, -⟩ := gives_node hw hargs hr
    obtain ⟨rfl, -⟩ := runs_node.mp hr
    exact ⟨rfl, G', hs, hk, fun _ _ => value_gate hr⟩
  total hw hmem hr := gives_chainedSum hw hmem hr
  tolerance {x G s s'} hw hr := by
    obtain ⟨-, rfl⟩ := runs_pure.mp hr
    exact ⟨G, silent_refl hw⟩
  setObjective hw _ hr := ⟨_, silent_own (f := fun t => { t with sense := some _ }) hw hr⟩

end DecisionModel.Z3
