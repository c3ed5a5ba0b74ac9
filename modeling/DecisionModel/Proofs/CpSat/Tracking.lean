import DecisionModel.Proofs.CpSat.Creation
import DecisionModel.Proofs.CpSat.Reading
import DecisionModel.Proofs.CpSat.Selection
import DecisionModel.Proofs.Lowering.Alike

/-!
# The encodings note what is right

Whatever an encoding for CP-SAT does with handles whose noted bounds are right, the bounds that it notes
are right as well, in any reading, and wherever it fails (`agree_tracked`). Each encoding is followed
step by step: a new variable gets the domain that the bounds of the operands give, and a term the bounds
of interval arithmetic.
-/

namespace DecisionModel.CpSat

open LowerM

variable {α : Type} {R : Reading} {w w' : Stage ℤ ℤ} {a b : Bounds} {h k x y : Expr}

/-! ### New variables -/

theorem alike_confine (b : Bounds) :
    Alike (Tracked R) w (confine b : CpSatM α Bounds) (confine b) fun _ c => c = b.clamp := by
  have hcut : Alike (α := α) (Tracked R) w (modifySolver fun t => { t with cut := true })
      (modifySolver fun t => { t with cut := true }) Stage.Admits :=
    alike_remark (fun _ => rfl) (fun _ => rfl) (fun _ _ => rfl) (fun _ _ => .inl) fun _ _ => .inl
  unfold confine
  exact alike_when hcut fun _ _ => alike_pure rfl

/-- A term with the bounds of its value, which may be cut. -/
theorem alike_trackConfined (hs : Spanned R w b h) :
    Alike (Tracked R) w (trackConfined h b : CpSatM α Expr) (trackConfined h b) Stage.Has := by
  have hproper := R.proper b.within_clamp
  cases h with
  | const x => exact alike_pure (w.has_const x)
  | leaf | node =>
    -- Cutting and noting are one step: only together are they right.
    unfold trackConfined confine
    by_cases hclamp : b.clamp = b
    · rw [if_neg (not_not.mpr hclamp), hclamp]
      exact (alike_track (fun _ => hclamp ▸ hproper) hs).mono fun _ _ _ hk => hk.2
    · rw [if_pos hclamp]
      exact (alike_note hs.knows rfl hproper
        (f := fun t => { t with bounds := (_, b.clamp) :: t.bounds, cut := true }) (fun _ => rfl)
        (fun _ _ => rfl) fun t ρ hpoint hρ => R.clamp hρ List.mem_cons_self (fun _ => rfl)
          (hs.spans hpoint)).mono fun _ _ _ hk => hk.2

/-- A new variable: what is left of the interval is its domain. -/
theorem alike_newInteger (hb : Ordered w b) (hint : String) :
    Alike (Tracked R) w (newInteger b hint : CpSatM α Expr) (newInteger b hint) Stage.Has := by
  refine alike_bind (alike_confine b) fun w₁ hw₁ c hc => ?_
  subst hc
  refine alike_bind (alike_auxiliaryName hint) fun w₂ hw₂ name _ => ?_
  refine alike_bind (alike_leaf name true) fun w₃ hw₃ h hh => ?_
  have hproper := R.proper b.within_clamp
  refine alike_bind (alike_newDomain hh hproper fun ρ hρ =>
    Bounds.sensible_clamp (hb ρ ((hw₁.trans (hw₂.trans hw₃)).2 hρ))) fun w₄ _ _ hs => ?_
  exact (alike_track (fun _ => hproper) hs).mono fun _ _ _ hk => hk.2

/-- A handle that is zero or one in the reading. -/
structure IsLiteral (R : Reading) (w : Stage ℤ ℤ) (h : Expr) : Prop where
  has : w.Has h
  spanned : Spanned R w ⟨0, 1⟩ h

theorem IsLiteral.mono (hl : IsLiteral R w h) (hw : w ≤ w') : IsLiteral R w' h :=
  ⟨hl.has.mono hw, hl.spanned.mono hw⟩

/-- Noting that a term is a literal. -/
theorem alike_noteLiteral (hs : Spanned R w ⟨0, 1⟩ h) :
    Alike (α := α) (Tracked R) w (modifySolver fun t => { t with literals := h.id?.toList ++ t.literals })
      (modifySolver fun t => { t with literals := h.id?.toList ++ t.literals }) Stage.Admits := by
  refine alike_remark (fun _ => rfl) (fun _ => rfl) (fun _ => id) (fun t l hl => ?_) fun _ _ => .inl
  rcases List.mem_append.mp hl with hl | hl
  · exact .inr ⟨h, hs, Option.mem_toList.mp hl⟩
  · exact .inl hl

theorem alike_trackLiteral (hs : Spanned R w ⟨0, 1⟩ h) :
    Alike (Tracked R) w (trackLiteral h : CpSatM α Expr) (trackLiteral h) (IsLiteral R) := by
  refine alike_bind (alike_noteLiteral hs) fun w₁ hw₁ _ _ => ?_
  refine (alike_track (fun _ => R.proper Bounds.within_unit) (hs.mono hw₁)).mono fun w₂ hw₂ k hk => ?_
  obtain ⟨rfl, hk⟩ := hk
  exact ⟨hk, hs.mono (hw₁.trans hw₂)⟩

theorem alike_newLiteral (hint : String) :
    Alike (Tracked R) w (newLiteral hint : CpSatM α Expr) (newLiteral hint) (IsLiteral R) := by
  refine alike_bind (alike_auxiliaryName hint) fun w₁ _ name _ => ?_
  refine alike_bind (alike_leaf name true) fun w₂ _ h hh => ?_
  exact alike_bind (alike_newTruth hh) fun w₃ _ _ hs => alike_trackLiteral hs

/-- The negation of a literal is zero or one as well. -/
theorem alike_negation (hs : Spanned R w ⟨0, 1⟩ h) :
    Alike (Tracked R) w (negation h : CpSatM α Expr) (negation h) fun w k => Spanned R w ⟨0, 1⟩ k := by
  unfold negation
  split
  · rename_i id k
    refine alike_tracked fun _ _ ht => alike_pure ⟨?_, fun {ρ} hρ => ?_⟩
    · exact ht.world.args_mem hs.knows k (List.mem_singleton_self k)
    · -- The literal is itself a negation, and the term negated is one less it.
      have hvalue : value ρ k = 1 - value ρ (.node id .not [k]) := by rw [value_not, sub_sub_cancel]
      exact hvalue ▸ R.complement (hs.spans hρ)
  · exact alike_pure hs
  · rename_i id _ _
    refine alike_getSolver fun _ _ ht => ?_
    split
    · rename_i k hfound
      exact alike_pure (ht.negations (Table.mem_of_get? hfound))
    · refine alike_bind (alike_node .not (by simpa using hs.knows)) fun w₁ hw₁ k ⟨hk, id', heq⟩ => ?_
      have hk : Spanned R w₁ ⟨0, 1⟩ k := ⟨hk, fun {ρ} hρ => by
        rw [heq, value_not]
        exact R.complement (hs.spans (hw₁.2 hρ))⟩
      refine alike_bind (alike_remark (fun _ => rfl) (fun _ => rfl) (fun _ h => h) (fun _ _ => .inl)
        fun t p hp => ?_) fun w₂ hw₂ _ _ => alike_pure (hk.mono hw₂)
      rcases List.mem_cons.mp hp with rfl | hp
      · exact .inr hk
      · exact .inl hp

/-- A number, a variable, or a new variable that equals the term. -/
theorem alike_asVariable (hh : w.Has h) :
    Alike (Tracked R) w (asVariable h : CpSatM α Expr) (asVariable h) Stage.Has := by
  refine alike_ite (alike_pure hh) ?_
  refine alike_bind (alike_boundsOf hh) fun w₁ hw₁ b hb => ?_
  refine alike_bind (alike_newInteger hb.1.ordered _) fun w₂ hw₂ v hv => ?_
  have hlinear := knows_linear .eq hv.knows (hh.mono (hw₁.trans hw₂)).knows
  exact alike_bind (alike_require hlinear) fun w₃ hw₃ _ _ => alike_pure (hv.mono hw₃)

/-! ### Constants and variables -/

section

variable [Scalar α]

theorem alike_constant? (x : α) :
    Alike (Tracked R) w (constant? x) (constant? x) Stage.HasAny := by
  unfold constant?
  split
  · refine alike_ite (alike_pure fun h hh => ?_) (alike_pure fun _ hh => nomatch hh)
    cases hh
    exact w.has_const _
  · exact alike_pure fun _ hh => nomatch hh

theorem alike_constant (x : α) : Alike (Tracked R) w (constant x) (constant x) Stage.Has := by
  refine alike_bind (alike_constant? x) fun w₁ _ o ho => ?_
  split
  · exact alike_pure (ho _ rfl)
  · exact alike_fail _

theorem alike_createBoolean (d : Variable α) :
    Alike (Tracked R) w (createBoolean d) (createBoolean d) Stage.Has := by
  refine alike_bind (alike_leaf d.name true) fun w₁ _ h hh => ?_
  refine alike_bind (alike_newTruth hh) fun w₂ _ _ hs => ?_
  refine alike_bind (alike_noteLiteral hs) fun w₃ hw₃ _ _ => ?_
  refine alike_bind (alike_lift _) fun w₄ hw₄ lower _ => alike_bind (alike_lift _) fun w₅ hw₅ upper _ => ?_
  have hs₅ := hs.mono (hw₃.trans (hw₄.trans hw₅))
  refine alike_when (alike_require (knows_linear .eq hs₅.knows (w₅.has_const lower).knows))
    fun w₆ hw₆ => ?_
  exact (alike_track (fun _ => R.proper Bounds.within_unit) (hs₅.mono hw₆)).mono fun _ _ _ hk => hk.2

/-- A domain is within the widest one. -/
theorem within_domainOf {d : Variable α} (hd : domainOf d = .ok b) : b.Within := by
  have hlimit : unboundedLimit ≤ widest := by decide +kernel
  obtain ⟨hl, hu⟩ := domainOf_limited hd
  exact ⟨(neg_le_neg hlimit).trans hl, hu.trans hlimit⟩

theorem alike_createVariable (d : Variable α) :
    Alike (Tracked R) w (createVariable d) (createVariable d) Stage.Has := by
  unfold createVariable
  split
  · exact alike_fail _
  · exact alike_createBoolean d
  · refine alike_bind (alike_lift_ok _) fun w₁ _ b hb => ?_
    refine alike_dec (fun _ => alike_bind (alike_fail _) fun _ _ _ h => h) fun hle => ?_
    refine alike_bind (alike_leaf d.name true) fun w₂ _ h hh => ?_
    have hproper := R.proper (within_domainOf hb)
    refine alike_bind (alike_newDomain hh hproper fun _ _ _ _ => not_lt.mp hle) fun w₃ _ _ hs => ?_
    exact (alike_track (fun _ => hproper) hs).mono fun _ _ _ hk => hk.2

end

/-- The members of a sequence are one more than positions, which do not circulate themselves. -/
theorem alike_createSequence {members : List String}
    (hpositions : R.Proper ⟨0, members.length - 1⟩) (hmembers : R.Proper ⟨1, members.length⟩) :
    Alike (Tracked R) w (createSequence members : CpSatM α (List Expr)) (createSequence members)
      Stage.HasAll := by
  set n : ℤ := (members.length : ℤ) with hn
  refine alike_bind (alike_mapM_all (persists_spanned (R := R) ⟨0, n - 1⟩) fun w₁ _ member hm => ?_)
    fun w₂ _ positions hps => ?_
  · refine alike_bind (alike_leaf _ true) fun w₂ _ h hh => ?_
    have hpos : 0 < members.length := List.length_pos_of_mem hm
    refine alike_bind (alike_newDomain (b := ⟨0, n - 1⟩) hh hpositions fun _ _ _ _ => ?_)
      fun w₃ _ _ hs => alike_pure hs
    dsimp only
    omega
  refine alike_bind (alike_require fun h hh => (hps h hh).knows) fun w₃ hw₃ _ _ => ?_
  refine alike_mapM_has fun w₄ hw₄ p hp => ?_
  have hs := (hps p hp).mono (hw₃.trans hw₄)
  refine alike_bind (alike_binary .add (f := (· + ·)) (fun _ _ => value_add) hs.knows
    (w₄.has_const 1).knows) fun w₅ hw₅ k ⟨hk, hvalue⟩ => ?_
  refine (alike_track (b := ⟨1, n⟩) (fun _ => hmembers) ⟨hk, fun {ρ} hρ => ?_⟩).mono
    fun _ _ _ hk => hk.2
  have hsum := R.add (hs.spans (hw₅.2 hρ)) (R.const 1)
  rw [hvalue, value_const]
  simpa [Bounds.add] using hsum

/-! ### Arithmetic -/

theorem alike_negate (hh : w.Has h) :
    Alike (Tracked R) w (negate h : CpSatM α Expr) (negate h) Stage.Has := by
  refine alike_bind (alike_boundsOf hh) fun w₁ hw₁ b ⟨hs, hproper⟩ => ?_
  cases h with
  | const x => exact alike_pure (w₁.has_const (Numeral.neg x))
  | leaf | node =>
    refine alike_bind (alike_neg hs.knows) fun w₂ hw₂ k ⟨hk, hvalue⟩ => ?_
    have hneg : Spanned R w₂ b.neg k := ⟨hk, fun hρ => hvalue _ ▸ R.neg (hs.spans (hw₂.2 hρ))⟩
    exact (alike_track (fun _ => R.proper_neg (hproper rfl)) hneg).mono fun _ _ _ hk => hk.2

/-- A term over two handles, with the bounds of its value. -/
theorem alike_tracked_binary {f : ℤ → ℤ → ℤ} {combine : Bounds → Bounds → Bounds}
    (symbol : SolverFunction)
    (hf : ∀ id ρ, value ρ (.node id symbol [x, y]) = f (value ρ x) (value ρ y))
    (hcombine : ∀ {a b : Bounds} {m n : ℤ}, R.Spans a m → R.Spans b n → R.Spans (combine a b) (f m n))
    (hx : w.Has x) (hy : w.Has y) (ha : Spanned R w a x) (hb : Spanned R w b y) :
    Alike (Tracked R) w (binary f symbol x y >>= (trackConfined · (combine a b)) : CpSatM α Expr)
      (binary f symbol x y >>= (trackConfined · (combine a b))) Stage.Has := by
  refine alike_bind (alike_binary symbol hf hx.knows hy.knows) fun w₁ hw₁ k ⟨hk, hvalue⟩ => ?_
  exact alike_trackConfined ⟨hk, fun hρ => hvalue _ ▸
    hcombine (ha.spans (hw₁.2 hρ)) (hb.spans (hw₁.2 hρ))⟩

/-- The bounds of two handles, and what follows them. -/
theorem alike_bothBounds {f f' : Bounds → Bounds → CpSatM α Expr} (hx : w.Has x) (hy : w.Has y)
    (hf : ∀ w', w ≤ w' → ∀ a b, Spanned R w' a x → Spanned R w' b y →
      Alike (Tracked R) w' (f a b) (f' a b) Stage.Has) :
    Alike (Tracked R) w (do f (← boundsOf x) (← boundsOf y)) (do f' (← boundsOf x) (← boundsOf y))
      Stage.Has := by
  refine alike_bind (alike_boundsOf hx) fun w₁ hw₁ a ha => ?_
  refine alike_bind (alike_boundsOf (hy.mono hw₁)) fun w₂ hw₂ b hb => ?_
  exact hf w₂ (hw₁.trans hw₂) a b (ha.1.mono hw₂) hb.1

theorem alike_add (hx : w.Has x) (hy : w.Has y) :
    Alike (Tracked R) w (add x y : CpSatM α Expr) (add x y) Stage.Has :=
  alike_bothBounds hx hy fun _ hw _ _ ha hb =>
    alike_tracked_binary .add (fun _ _ => value_add) R.add (hx.mono hw) (hy.mono hw) ha hb

theorem alike_subtract (hx : w.Has x) (hy : w.Has y) :
    Alike (Tracked R) w (subtract x y : CpSatM α Expr) (subtract x y) Stage.Has :=
  alike_bothBounds hx hy fun _ hw _ _ ha hb =>
    alike_tracked_binary .sub (fun _ _ => value_sub) R.sub (hx.mono hw) (hy.mono hw) ha hb

theorem alike_multiply (hx : w.Has x) (hy : w.Has y) :
    Alike (Tracked R) w (multiply x y : CpSatM α Expr) (multiply x y) Stage.Has := by
  refine alike_bothBounds hx hy fun w₁ hw₁ a b ha hb => alike_ite ?_ ?_
  · exact alike_tracked_binary .mul (fun _ _ => value_mul) R.mul (hx.mono hw₁) (hy.mono hw₁) ha hb
  · refine alike_bind (alike_newInteger (fun _ _ => Bounds.ordered_mul a b) _) fun w₂ hw₂ r hr => ?_
    have h₂ := hw₁.trans hw₂
    refine alike_bind (alike_asVariable (hx.mono h₂)) fun w₃ hw₃ u hu => ?_
    refine alike_bind (alike_asVariable (hy.mono (h₂.trans hw₃))) fun w₄ hw₄ v hv => ?_
    have hr₄ := hr.mono (hw₃.trans hw₄)
    refine alike_bind (alike_require ?_) fun w₅ hw₅ _ _ => alike_pure (hr₄.mono hw₅)
    simpa [Constraint.handles] using ⟨hr₄.knows, (hu.mono hw₄).knows, hv.knows⟩

theorem alike_divide (x y : Expr) :
    Alike (Tracked R) w (divide x y : CpSatM α Expr) (divide x y) Stage.Has := by
  unfold divide
  split
  · exact alike_fail _
  · exact alike_ite (alike_const _) (alike_fail _)
  · exact alike_fail _

theorem alike_repeatedProduct (hh : w.Has h) (n : ℕ) :
    Alike (Tracked R) w (repeatedProduct h n : CpSatM α Expr) (repeatedProduct h n) Stage.Has := by
  induction n with
  | zero => exact alike_const _
  | succ n ih => exact alike_bind ih fun w₁ hw₁ p hp => alike_multiply hp (hh.mono hw₁)

theorem alike_power (hx : w.Has x) (y : Expr) :
    Alike (Tracked R) w (power x y : CpSatM α Expr) (power x y) Stage.Has := by
  unfold power
  split
  · exact alike_const _
  · exact alike_repeatedProduct hx _
  · exact alike_fail _

/-- A new variable that a constraint ties to terms. -/
theorem alike_defined (hb : Ordered w b) (hint : String) {c : Expr → Constraint}
    (hc : ∀ w', w ≤ w' → ∀ k, w'.Knows k → ∀ h ∈ (c k).handles, w'.Knows h) :
    Alike (Tracked R) w (do
        let result ← newInteger b hint
        require (c result)
        return result : CpSatM α Expr)
      (do
        let result ← newInteger b hint
        require (c result)
        return result) Stage.Has := by
  refine alike_bind (alike_newInteger hb hint) fun w₁ hw₁ r hr => ?_
  exact alike_bind (alike_require (hc w₁ hw₁ r hr.knows)) fun w₂ hw₂ _ _ => alike_pure (hr.mono hw₂)

theorem alike_absolute (hh : w.Has h) :
    Alike (Tracked R) w (absolute h : CpSatM α Expr) (absolute h) Stage.Has := by
  unfold absolute
  split
  · exact alike_const _
  · refine alike_bind (alike_boundsOf hh) fun w₁ hw₁ b _ => ?_
    refine alike_defined (fun _ _ => Bounds.ordered_abs b) _ fun w₂ hw₂ k hk => ?_
    simpa [Constraint.handles] using ⟨hk, (hh.mono (hw₁.trans hw₂)).knows⟩

/-- The combined bounds of handles are not empty if combining does not make them so. -/
theorem alike_combinedBounds {f : Bounds → Bounds → Bounds}
    (hf : ∀ {a b : Bounds}, a.lower ≤ a.upper → b.lower ≤ b.upper → (f a b).lower ≤ (f a b).upper)
    (hh : w.Has h) {hs : List Expr} (hhs : w.HasAll hs) :
    Alike (Tracked R) w (combinedBounds f h hs : CpSatM α Bounds) (combinedBounds f h hs)
      Ordered := by
  refine alike_getSolver fun _ t ht => alike_pure fun ρ hρ => ?_
  have hfirst := (ht.boundsOf hh).1.ordered ρ hρ
  have hrest : ∀ k ∈ hs, (t.boundsOf k).lower ≤ (t.boundsOf k).upper :=
    fun k hk => (ht.boundsOf (hhs k hk)).1.ordered ρ hρ
  generalize t.boundsOf h = b at hfirst ⊢
  induction hs generalizing b with
  | nil => exact hfirst
  | cons k hs ih =>
    rw [List.map_cons, List.foldl_cons]
    exact ih (Stage.hasAll_cons.mp hhs).2 (fun k' hk' => hrest k' (List.mem_cons_of_mem k hk')) _
      (hf hfirst (hrest k List.mem_cons_self))

/-- A new variable within the combined bounds of handles, which a constraint ties to them. -/
theorem alike_definedWithin {f : Bounds → Bounds → Bounds}
    (hf : ∀ {a b : Bounds}, a.lower ≤ a.upper → b.lower ≤ b.upper → (f a b).lower ≤ (f a b).upper)
    (hint : String) {hs : List Expr} (hhs : w.HasAll (h :: hs)) {c : Expr → Constraint}
    (hc : ∀ r, (c r).handles = r :: h :: hs) :
    Alike (Tracked R) w (do
        let result ← newInteger (← combinedBounds f h hs) hint
        require (c result)
        return result : CpSatM α Expr)
      (do
        let result ← newInteger (← combinedBounds f h hs) hint
        require (c result)
        return result) Stage.Has := by
  obtain ⟨hfirst, hrest⟩ := Stage.hasAll_cons.mp hhs
  refine alike_bind (alike_combinedBounds hf hfirst hrest) fun w₁ hw₁ b hb => ?_
  refine alike_defined hb hint fun w₂ hw₂ r hr => ?_
  rw [hc]
  exact List.forall_mem_cons.mpr ⟨hr, fun k hk => (hhs.mono (hw₁.trans hw₂) k hk).knows⟩

theorem alike_minimum {hs : List Expr} (hhs : w.HasAll hs) :
    Alike (Tracked R) w (minimum hs : CpSatM α Expr) (minimum hs) Stage.Has := by
  unfold minimum
  split
  · exact alike_fail _
  · exact alike_const _
  · exact alike_definedWithin Bounds.ordered_least _ hhs fun _ => rfl

theorem alike_maximum {hs : List Expr} (hhs : w.HasAll hs) :
    Alike (Tracked R) w (maximum hs : CpSatM α Expr) (maximum hs) Stage.Has := by
  unfold maximum
  split
  · exact alike_fail _
  · exact alike_const _
  · exact alike_definedWithin Bounds.ordered_greatest _ hhs fun _ => rfl

/-! ### Logic -/

/-- A literal that is tied to two constraints, one for either value. -/
theorem alike_tied (hl : IsLiteral R w h) {positive negative : Constraint}
    (hp : ∀ k ∈ positive.handles, w.Knows k) (hn : ∀ k ∈ negative.handles, w.Knows k) :
    Alike (Tracked R) w (do
        requireIf h positive
        requireIf (← negation h) negative
        return h : CpSatM α Expr)
      (do
        requireIf h positive
        requireIf (← negation h) negative
        return h) (IsLiteral R) := by
  refine alike_bind (alike_requireIf hl.spanned.knows hp) fun w₁ hw₁ _ _ => ?_
  refine alike_bind (alike_negation (hl.spanned.mono hw₁)) fun w₂ hw₂ k hk => ?_
  refine alike_bind (alike_requireIf hk.knows fun j hj => (hn j hj).mono (hw₁.trans hw₂)) ?_
  exact fun w₃ hw₃ _ _ => alike_pure (hl.mono (hw₁.trans (hw₂.trans hw₃)))

theorem alike_reify (c : Comparison) (hx : w.Has x) (hy : w.Has y) :
    Alike (Tracked R) w (reify c x y : CpSatM α Expr) (reify c x y) (IsLiteral R) := by
  refine alike_bind (alike_newLiteral _) fun w₁ hw₁ l hl => ?_
  exact alike_tied hl (knows_linear _ (hx.mono hw₁).knows (hy.mono hw₁).knows)
    (knows_linear _ (hx.mono hw₁).knows (hy.mono hw₁).knows)

/-- The truth value of a handle is a number or a literal. -/
theorem alike_truth (hh : w.Has h) :
    Alike (Tracked R) w (truth h : CpSatM α Expr) (truth h) fun w k =>
      w.Has k ∧ (k.number? = none → IsLiteral R w k) := by
  unfold truth
  split
  · exact alike_pure ⟨w.has_const _, fun hn => nomatch hn⟩
  · rename_i hnumber hid
    exact absurd hid (Handle.id?_ne_none hnumber)
  · rename_i id _ hid
    refine alike_getSolver fun _ t ht => alike_dec (fun hm => ?_) fun _ => ?_
    · have hs := ht.spanned_literal hh.knows hid (List.contains_iff_mem.mp hm)
      exact alike_pure ⟨hh, fun _ => ⟨hh, hs⟩⟩
    · exact (alike_reify .ne hh (w.has_const 0)).mono fun _ _ _ hl => ⟨hl.has, fun _ => hl⟩

theorem alike_complement (hh : w.Has h) :
    Alike (Tracked R) w (complement h : CpSatM α Expr) (complement h) Stage.Has := by
  refine alike_bind (alike_truth hh) fun w₁ _ l ⟨_, hl⟩ => ?_
  cases hn : l.number? with
  | some n => exact alike_const _
  | none =>
    refine alike_bind (alike_negation (hl hn).spanned) fun w₂ _ k hk => ?_
    exact (alike_trackLiteral hk).mono fun _ _ _ hk => hk.has

theorem alike_openLiterals (absorbing : ℤ) {hs : List Expr} (hhs : w.HasAll hs) :
    Alike (Tracked R) w (openLiterals absorbing hs : CpSatM α (Option (List Expr)))
      (openLiterals absorbing hs) fun w o => ∀ ls ∈ o, ∀ l ∈ ls, IsLiteral R w l := by
  induction hs generalizing w with
  | nil => exact alike_pure (by simp)
  | cons h hs ih =>
    obtain ⟨hfirst, hrest⟩ := Stage.hasAll_cons.mp hhs
    refine alike_bind (alike_truth hfirst) fun w₁ hw₁ l ⟨_, hl⟩ => ?_
    cases hn : l.number? with
    | some n => exact alike_ite (alike_pure (by simp)) (ih (hrest.mono hw₁))
    | none =>
      refine alike_bind (ih (hrest.mono hw₁)) fun w₂ hw₂ o ho => alike_pure fun ls hls => ?_
      obtain ⟨ls, hmem, rfl⟩ := Option.map_eq_some_iff.mp hls
      exact List.forall_mem_cons.mpr ⟨(hl hn).mono hw₂, ho ls hmem⟩

/-- A new literal that is tied to several literals and to their negations. -/
theorem alike_connective (hint : String) (positive negative : List Expr → Constraint)
    {ls : List Expr} (hls : ∀ l ∈ ls, IsLiteral R w l) (hp : (positive ls).handles = ls)
    (hn : ∀ ks, (negative ks).handles = ks) :
    Alike (Tracked R) w (do
        let result ← newLiteral hint
        requireIf result (positive ls)
        let negations ← ls.mapM negation
        requireIf (← negation result) (negative negations)
        return result : CpSatM α Expr)
      (do
        let result ← newLiteral hint
        requireIf result (positive ls)
        let negations ← ls.mapM negation
        requireIf (← negation result) (negative negations)
        return result) Stage.Has := by
  refine alike_bind (alike_newLiteral hint) fun w₁ hw₁ r hr => ?_
  refine alike_bind (alike_requireIf hr.spanned.knows fun l hl => ?_) fun w₂ hw₂ _ _ => ?_
  · exact (hls l (hp ▸ hl)).spanned.knows.mono hw₁
  refine alike_bind (alike_mapM_all (persists_spanned (R := R) ⟨0, 1⟩) fun w₃ hw₃ l hl =>
    alike_negation ((hls l hl).spanned.mono (hw₁.trans (hw₂.trans hw₃)))) fun w₃ hw₃ ks hks => ?_
  refine alike_bind (alike_negation (hr.spanned.mono (hw₂.trans hw₃))) fun w₄ hw₄ k hk => ?_
  refine alike_bind (alike_requireIf hk.knows fun l hl => ?_) fun w₅ hw₅ _ _ => ?_
  · exact (hks l (hn ks ▸ hl)).knows.mono hw₄
  · exact alike_pure (hr.has.mono (hw₂.trans (hw₃.trans (hw₄.trans hw₅))))

theorem alike_conjoin {hs : List Expr} (hhs : w.HasAll hs) :
    Alike (Tracked R) w (conjoin hs : CpSatM α Expr) (conjoin hs) Stage.Has := by
  refine alike_bind (alike_openLiterals 0 hhs) fun w₁ _ o ho => ?_
  split
  · exact alike_const _
  · exact alike_const _
  · exact alike_pure (ho _ rfl _ (by simp)).has
  · exact alike_connective "and" .conjunction .disjunction (ho _ rfl) rfl fun _ => rfl

theorem alike_disjoin {hs : List Expr} (hhs : w.HasAll hs) :
    Alike (Tracked R) w (disjoin hs : CpSatM α Expr) (disjoin hs) Stage.Has := by
  refine alike_bind (alike_openLiterals 1 hhs) fun w₁ _ o ho => ?_
  split
  · exact alike_const _
  · exact alike_const _
  · exact alike_pure (ho _ rfl _ (by simp)).has
  · exact alike_connective "or" .disjunction .conjunction (ho _ rfl) rfl fun _ => rfl

theorem alike_membership (hh : w.Has h) {hs : List (Option Expr)} (hhs : ∀ o ∈ hs, w.HasAny o) :
    Alike (Tracked R) w (membership h hs : CpSatM α Expr) (membership h hs) Stage.Has := by
  unfold membership
  dsimp only
  refine alike_ite (alike_const _) ?_
  refine alike_bind (alike_mapM_has fun w₁ hw₁ k hk => ?_) fun w₁ hw₁ tests htests => ?_
  · obtain ⟨o, ho, rfl⟩ := List.mem_filterMap.mp (List.mem_of_mem_filter hk)
    exact (alike_reify .eq (hh.mono hw₁) ((hhs _ ho k rfl).mono hw₁)).mono fun _ _ _ hl => hl.has
  refine alike_ite (alike_disjoin htests) ?_
  refine alike_bind (alike_newLiteral _) fun w₂ hw₂ l hl => ?_
  have hvalue := (hh.mono (hw₁.trans hw₂)).knows
  have hin {w'} (hw : w₂ ≤ w') (complemented : Bool) {ns : List ℤ} :
      ∀ k ∈ (Constraint.inDomain h ns complemented).handles, w'.Knows k := by
    simpa [Constraint.handles] using hvalue.mono hw
  refine alike_bind (alike_requireIf hl.spanned.knows (hin le_rfl false)) fun w₃ hw₃ _ _ => ?_
  refine alike_bind (alike_negation (hl.spanned.mono hw₃)) fun w₄ hw₄ k hk => ?_
  refine alike_bind (alike_requireIf hk.knows (hin (hw₃.trans hw₄) true)) fun w₅ hw₅ _ _ => ?_
  have h₅ := hw₃.trans (hw₄.trans hw₅)
  refine alike_disjoin fun j hj => ?_
  rcases List.mem_append.mp hj with hj | hj
  · exact (htests j hj).mono (hw₂.trans h₅)
  · rw [List.mem_singleton.mp hj]
    exact hl.has.mono h₅

/-! ### Selection -/

theorem alike_conditional {c t e : Expr} (hc : w.Has c) (ht : w.Has t) (he : w.Has e) :
    Alike (Tracked R) w (conditional c t e : CpSatM α Expr) (conditional c t e) Stage.Has := by
  refine alike_bind (alike_truth hc) fun w₁ hw₁ l ⟨_, hl⟩ => ?_
  have ht := ht.mono hw₁
  have he := he.mono hw₁
  cases hn : l.number? with
  | some n =>
    refine alike_pure ?_
    split
    · exact he
    · exact ht
  | none =>
    refine alike_bothBounds ht he fun w₂ hw₂ a b ha hb => ?_
    have hordered : Ordered w₂ (a.hull b) := fun ρ hρ => Bounds.ordered_hull (ha.ordered ρ hρ)
    refine alike_bind (alike_newInteger hordered _) fun w₃ hw₃ r hr => ?_
    have hl₃ := ((hl hn).mono (hw₂.trans hw₃)).spanned
    have hlinear {w' v} (hw : w₃ ≤ w') (hv : w₁.Has v) :=
      knows_linear .eq (hr.mono hw).knows (hv.mono (hw₂.trans (hw₃.trans hw))).knows
    refine alike_bind (alike_requireIf hl₃.knows (hlinear le_rfl ht)) fun w₄ hw₄ _ _ => ?_
    refine alike_bind (alike_negation (hl₃.mono hw₄)) fun w₅ hw₅ k hk => ?_
    refine alike_bind (alike_requireIf hk.knows (hlinear (hw₄.trans hw₅) he)) fun w₆ hw₆ _ _ => ?_
    exact alike_pure (hr.mono (hw₄.trans (hw₅.trans hw₆)))

theorem alike_firstMatch {cs vs : List Expr} (hcs : w.HasAll cs) (hvs : w.HasAll vs) (hh : w.Has h) :
    Alike (Tracked R) w (Backend.nestedConditionals conditional cs vs h : CpSatM α Expr)
      (Backend.nestedConditionals conditional cs vs h) Stage.Has := by
  refine alike_foldlM (fun w₁ hw₁ k hk p hp => ?_) hh
  have hpair := List.of_mem_zip (List.mem_reverse.mp hp)
  exact alike_conditional ((hcs _ hpair.1).mono hw₁) ((hvs _ hpair.2).mono hw₁) hk

/-- A new variable for the position in a list, which counts from zero. -/
theorem alike_offset {index : Expr} (hindex : w.Has index) {first last : ℤ} (hle : first ≤ last)
    {f : Expr → CpSatM α Expr}
    (hf : ∀ w', w ≤ w' → ∀ k, w'.Has k → Alike (Tracked R) w' (f k) (f k) Stage.Has) :
    Alike (Tracked R) w (do
        let offset ← newInteger ⟨0, last - first⟩ "offset"
        let difference ← LowerM.sub index (.const first)
        require (linear .eq offset difference)
        f offset)
      (do
        let offset ← newInteger ⟨0, last - first⟩ "offset"
        let difference ← LowerM.sub index (.const first)
        require (linear .eq offset difference)
        f offset) Stage.Has := by
  have hordered : Ordered w ⟨0, last - first⟩ := fun _ _ => sub_nonneg.mpr hle
  refine alike_bind (alike_newInteger hordered _) fun w₁ hw₁ k hk => ?_
  refine alike_bind (alike_binary .sub (f := (· - ·)) (fun _ _ => value_sub) (hindex.mono hw₁).knows
    (w₁.has_const first).knows) fun w₂ hw₂ d ⟨hd, _⟩ => ?_
  refine alike_bind (alike_require (knows_linear .eq (hk.mono hw₂).knows hd)) fun w₃ hw₃ _ _ => ?_
  exact hf w₃ (hw₁.trans (hw₂.trans hw₃)) k (hk.mono (hw₂.trans hw₃))

/-- The entry at a position, or the filler where there is none. -/
theorem has_entry {entries : List (ℤ × Expr)} (hentries : ∀ e ∈ entries, w.Has e.2) (hh : w.Has h)
    (p : ℤ) : w.Has (((entries.reverse.find? (·.1 = p)).map (·.2)).getD h) := by
  cases hfound : entries.reverse.find? (·.1 = p) with
  | none => exact hh
  | some e => exact hentries e (List.mem_reverse.mp (List.mem_of_find?_eq_some hfound))

theorem alike_lookup (hh : w.Has h) {entries : List (ℤ × Expr)} (hentries : ∀ e ∈ entries, w.Has e.2) :
    Alike (Tracked R) w (lookup h entries : CpSatM α Expr) (lookup h entries) Stage.Has := by
  unfold lookup
  split
  · exact alike_fail _
  · rename_i position filler rest
    obtain ⟨hfirst, hlast⟩ := positionRange_contains position (rest.map (·.1)) List.mem_cons_self
    dsimp only
    refine alike_bind (alike_require (by simpa [Constraint.handles] using hh.knows)) fun w₁ hw₁ _ _ => ?_
    refine alike_bind (alike_mapM_has fun w₂ hw₂ p _ => alike_asVariable ?_) fun w₂ hw₂ values hvalues => ?_
    · exact (has_entry hentries (hentries _ List.mem_cons_self) p).mono (hw₁.trans hw₂)
    refine alike_offset (hh.mono (hw₁.trans hw₂)) (hfirst.trans hlast) fun w₃ hw₃ offset hoffset => ?_
    have hresult {w'} (hw : w₃ ≤ w') {b : Bounds} (hb : Ordered w' b) := alike_defined (α := α) (R := R)
      hb "element" (c := Constraint.element offset values) fun w'' hw' k hk => by
        simpa [Constraint.handles] using ⟨(hoffset.mono (hw.trans hw')).knows, hk, fun v hv =>
          ((hvalues v hv).mono (hw₃.trans (hw.trans hw'))).knows⟩
    have hall : Bounds.all.lower ≤ Bounds.all.upper := by decide +kernel
    split
    · exact alike_bind (alike_pure fun _ _ => hall) fun w₄ hw₄ b hb => hresult hw₄ hb
    · have hvalues₃ := hvalues.mono hw₃
      exact alike_bind (alike_combinedBounds (fun ha _ => Bounds.ordered_hull ha)
        (hvalues₃ _ List.mem_cons_self) (Stage.hasAll_cons.mp hvalues₃).2) fun w₄ hw₄ b hb =>
          hresult hw₄ hb

/-! ### Posting -/

theorem alike_postTrue (hh : w.Has h) :
    Alike (Tracked R) w (postTrue h : CpSatM α Unit) (postTrue h) Stage.Admits := by
  refine alike_getSolver fun _ _ _ => alike_ite (alike_require ?_) (alike_require ?_)
  · simpa [Constraint.handles] using hh.knows
  · exact knows_linear .ne hh.knows (w.has_const 0).knows

theorem alike_postObjective (sense : Sense) (h : Expr) :
    Alike (Tracked R) w (postObjective sense h : CpSatM α Unit) (postObjective sense h)
      Stage.Admits := by
  refine alike_bind (alike_call (fun _ hh => nomatch hh) fun _ _ _ h => nomatch h) fun w₁ _ _ _ => ?_
  exact alike_remark (fun _ => rfl) (fun _ => rfl) (fun _ => id) (fun _ _ => .inl) fun _ _ => .inl

/-- A new variable for the place of an entry in a flat table. -/
theorem alike_flatIndex [Scalar α] {key column : Expr} {count width : ℕ} (firstKey : ℤ)
    (hcount : 0 < count) (hwidth : 0 < width) (hkey : w.Has key) (hcolumn : w.Has column) :
    Alike (Tracked R) w (Backend.flatIndex (backend : Backend α ℤ Solver) count width firstKey key column)
      (Backend.flatIndex backend count width firstKey key column) Stage.Has := by
  have hpos : 0 < count * width := Nat.mul_pos hcount hwidth
  refine alike_bind (alike_newInteger (fun _ _ => ?_) _) fun w₁ hw₁ flat hflat => ?_
  · dsimp only
    omega
  refine alike_bind (alike_binary .sub (f := (· - ·)) (fun _ _ => value_sub) (hkey.mono hw₁).knows
    (w₁.has_const _).knows) fun w₂ hw₂ row ⟨hrow, _⟩ => ?_
  refine alike_bind (alike_binary .mul (f := (· * ·)) (fun _ _ => value_mul) hrow
    (w₂.has_const _).knows) fun w₃ hw₃ start ⟨hstart, _⟩ => ?_
  refine alike_bind (alike_binary .add (f := (· + ·)) (fun _ _ => value_add) hstart
    (hcolumn.mono (hw₁.trans (hw₂.trans hw₃))).knows) fun w₄ hw₄ sum ⟨hsum, _⟩ => ?_
  refine alike_bind (alike_binary .sub (f := (· - ·)) (fun _ _ => value_sub) hsum
    (w₄.has_const _).knows) fun w₅ hw₅ position ⟨hposition, _⟩ => ?_
  have hflat₅ := hflat.mono (hw₂.trans (hw₃.trans (hw₄.trans hw₅)))
  exact alike_bind (alike_require (knows_linear .eq hflat₅.knows hposition)) fun w₆ hw₆ _ _ =>
    alike_pure (hflat₅.mono hw₆)

/-! ### The back-end -/

/-- Sequences are created only if the domains of their positions and members are proper. -/
def creatable (α : Type) (R : Reading) : Creatable α where
  Takes _ := True
  TakesSequence members := R.Proper ⟨0, members.length - 1⟩ ∧ R.Proper ⟨1, members.length⟩

/-- Whatever is lowered, the notes stay right, wherever the lowering fails. -/
theorem agree_tracked (α : Type) [Scalar α] (R : Reading) :
    (backend : Backend α ℤ Solver).Agree backend (Tracked R) (creatable α R) where
  name := rfl
  constant := alike_constant
  constant? := alike_constant?
  negate := alike_negate
  add := alike_add
  subtract := alike_subtract
  multiply := alike_multiply
  divide _ _ := alike_divide _ _
  power hx _ := alike_power hx _
  absolute := alike_absolute
  minimum := alike_minimum
  maximum := alike_maximum
  reify c hx hy := (alike_reify c hx hy).mono fun _ _ _ hl => hl.has
  complement := alike_complement
  conjoin := alike_conjoin
  disjoin := alike_disjoin
  conditional := alike_conditional
  firstMatch := alike_firstMatch
  membership hh hhs := alike_membership hh hhs
  lookup hh hentries := alike_lookup hh hentries
  keyedMembership? _ _ _ _ := .none
  createVariable _ := alike_createVariable _
  createSequence _ _ hq := alike_createSequence hq.1 hq.2
  newInteger hint hle := alike_newInteger (fun _ _ => hle) hint
  flatIndex := alike_flatIndex
  postEqual hx hy := alike_require (knows_linear .eq hx.knows hy.knows)
  postComparison c hx hy := alike_require (knows_linear c hx.knows hy.knows)
  postTrue := alike_postTrue
  postDefinition _ hx hh := alike_require (knows_linear .eq hx.knows hh.knows)
  postObjective sense _ := alike_postObjective sense _

end DecisionModel.CpSat
