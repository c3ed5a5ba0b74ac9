import DecisionModel.Proofs.Lowering.Walk

/-!
# Posting of constraints

A constraint is taken apart into conjuncts, comparisons among them are posted directly, and any other
conjunct is lowered to a handle that has to be true. `post_asserts` says that a point admitted after
posting makes the constraint true, and that a point at which it is true extends, where conjuncts other
than comparisons have values that the back-end accepts (`Reader.Meets`).
-/

namespace DecisionModel

open LowerM Backend

/-- The constraint is taken apart when it is posted. -/
def Term.isSplit {α : Type} : Term α → Bool
  | .node _ .conjunction _ => true
  | .node _ .wrapper (inner :: _) => inner.isNode
  | _ => false

/-- The first term is one of the conjuncts that the second is taken apart into. -/
inductive Term.Conjunct {α : Type} : Term α → Term α → Prop
  | self {t : Term α} : t.isSplit = false → Conjunct t t
  | wrapped {u inner : Term α} {id : NodeId} {rest : List (Term α)} :
    inner.isNode = true → Conjunct u inner → Conjunct u (.node id .wrapper (inner :: rest))
  | conjunct {u t : Term α} {id : NodeId} {ts : List (Term α)} :
    t ∈ ts → Conjunct u t → Conjunct u (.node id .conjunction ts)

namespace Reader

variable {w : Workspace Exact} {m : ModelId} (r : Reader w m) (origin : NodeId → Option (Term Exact))

/-- The term is not zero, and its conjuncts other than comparisons have values that are accepted. -/
structure Meets (accepted : ℤ → Prop) (t : Term Exact) : Prop where
  ready : r.Ready origin t
  ne_zero {n : ℤ} : r.Means origin t n → n ≠ 0
  accepts {u : Term Exact} {n : ℤ} : u.Conjunct t → (∀ k, u.operator? ≠ some (.comparison k)) →
    r.Means origin u n → accepted n

variable {r origin}

theorem means_wrapper {id : NodeId} {t : Term Exact} {n : ℤ}
    (hw : (Term.node id .wrapper [t]).WellBuilt origin) (h : r.Means origin t n) :
    r.Means origin (.node id .wrapper [t]) n :=
  means_node (evaluate_wrapper (MeansAll.givesAll (.cons h .nil) hw))

/-- A conjunction with a value is zero if one of its operands is. -/
theorem conjunction_zero {args : List (Argument Exact)} {a : Argument Exact} {x : Reading Exact}
    (hx : Operator.evaluateAll args = .ok (some x)) (ha : a ∈ args)
    (h : r.Gives origin (a.value ()) 0) : r.Gives origin (Operator.evaluateAll args) 0 := by
  induction args generalizing x with
  | nil => cases ha
  | cons b bs ih =>
    obtain ⟨y, hy, hrest⟩ := Outcome.exists_of_andThen hx
    simp only [Operator.evaluateAll, hy, Outcome.andThen] at hrest ⊢
    split at hrest
    · rename_i hzero
      rw [if_pos hzero]
      exact gives_truth False
    · rename_i hne
      rw [if_neg hne]
      rcases List.mem_cons.mp ha with rfl | ha
      · obtain ⟨z, hz, hz0, -⟩ := h
        rw [hy] at hz
        cases hz
        simp [hz0] at hne
      · exact ih hrest ha

theorem Meets.wrapped {accepted : ℤ → Prop} {id : NodeId} {t : Term Exact}
    (hw : (Term.node id .wrapper [t]).WellBuilt origin) (ht : t.isNode = true)
    (h : r.Meets origin accepted (.node id .wrapper [t])) : r.Meets origin accepted t where
  ready := h.ready.operand (by simp) (by simp) (by simp)
  ne_zero hn := h.ne_zero (means_wrapper hw hn)
  accepts hu := h.accepts (.wrapped ht hu)

theorem Meets.conjunct {accepted : ℤ → Prop} {id : NodeId} {ts : List (Term Exact)} {t : Term Exact}
    (hw : (Term.node id .conjunction ts).WellBuilt origin) (ht : t ∈ ts)
    (h : r.Meets origin accepted (.node id .conjunction ts)) : r.Meets origin accepted t where
  ready := h.ready.operand ht (by simp) (by simp)
  ne_zero {n} hn := by
    rintro rfl
    obtain ⟨x, hx⟩ := h.ready.defined.evaluate (by simp)
    obtain ⟨k, hk⟩ := List.getElem?_of_mem ht
    have hget : (r.arguments id ts)[k]? = some (r.argument (some (.constant id k)) t) := by
      rw [arguments, getElem?_arguments, hk, Nat.zero_add, Option.map_some]
    exact h.ne_zero (means_node (conjunction_zero hx (List.mem_of_getElem? hget)
      (hn _ (stands_operand hw hk)))) rfl
  accepts hu := h.accepts (.conjunct ht hu)

/-- No conjunct of a constraint that is not zero is zero. -/
theorem Meets.conjunct_ne_zero {accepted : ℤ → Prop} {t u : Term Exact} (hu : u.Conjunct t)
    (ht : t.WellBuilt origin) (h : r.Meets origin accepted t) {n : ℤ} (hn : r.Means origin u n) :
    n ≠ 0 := by
  induction hu with
  | self => exact h.ne_zero hn
  | wrapped hnode _ ih =>
    obtain ⟨_, hshape⟩ := ht.shape (.refl _)
    obtain ⟨rfl, rfl⟩ := List.cons.inj hshape
    exact ih (ht.operand (by simp)) (h.wrapped ht hnode)
  | conjunct hm _ ih => exact ih (ht.operand hm) (h.conjunct ht hm)

end Reader

variable {ν σ V : Type} [Numeral ν] {B : Backend Exact ν σ} {S : Semantics ν σ V} {c : Context Exact}
  {origin : NodeId → Option (Term Exact)} {G : Set (Handle ν)} {s s' : LoweringState ν σ}

/-- A point that is admitted after running `m` gives readers with the property `P`, and a point that
matches a reader with the property `D` extends. -/
def Requires (S : Semantics ν σ V) (c : Context Exact) (origin : NodeId → Option (Term Exact))
    (m : LowerM Exact ν σ Unit) (P D : Reader c.workspace c.model → Prop) : Prop :=
  ∀ ⦃G s s'⦄, Walked S c origin G s → m.Runs s () s' →
    ∃ G', S.Grows G s G' s' ∧ Walked S c origin G' s' ∧
      (∀ ρ r, S.Admits ρ s' → Matched S s ρ r → P r) ∧
      S.Extends s s' fun ρ => ∃ r, Matched S s ρ r ∧ D r

/-- Running `m` requires that the constraints are true. -/
def Asserts (S : Semantics ν σ V) (c : Context Exact) (origin : NodeId → Option (Term Exact))
    (ts : List (Term Exact)) (m : LowerM Exact ν σ Unit) : Prop :=
  Requires S c origin m (fun r => ∀ t ∈ ts, ∃ n, r.Holds origin t n ∧ n ≠ 0)
    fun r => ∀ t ∈ ts, r.Meets origin S.Accepts t

variable {m₁ m₂ : LowerM Exact ν σ Unit} {P P₁ P₂ D D₁ D₂ : Reader c.workspace c.model → Prop}

omit [Numeral ν] in
theorem Requires.mono (h : Requires S c origin m₁ P₁ D₁) (hP : ∀ r, P₁ r → P r)
    (hD : ∀ r, D r → D₁ r) : Requires S c origin m₁ P D := by
  intro G s s' hw hr
  obtain ⟨G', g, w, b, e⟩ := h hw hr
  refine ⟨G', g, w, fun ρ r hρ hm => hP r (b ρ r hρ hm), e.mono ?_⟩
  rintro ρ - ⟨r, hm, hr⟩
  exact ⟨r, hm, hD r hr⟩

omit [Numeral ν] in
theorem requires_pure (u : Unit) :
    Requires S c origin (pure u : LowerM Exact ν σ Unit) (fun _ => True) fun _ => True := by
  intro G s s' hw hr
  obtain ⟨-, rfl⟩ := runs_pure.mp hr
  exact ⟨G, .refl hw.valid, hw, fun _ _ _ _ => trivial, .refl⟩

theorem requires_log (hB : Faithful B S c) (level : ℤ) (line : Except Fault String) :
    Requires S c origin (LowerM.log c.config level line : LowerM Exact ν σ Unit) (fun _ => True)
      fun _ => True := by
  intro G s s' hw hr
  obtain ⟨g, w, e⟩ := hw.log hB hr
  exact ⟨G, g.toGrows, w, fun _ _ _ _ => trivial, e _⟩

theorem Requires.append (hB : Faithful B S c) (h₁ : Requires S c origin m₁ P₁ D₁)
    (h₂ : Requires S c origin m₂ P₂ D₂) :
    Requires S c origin (do m₁; m₂) (fun r => P₁ r ∧ P₂ r) fun r => D₁ r ∧ D₂ r := by
  intro G s s' hw hr
  obtain ⟨_, s₁, hr₁, hr₂⟩ := runs_bind.mp hr
  obtain ⟨G₁, g₁, w₁, b₁, e₁⟩ := h₁ hw hr₁
  obtain ⟨G₂, g₂, w₂, b₂, e₂⟩ := h₂ w₁ hr₂
  refine ⟨G₂, g₁.trans g₂, w₂, fun ρ r hρ hm => ?_, ?_⟩
  · exact ⟨b₁ ρ r (g₂.admits ρ hρ) hm, b₂ ρ r hρ ((matched_iff g₁.handles_eq).mpr hm)⟩
  · refine e₁.trans g₁ g₂ e₂ ?_ ?_
    · rintro ρ - ⟨r, hm, h, -⟩
      exact ⟨r, hm, h⟩
    · rintro ρ ρ₁ - ⟨r, hm, -, h⟩ ha -
      exact ⟨r, (matched_iff g₁.handles_eq).mpr (hm.congr hB hw ha), h⟩

/-- What each step of a loop requires, the loop requires. -/
theorem requires_forM (hB : Faithful B S c) {β : Type} {f : β → LowerM Exact ν σ Unit} (xs : List β)
    {P D : β → Reader c.workspace c.model → Prop}
    (h : ∀ x ∈ xs, Requires S c origin (f x) (P x) (D x)) :
    Requires S c origin (xs.forM f) (fun r => ∀ x ∈ xs, P x r) fun r => ∀ x ∈ xs, D x r := by
  induction xs with
  | nil => exact (requires_pure ()).mono (by simp) (by simp)
  | cons x xs ih =>
    have hstep := (h x (by simp)).append hB (ih fun y hy => h y (by simp [hy]))
    exact hstep.mono (by simp) (by simp)

/-! ### Posting -/

/-- A constraint that folded to false is recorded, so that no point is admitted any more. -/
theorem postFolded_step (hB : Faithful B S c) (hw : Walked S c origin G s) {b : Bool}
    {t : Term Exact} (hr : (postFolded c b t : LowerM Exact ν σ Unit).Runs s () s') :
    S.Grows G s G s' ∧ Walked S c origin G s' ∧ (∀ ρ, S.Admits ρ s' → b = true) ∧
      S.Extends s s' fun _ => b = true := by
  unfold postFolded at hr
  cases b with
  | true =>
    obtain ⟨-, rfl⟩ := runs_pure.mp hr
    exact ⟨.refl hw.valid, hw, fun _ _ => rfl, .refl⟩
  | false =>
    simp only [Bool.not_false, if_true, runs_bind, runs_lift] at hr
    obtain ⟨text, s₀, ⟨-, rfl⟩, _, s₁, hviolated, hlog⟩ := hr
    rw [runs_recordViolated] at hviolated
    subst hviolated
    have hs : s₀.SameSolver { s₀ with violated := s₀.violated ++ [text] } :=
      ⟨rfl, fun h => by simp at h, le_rfl⟩
    obtain ⟨g₁, w₁⟩ := hw.of_sameSolver hB hs rfl rfl
    obtain ⟨g₂, w₂, -⟩ := w₁.log hB hlog
    refine ⟨g₁.toGrows.trans g₂.toGrows, w₂, fun ρ hρ => ?_, fun _ _ _ h => by cases h⟩
    have hnone := (g₂.admits ρ hρ).2
    simp at hnone

/-- What posting a handle asks of its value: a number has to differ from zero, and any other handle
has to have a value that is accepted. -/
def Semantics.Asks (S : Semantics ν σ V) (h : Handle ν) (n : ℤ) : Prop :=
  if h.isNumber then n ≠ 0 else S.Accepts n

/-- Posting a term through its handle admits exactly the points at which the term has a value that is
asked for. -/
theorem postHandle_step (hB : Faithful B S c) (hc : IntegralCollections c) {t : Term Exact}
    (ht : t.WellBuilt origin) (hint : S.limited → t.Integral) (hw : Walked S c origin G s)
    (hr : (postHandle B c t).Runs s () s') :
    ∃ h s₁ G', (translate B c t).Runs s h s₁ ∧ S.Grows G s G' s' ∧ Walked S c origin G' s' ∧
      (∀ ρ (r : Reader c.workspace c.model), S.Admits ρ s' → Matched S s ρ r →
        ∃ n, r.Holds origin t n ∧ S.Asks h n) ∧
      S.Extends s s' fun ρ => ∃ r : Reader c.workspace c.model, Matched S s ρ r ∧
        r.Ready origin t ∧ ∀ n, r.Means origin t n → S.Asks h n := by
  obtain ⟨h, s₁, hh, hr₁⟩ := runs_bind.mp hr
  obtain ⟨G₁, g₁, w₁, u₁, -, b₁, e₁⟩ := translate_lowers hB hc ht hint hw hh
  have hready : ∀ ρ : HandleId → V, (∃ r : Reader c.workspace c.model, Matched S s ρ r ∧
      r.Ready origin t ∧ ∀ n, r.Means origin t n → S.Asks h n) → ReadyAt S c origin s [t] ρ := by
    rintro ρ ⟨r, hm, hready, -⟩
    exact ⟨r, hm, by simpa using hready⟩
  have hasks : ∀ ρ ρ₁ : HandleId → V, (∃ r : Reader c.workspace c.model, Matched S s ρ r ∧
      r.Ready origin t ∧ ∀ n, r.Means origin t n → S.Asks h n) → Agree s.nextHandle ρ ρ₁ →
        S.Admits ρ₁ s₁ → S.Asks h (S.int ρ₁ h) := by
    rintro ρ ρ₁ ⟨r, hm, -, hasks⟩ ha hρ₁
    exact hasks _ (b₁ ρ₁ r hρ₁ (hm.congr hB hw ha)).means
  split at hr₁
  · rename_i x hx
    obtain rfl := Handle.eq_const hx
    obtain ⟨g₂, w₂, b₂, e₂⟩ := postFolded_step hB w₁ hr₁
    have hfold : ∀ ρ, S.Admits ρ s₁ →
        ((!Numeral.isZero x) = true ↔ S.Asks (.const x) (S.int ρ (.const x))) := fun ρ hρ => by
      simp [hB.isZero_eq (u₁.integral ρ hρ), Semantics.Asks, Handle.isNumber]
    refine ⟨_, s₁, G₁, hh, g₁.trans g₂, w₂, fun ρ r hρ hm => ?_, ?_⟩
    · have hρ₁ := g₂.admits ρ hρ
      exact ⟨_, b₁ ρ r hρ₁ hm, (hfold ρ hρ₁).mp (b₂ ρ hρ)⟩
    · exact e₁.trans g₁ g₂ e₂ (fun ρ _ => hready ρ) fun ρ ρ₁ _ h ha hρ₁ =>
        (hfold ρ₁ hρ₁).mpr (hasks ρ ρ₁ h ha hρ₁)
  · rename_i hterm
    have hnumber : h.isNumber = false := by
      cases h with
      | const x => cases hterm
      | _ => rfl
    have hasks' : ∀ n, S.Asks h n ↔ S.Accepts n := fun n => by simp [Semantics.Asks, hnumber]
    obtain ⟨G₂, g₂, b₂, e₂⟩ := hB.postTrue h hterm w₁.valid (by simpa using u₁.toHeld) hr₁
    refine ⟨h, s₁, G₂, hh, g₁.trans g₂.toGrows, w₁.step g₂, fun ρ r hρ hm => ?_, ?_⟩
    · exact ⟨_, b₁ ρ r (g₂.admits ρ hρ) hm, (hasks' _).mpr (b₂ ρ hρ)⟩
    · exact e₁.trans g₁ g₂.toGrows e₂ (fun ρ _ => hready ρ) fun ρ ρ₁ _ h ha hρ₁ =>
        (hasks' _).mp (hasks ρ ρ₁ h ha hρ₁)

/-- Posting a constraint through its handle. -/
theorem postHandle_asserts (hB : Faithful B S c) (hc : IntegralCollections c) {t : Term Exact}
    (ht : t.WellBuilt origin) (hint : S.limited → t.Integral) (hsplit : t.isSplit = false)
    (hcomparison : ∀ k, t.operator? ≠ some (.comparison k)) :
    Asserts S c origin [t] (postHandle B c t) := by
  intro G s s' hw hr
  obtain ⟨h, s₁, G', -, g, w, b, e⟩ := postHandle_step hB hc ht hint hw hr
  refine ⟨G', g, w, fun ρ r hρ hm u hu => ?_, e.mono ?_⟩
  · obtain rfl := List.mem_singleton.mp hu
    obtain ⟨n, hn, hasks⟩ := b ρ r hρ hm
    refine ⟨n, hn, ?_⟩
    unfold Semantics.Asks at hasks
    split at hasks
    · exact hasks
    · exact hB.accepts hasks
  · rintro ρ - ⟨r, hm, hmeets⟩
    have ht := hmeets t (List.mem_singleton_self t)
    refine ⟨r, hm, ht.ready, fun n hn => ?_⟩
    unfold Semantics.Asks
    split
    · exact ht.ne_zero hn
    · exact ht.accepts (.self hsplit) hcomparison hn

/-- Posting a comparison directly. -/
theorem postComparisonOf_asserts (hB : Faithful B S c) (hc : IntegralCollections c) {id : NodeId}
    {k : Comparison} {ts : List (Term Exact)}
    (ht : (Term.node id (.comparison k) ts).WellBuilt origin)
    (hint : S.limited → (Term.node id (.comparison k) ts).Integral) :
    Asserts S c origin [.node id (.comparison k) ts]
      (postComparisonOf B c k ts (.node id (.comparison k) ts)) := by
  obtain ⟨t, u, rfl⟩ := ht.shape (.refl _)
  have hlower : ∀ v ∈ [t, u], Lowers S c origin v (translate B c v) := fun v hv =>
    translate_lowers hB hc (ht.operand hv) fun hl => (hint hl).within (.of_mem hv)
  let operands : List (Operand Exact ν σ) := [⟨t, translate B c t⟩, ⟨u, translate B c u⟩]
  have hlowers : ∀ o ∈ operands, Lowers S c origin o.term o.lower := by simpa [operands] using hlower
  have hall : LowersAll S c origin [t, u] (lowerAll operands) := lowersAll_operands hB hlowers
  have hoperands : operandsOf B c [t, u] = operands := by simp [operandsOf, operands]
  intro G s s' hw hr
  rw [postComparisonOf, hoperands, lowerNth_eq (k := 0) rfl, lowerNth_eq (k := 1) rfl] at hr
  simp only [runs_bind] at hr
  obtain ⟨x, s₁, hx, y, s₂, hy, hr⟩ := hr
  obtain ⟨G₂, g₂, w₂, u₂, -, b₂, e₂⟩ := hall hw (runs_mapM_cons.mpr ⟨x, s₁, [y], hx,
    runs_mapM_cons.mpr ⟨y, s₂, [], hy, runs_mapM_nil.mpr ⟨rfl, rfl⟩, rfl⟩, rfl⟩)
  obtain ⟨ux, uy⟩ : S.Usable G₂ s₂ x ∧ S.Usable G₂ s₂ y := by simpa using u₂
  have hvalue : ∀ ρ (r : Reader c.workspace c.model), S.Admits ρ s₂ → Matched S s ρ r →
      r.Holds origin (.node id (.comparison k) [t, u])
        (indicator (k.Relates (S.int ρ x) (S.int ρ y))) := fun ρ r hρ hm =>
    node_holds ht (by simp) (b₂ ρ r hρ hm) Reader.evaluate_comparison
  have hready : ∀ ρ : HandleId → V, (∃ r : Reader c.workspace c.model, Matched S s ρ r ∧
      ∀ v ∈ [.node id (.comparison k) [t, u]], r.Meets origin S.Accepts v) →
        ReadyAt S c origin s [t, u] ρ := by
    rintro ρ ⟨r, hm, h⟩
    exact ⟨r, hm, ready_operands (by simp) (by simp) (h _ (List.mem_singleton_self _)).ready⟩
  have hrelates : ∀ ρ ρ₂ : HandleId → V, (∃ r : Reader c.workspace c.model, Matched S s ρ r ∧
      ∀ v ∈ [.node id (.comparison k) [t, u]], r.Meets origin S.Accepts v) →
        Agree s.nextHandle ρ ρ₂ → S.Admits ρ₂ s₂ → k.Relates (S.int ρ₂ x) (S.int ρ₂ y) := by
    rintro ρ ρ₂ ⟨r, hm, h⟩ ha hρ₂
    have hne := (h _ (List.mem_singleton_self _)).ne_zero
      (hvalue ρ₂ r hρ₂ (hm.congr hB hw ha)).means
    by_contra hnot
    exact hne (indicator_eq_zero.mpr hnot)
  split at hr
  · rename_i a b ha hb
    obtain rfl := Handle.eq_const ha
    obtain rfl := Handle.eq_const hb
    obtain ⟨g₃, w₃, b₃, e₃⟩ := postFolded_step hB w₂ hr
    have hfold : ∀ ρ, S.Admits ρ s₂ → Numeral.holds k a b =
        decide (k.Relates (S.int ρ (.const a)) (S.int ρ (.const b))) :=
      fun ρ hρ => hB.holds_eq k (ux.integral ρ hρ) (uy.integral ρ hρ)
    refine ⟨G₂, g₂.trans g₃, w₃, fun ρ r hρ hm v hv => ?_, ?_⟩
    · obtain rfl := List.mem_singleton.mp hv
      have hρ₂ := g₃.admits ρ hρ
      refine ⟨_, hvalue ρ r hρ₂ hm, ?_⟩
      simpa [hfold ρ hρ₂] using b₃ ρ hρ
    · refine e₂.trans g₂ g₃ e₃ (fun ρ _ => hready ρ) fun ρ ρ₂ _ h ha hρ₂ => ?_
      simpa [hfold ρ₂ hρ₂] using hrelates ρ ρ₂ h ha hρ₂
  · rename_i hnumbers
    have hterm : x.number? = none ∨ y.number? = none := by
      by_contra! h
      obtain ⟨⟨a, ha⟩, b, hb⟩ := h.imp Option.ne_none_iff_exists'.mp Option.ne_none_iff_exists'.mp
      exact hnumbers a b ha hb
    obtain ⟨G₃, g₃, b₃, e₃⟩ := hB.postComparison k x y hterm w₂.valid
      (by simpa using ⟨ux.toHeld, uy.toHeld⟩) hr
    refine ⟨G₃, g₂.trans g₃.toGrows, w₂.step g₃, fun ρ r hρ hm v hv => ?_, ?_⟩
    · obtain rfl := List.mem_singleton.mp hv
      refine ⟨_, hvalue ρ r (g₃.admits ρ hρ) hm, ?_⟩
      simpa using b₃ ρ hρ
    · exact e₂.trans g₂ g₃.toGrows e₃ (fun ρ _ => hready ρ) fun ρ ρ₂ _ h ha hρ₂ =>
        hrelates ρ ρ₂ h ha hρ₂

omit [Numeral ν] in
/-- A constraint that is posted as a conjunction of others. -/
theorem Asserts.conjunction {id : NodeId} {ts : List (Term Exact)} {m : LowerM Exact ν σ Unit}
    (ht : (Term.node id .conjunction ts).WellBuilt origin) (h : Asserts S c origin ts m) :
    Asserts S c origin [.node id .conjunction ts] m := by
  intro G s s' hw hr
  obtain ⟨G', g, w, b, e⟩ := h hw hr
  refine ⟨G', g, w, fun ρ r hρ hm u hu => ?_, e.mono ?_⟩
  · obtain rfl := List.mem_singleton.mp hu
    have hall := b ρ r hρ hm
    obtain ⟨ns, hns⟩ := exists_forall₂ (b ρ r hρ hm)
    have hne : ∀ n ∈ ns, n ≠ 0 := by
      intro n hn
      obtain ⟨k, hk⟩ := List.getElem?_of_mem hn
      obtain ⟨t, -, -, hnt⟩ := forall₂_getElem?_right hns hk
      exact hnt
    refine ⟨_, node_holds ht (by simp) (hns.imp fun _ _ h => h.1) Reader.evaluate_conjunction, ?_⟩
    rw [Ne, indicator_eq_zero, not_not]
    exact hne
  · rintro ρ - ⟨r, hm, hmeets⟩
    exact ⟨r, hm, fun t hmem => (hmeets _ (List.mem_singleton_self _)).conjunct ht hmem⟩

omit [Numeral ν] in
theorem Asserts.wrapped {id : NodeId} {t : Term Exact} {m : LowerM Exact ν σ Unit}
    (hw : (Term.node id .wrapper [t]).WellBuilt origin) (ht : t.isNode = true)
    (h : Asserts S c origin [t] m) : Asserts S c origin [.node id .wrapper [t]] m := by
  intro G s s' hwk hr
  obtain ⟨G', g, w, b, e⟩ := h hwk hr
  refine ⟨G', g, w, fun ρ r hρ hm u hu => ?_, e.mono ?_⟩
  · obtain rfl := List.mem_singleton.mp hu
    obtain ⟨n, hn, hne⟩ := b ρ r hρ hm t (by simp)
    exact ⟨n, node_holds hw (by simp) (.cons hn .nil) Reader.evaluate_wrapper, hne⟩
  · rintro ρ - ⟨r, hm, hmeets⟩
    refine ⟨r, hm, fun u hu => ?_⟩
    obtain rfl := List.mem_singleton.mp hu
    exact (hmeets _ (List.mem_singleton_self _)).wrapped hw ht

theorem postAll_asserts (hB : Faithful B S c) {ts : List (Term Exact)}
    (h : ∀ t ∈ ts, Asserts S c origin [t] (post B c t)) :
    Asserts S c origin ts (postAll B c ts) := by
  induction ts with
  | nil =>
    rw [postAll]
    exact (requires_pure ()).mono (by simp) (by simp)
  | cons t ts ih =>
    rw [postAll]
    have hstep := (h t (by simp)).append hB (ih fun t ht => h t (by simp [ht]))
    exact hstep.mono (by simp) (by simp)

/-- A constraint that is neither taken apart nor a comparison is posted through its handle. -/
theorem post_eq_postHandle {t : Term Exact} (ht : t.WellBuilt origin)
    (hsplit : t.isSplit = false) (hcomparison : ∀ k, t.operator? ≠ some (.comparison k)) :
    post B c t = postHandle B c t := by
  cases t with
  | node id op ts =>
    have hshape := ht.shape (.refl _)
    cases op with
    | wrapper =>
      obtain ⟨inner, rfl⟩ := hshape
      rw [post, if_neg (by simpa [Term.isSplit] using hsplit)]
    | conjunction => cases hsplit
    | comparison k => exact absurd rfl (hcomparison k)
    | _ =>
      unfold post
      rfl
  | _ => rfl

/-- Posting a well-built constraint requires it to be true. -/
theorem post_asserts (hB : Faithful B S c) (hc : IntegralCollections c) {t : Term Exact}
    (ht : t.WellBuilt origin) (hint : S.limited → t.Integral) :
    Asserts S c origin [t] (post B c t) := by
  induction t using Term.induction with
  | const x => exact postHandle_asserts hB hc ht hint rfl (by simp [Term.operator?])
  | var v => exact postHandle_asserts hB hc ht hint rfl (by simp [Term.operator?])
  | selected id f i => exact postHandle_asserts hB hc ht hint rfl (by simp [Term.operator?])
  | node id op ts ih =>
    have hshape := ht.shape (.refl _)
    have hself : (Term.node id op ts).isSplit = false →
        (∀ k, (Term.node id op ts).operator? ≠ some (.comparison k)) →
          Asserts S c origin [.node id op ts] (post B c (.node id op ts)) := by
      intro hsplit hcomparison
      rw [post_eq_postHandle ht hsplit hcomparison]
      exact postHandle_asserts hB hc ht hint hsplit hcomparison
    cases op with
    | wrapper =>
      obtain ⟨inner, rfl⟩ := hshape
      by_cases hnode : inner.isNode = true
      · rw [post, if_pos hnode]
        exact (ih inner (by simp) (ht.operand (by simp))
          fun hl => (hint hl).within (.of_mem (by simp))).wrapped ht hnode
      · exact hself (by simpa [Term.isSplit] using hnode) (by simp [Term.operator?])
    | conjunction =>
      rw [post]
      refine (postAll_asserts hB fun t hm => ?_).conjunction ht
      exact ih t hm (ht.operand hm) fun hl => (hint hl).within (.of_mem hm)
    | comparison k =>
      rw [post]
      exact postComparisonOf_asserts hB hc ht hint
    | _ => exact hself rfl (by simp [Term.operator?])

end DecisionModel
