import DecisionModel.Proofs.Lowering.Alike
import DecisionModel.Proofs.Tolerant.Solvers
import DecisionModel.Proofs.Tolerant.Truths

/-!
# Marks can be trusted

Tolerant lowering notes which handles are zero or one, by their identities, and later takes the note for
granted: a marked handle is its own truth value, and it gates other handles. Here a note is a claim about
the points at which the solver may be. A point *fits* if every variable has a value within its bounds, an
integral one unless the variable is continuous, and every range holds.

`Trusted` is the invariant: at every point that is still possible, marked handles and truth values are
zero or one. To say that products are gated by such handles only, the lowering is compared with one that
refuses all other products (`Primitives.checked`).
-/

namespace DecisionModel.Tolerant

open LowerM

variable {σ β : Type}

/-! ### Points that fit -/

/-- The value is within the bounds, and integral unless the variable is continuous. A binary variable is
an integer to a solver without such variables. -/
structure Created.Fits (ρ : HandleId → ℚ) (c : Created Exact) : Prop where
  integral : c.kind ≠ .continuous → ∃ n : ℤ, value ρ c.handle = .finite n
  lower_le : c.lower.le (value ρ c.handle) = true
  le_upper : (value ρ c.handle).le c.upper = true

/-- The point fits all variables and all ranges. -/
structure Encoding.Fits (ρ : HandleId → ℚ) (e : Encoding Exact σ) : Prop where
  created {c : Created Exact} : c ∈ e.created.toList → c.Fits ρ
  posted {r : Range Exact} : r ∈ e.posted.toList → r.Holds ρ

theorem Created.Holds.fits {ρ : HandleId → ℚ} {c : Created Exact} (h : c.Holds ρ) : c.Fits ρ where
  integral hkind := by
    obtain ⟨kind, -, -⟩ := h
    rcases hk : c.kind with _ | _ | _ <;> rw [hk] at kind hkind
    · exact absurd rfl hkind
    · exact kind
    · rcases kind with h0 | h1
      · exact ⟨0, by rw [h0, Int.cast_zero]⟩
      · exact ⟨1, by rw [h1, Int.cast_one]⟩
  lower_le := h.lower_le
  le_upper := h.le_upper

/-- The points that satisfy the kinds of the variables fit. -/
theorem Encoding.Satisfied.fits {ρ : HandleId → ℚ} {e : Encoding Exact σ} (h : e.Satisfied ρ) :
    e.Fits ρ := ⟨fun hc => (h.created hc).fits, fun hr => h.posted hr⟩

/-- Bounds between zero and one. -/
def WithinUnit (lower upper : Exact) : Prop :=
  (Exact.finite 0).le lower = true ∧ upper.le (.finite 1) = true

instance (lower upper : Exact) : Decidable (WithinUnit lower upper) :=
  inferInstanceAs (Decidable (_ ∧ _))

/-- Between zero and one there are no other integers. -/
theorem Created.Fits.isBinary {ρ : HandleId → ℚ} {c : Created Exact} (h : c.Fits ρ)
    (hkind : c.kind ≠ .continuous) (hunit : WithinUnit c.lower c.upper) :
    IsBinary (value ρ c.handle) := by
  obtain ⟨n, hn⟩ := h.integral hkind
  have hlower := h.lower_le
  have hupper := h.le_upper
  obtain ⟨h0, h1⟩ := hunit
  rw [hn] at hlower hupper ⊢
  have hn0 : (0 : ℚ) ≤ n := by simpa using Exact.le_trans h0 hlower
  have hn1 : (n : ℚ) ≤ 1 := by simpa using Exact.le_trans hupper h1
  have hcases : n = 0 ∨ n = 1 := by
    have : (0 : ℤ) ≤ n := by exact_mod_cast hn0
    have : n ≤ (1 : ℤ) := by exact_mod_cast hn1
    omega
  rcases hcases with rfl | rfl
  · exact .inl (by rw [Int.cast_zero])
  · exact .inr (by rw [Int.cast_one])

/-! ### The invariant -/

/-- A handle in circulation that is zero or one wherever the solver may be. -/
structure IsTruth (w : Stage (Number Exact) ℚ) (b : Expr) : Prop where
  has : w.Has b
  binary {ρ : HandleId → ℚ} : ρ ∈ w.points → IsBinary (value ρ b)

/-- What the lowering notes is right. -/
structure Trusted (w : Stage (Number Exact) ℚ) (n : ℕ) (e : Encoding Exact σ) : Prop where
  world : World w.handles n
  points {ρ : HandleId → ℚ} : e.Fits ρ → ρ ∈ w.points
  created {c : Created Exact} : c ∈ e.created.toList → w.Has c.handle
  posted {r : Range Exact} : r ∈ e.posted.toList → w.Has r.expression
  objective {h : Expr} : e.objective = some h → w.Has h
  binaries {id : HandleId} : id ∈ e.binaries → ∃ h, IsTruth w h ∧ h.id? = some id
  booleans {p : HandleId × Expr} : p ∈ e.booleans →
    IsTruth w p.2 ∧ ∃ h, w.Has h ∧ h.id? = some p.1

section

variable {w w' : Stage (Number Exact) ℚ} {n m : ℕ} {e e' : Encoding Exact σ} {b h : Expr}

theorem IsTruth.mono (hb : IsTruth w b) (hw : w ≤ w') : IsTruth w' b :=
  ⟨hb.has.mono hw, fun hρ => hb.binary (hw.2 hρ)⟩

theorem persists_isTruth : Persists IsTruth := fun _ _ _ hw hb => hb.mono hw

/-- Notes stay right when more handles circulate and fewer points fit; new ones have to be right. -/
theorem Trusted.change (ht : Trusted w n e) (hw : w ≤ w') (hworld : World w'.handles m)
    (hpoints : ∀ ρ, e'.Fits ρ → ρ ∈ w'.points)
    (hcreated : ∀ c ∈ e'.created.toList, c ∈ e.created.toList ∨ w'.Has c.handle)
    (hposted : ∀ r ∈ e'.posted.toList, r ∈ e.posted.toList ∨ w'.Has r.expression)
    (hobjective : ∀ h, e'.objective = some h → e.objective = some h ∨ w'.Has h)
    (hbinaries : ∀ id ∈ e'.binaries, id ∈ e.binaries ∨ ∃ h, IsTruth w' h ∧ h.id? = some id)
    (hbooleans : ∀ p ∈ e'.booleans, p ∈ e.booleans ∨
      IsTruth w' p.2 ∧ ∃ h, w'.Has h ∧ h.id? = some p.1) : Trusted w' m e' where
  world := hworld
  points := hpoints _
  created hc := (hcreated _ hc).elim (fun hc => (ht.created hc).mono hw) id
  posted hr := (hposted _ hr).elim (fun hr => (ht.posted hr).mono hw) id
  objective hh := (hobjective _ hh).elim (fun hh => (ht.objective hh).mono hw) id
  binaries hid := by
    rcases hbinaries _ hid with hid | hid
    · obtain ⟨h, hh, heq⟩ := ht.binaries hid
      exact ⟨h, hh.mono hw, heq⟩
    · exact hid
  booleans hp := by
    rcases hbooleans _ hp with hp | hp
    · obtain ⟨hb, h, hh, heq⟩ := ht.booleans hp
      exact ⟨hb.mono hw, h, hh.mono hw, heq⟩
    · exact hp

/-- Notes are taken while variables and ranges stay as they are. -/
theorem Trusted.note (ht : Trusted w n e) (hcreated : e'.created = e.created)
    (hposted : e'.posted = e.posted)
    (hobjective : ∀ h, e'.objective = some h → e.objective = some h ∨ w.Has h)
    (hbinaries : ∀ id ∈ e'.binaries, id ∈ e.binaries ∨ ∃ h, IsTruth w h ∧ h.id? = some id)
    (hbooleans : ∀ p ∈ e'.booleans, p ∈ e.booleans ∨
      IsTruth w p.2 ∧ ∃ h, w.Has h ∧ h.id? = some p.1) : Trusted w n e' := by
  refine ht.change le_rfl ht.world (fun ρ hρ => ht.points ⟨fun hc => ?_, fun hr => ?_⟩)
    (fun c hc => .inl ?_) (fun r hr => .inl ?_) hobjective hbinaries hbooleans
  · exact hρ.created (hcreated ▸ hc)
  · exact hρ.posted (hposted ▸ hr)
  · exact hcreated ▸ hc
  · exact hposted ▸ hr

/-- The same notes. -/
theorem Trusted.same (ht : Trusted w n e) (hw : w ≤ w') (hworld : World w'.handles m)
    (hpoints : w'.points = w.points) : Trusted w' m e :=
  ht.change hw hworld (fun _ hρ => hpoints ▸ ht.points hρ) (fun _ hc => .inl hc) (fun _ hr => .inl hr)
    (fun _ hh => .inl hh) (fun _ hid => .inl hid) fun _ hp => .inl hp

instance : OpenCirculation (Trusted (σ := σ)) where
  next ht hnm := ht.same le_rfl (ht.world.mono hnm) rfl
  node {w n e args} f ht hargs := by
    let w' := w.insert (.node ⟨n⟩ f args)
    exact ⟨w', w.le_insert _, w.has_insert _, ht.same (w.le_insert _) (ht.world.insert_node f hargs) rfl⟩

/-- A marked handle in circulation is a truth value. -/
theorem Trusted.isTruth (ht : Trusted w n e) (hh : w.Has h) {id : HandleId} (hid : h.id? = some id)
    (hm : id ∈ e.binaries) : IsTruth w h := by
  obtain ⟨k, hk, heq⟩ := ht.binaries hm
  rwa [ht.world.unique hh hk.has hid heq]

/-! ### Checked products -/

/-- At all points that fit, the first factor is zero or one, so that the product and a choice by the
first factor have one value, if the second factor has one. -/
def Gates (e : Encoding Exact σ) (b h : Expr) : Prop :=
  ∀ ρ, e.Fits ρ → IsBinary (value ρ b) ∧ ∀ q : ℚ, value ρ h = .finite q →
    apply .mul [value ρ b, value ρ h] =
      apply (.choose .eq) [value ρ b, value ρ (integer 1), value ρ h, value ρ (integer 0)]

open Classical in
/-- The primitives with products that are refused unless the first factor is zero or one. -/
noncomputable def Primitives.checked (P : Primitives Exact σ) : Primitives Exact σ where
  __ := P
  gate b h := do
    let e ← getEncoding
    if Gates e b h then P.gate b h else .fail (.unsupported "gate")

open Classical in
theorem run_checked_gate {P : Primitives Exact σ} {s : TolerantState σ} (hg : Gates s.solver b h) :
    (P.checked.gate b h).run.run s = (P.gate b h).run.run s := by
  have hlook : (P.checked.gate b h).run.run s = (if Gates s.solver b h then P.gate b h
    else fail (.unsupported "gate") : TolerantM Exact σ Expr).run.run s := rfl
  rw [hlook, if_pos hg]

theorem Trusted.gates (ht : Trusted w n e) (hb : IsTruth w b) (h : Expr) : Gates e b h := by
  intro ρ hρ
  have hbinary := hb.binary (ht.points hρ)
  refine ⟨hbinary, fun q hq => ?_⟩
  rcases hbinary with h0 | h1
  · simp [apply, h0, hq, integer, Comparison.holdsExactly]
  · simp [apply, h1, hq, integer, Comparison.holdsExactly]

/-! ### Steps -/

theorem alike_withEncoding {f f' : Encoding Exact σ → TolerantM Exact σ β}
    {Q : Stage (Number Exact) ℚ → β → Prop}
    (hf : ∀ n e, Trusted w n e → Alike Trusted w (f e) (f' e) Q) :
    Alike Trusted w (getEncoding >>= f) (getEncoding >>= f') Q :=
  fun s hs => hf s.nextHandle s.solver hs.own s hs

theorem alike_modifyEncoding {f : Encoding Exact σ → Encoding Exact σ}
    {Q : Stage (Number Exact) ℚ → Unit → Prop}
    (h : ∀ n e, Trusted w n e → ∃ w', w ≤ w' ∧ Trusted w' n (f e) ∧ Q w' ()) :
    Alike (α := Exact) Trusted w (modifyEncoding f) (modifyEncoding f) Q :=
  alike_modify fun s hs => by
    obtain ⟨w', hw, ht, hq⟩ := h s.nextHandle s.solver hs.own
    exact ⟨w', hw, hs.mono hw rfl rfl ht, hq⟩

/-- A new variable of the solver. -/
theorem alike_leaf (name : String) (integral : Bool) :
    Alike Trusted w (leaf name integral : TolerantM Exact σ Expr) (leaf name integral) Stage.Has := by
  intro s hs
  let l : Expr := .leaf ⟨s.nextHandle⟩ name integral
  exact ⟨rfl, w.insert l, w.le_insert l, hs.mono (w.le_insert l) rfl rfl
    (hs.own.same (w.le_insert l) (hs.own.world.insert_leaf name integral) rfl),
    fun _ hy => by cases hy; exact w.has_insert l⟩

/-- What the solver does to its own part. -/
theorem alike_modifyOwn (f : σ → σ) :
    Alike (α := Exact) Trusted w (modifyOwn f) (modifyOwn f) Stage.Admits :=
  alike_modifyEncoding fun _ _ ht => ⟨w, le_rfl, ht.note rfl rfl (fun _ => .inl) (fun _ => .inl)
    fun _ => .inl, trivial⟩

theorem alike_epsilon : Alike Trusted w (epsilon : TolerantM Exact σ _) epsilon Stage.Admits :=
  alike_withEncoding fun _ _ _ => alike_pure trivial

theorem alike_threshold : Alike Trusted w (threshold : TolerantM Exact σ _) threshold Stage.Admits :=
  alike_bind alike_epsilon fun _ _ _ _ => alike_pure trivial

theorem alike_negatedThreshold :
    Alike Trusted w (negatedThreshold : TolerantM Exact σ _) negatedThreshold Stage.Admits :=
  alike_bind alike_epsilon fun _ _ _ _ => alike_pure trivial

theorem alike_auxiliaryName (hint : String) :
    Alike Trusted w (auxiliaryName hint : TolerantM Exact σ String) (auxiliaryName hint)
      Stage.Admits := alike_of_untouched (keeps_auxiliaryName hint)

end

/-! ### Primitives -/

/-- Whatever a primitive does, it leaves the notes right, and the term it makes is in circulation. -/
structure Primitives.Closed (P : Primitives Exact σ) : Prop where
  documented : Documented P
  newVariable {w} (kind : Kind) (lower upper : Exact) (name : String) :
    Alike Trusted w (P.newVariable kind lower upper name) (P.newVariable kind lower upper name)
      Stage.Has
  addRange {w h} (lower upper : Number Exact) (name : String) : w.Has h →
    Alike Trusted w (P.addRange h lower upper name) (P.addRange h lower upper name) Stage.Admits
  absolute {w h} : w.Has h → Alike Trusted w (P.absolute h) (P.absolute h) Stage.Has
  power {w h} (x : Exact) : w.Has h → Alike Trusted w (P.power h x) (P.power h x) Stage.Has
  gate {w b h} : w.Has b → w.Has h → Alike Trusted w (P.gate b h) (P.gate b h) Stage.Has
  quotient {w x y} : w.Has x → w.Has y → Alike Trusted w (P.quotient x y) (P.quotient x y) Stage.Has
  total {w hs} : w.HasAll hs → Alike Trusted w (P.total hs) (P.total hs) Stage.Has
  tolerance {w} : Alike Trusted w P.tolerance P.tolerance Stage.Admits
  setObjective {w h} (sense : Sense) : w.Has h →
    Alike Trusted w (P.setObjective h sense) (P.setObjective h sense) Stage.Admits

variable {P : Primitives Exact σ} {w : Stage (Number Exact) ℚ} {b h k x y : Expr}

/-- A new variable: it is a leaf, and it is marked if it is binary. -/
theorem alike_createVariable (hP : P.Closed) {kind : Kind} {lower upper : Exact} (name : String)
    (hunit : kind = .binary → WithinUnit lower upper) :
    Alike Trusted w (createVariable P kind lower upper name)
      (createVariable P.checked kind lower upper name) fun w h => w.Has h ∧ h.isLeaf = true ∧
        ∀ ρ ∈ w.points, Created.Fits ρ ⟨h, kind, lower, upper, name⟩ := by
  have hleaf := (hP.newVariable kind lower upper name (w := w)).and_runs
    (F := fun h => h.isLeaf = true) fun s h s' hs hr => by
      obtain ⟨-, -, -, id, integral, rfl, -⟩ := hP.documented.newVariable hs.own.world hr
      rfl
  refine alike_bind hleaf fun w₁ _ h ⟨hh, hl⟩ => ?_
  -- From here on the solver is only at points that the new variable fits.
  let c : Created Exact := ⟨h, kind, lower, upper, name⟩
  have hw₂ := Stage.le_restrict w₁ fun ρ => c.Fits ρ
  refine alike_bind (Q := fun w _ => ∀ ρ ∈ w.points, c.Fits ρ) (alike_modifyEncoding fun n e ht =>
    ⟨_, hw₂, ht.change hw₂ ht.world (fun ρ hρ => ⟨ht.points ⟨?_, hρ.posted⟩, ?_⟩)
      (fun c' hc => ?_) (fun _ hr => .inl hr) (fun _ hh => .inl hh) (fun id hid => ?_)
      fun _ hp => .inl hp, fun ρ hρ => hρ.2⟩) fun w₃ hw₃ _ hfits => alike_pure ⟨hh.mono hw₃, hl, hfits⟩
  · exact fun {c'} hc => hρ.created (by simp only [Array.toList_push, List.mem_append, hc, true_or])
  · exact hρ.created (by simp [c])
  · simp only [Array.toList_push, List.mem_append, List.mem_singleton] at hc
    exact hc.imp_right fun hc => by rw [hc]; exact hh.mono hw₂
  · by_cases hk : kind = .binary
    · simp only [if_pos hk, List.mem_append, Option.mem_toList] at hid
      refine hid.symm.imp_right fun hid => ⟨h, ⟨hh, fun hρ => ?_⟩, hid⟩
      exact hρ.2.isBinary (by simp [c, hk]) (hunit hk)
    · exact .inl (by simpa only [if_neg hk] using hid)

/-- A new variable that is zero or one. -/
theorem alike_newBinary (hP : P.Closed) (hint : String) :
    Alike Trusted w (newBinary P hint) (newBinary P.checked hint) fun w b =>
      IsTruth w b ∧ b.isLeaf = true := by
  refine alike_bind (alike_auxiliaryName hint) fun w₁ _ name _ => ?_
  have hunit : WithinUnit (Scalar.zero : Exact) Scalar.one := by simp [WithinUnit]
  refine (alike_createVariable hP name fun _ => hunit).mono fun w₂ _ b ⟨hb, hl, hfits⟩ => ?_
  exact ⟨⟨hb, fun hρ => (hfits _ hρ).isBinary (by simp) hunit⟩, hl⟩

theorem alike_newInteger (hP : P.Closed) (lower upper : ℤ) (hint : String) :
    Alike Trusted w (newInteger P lower upper hint) (newInteger P.checked lower upper hint)
      Stage.Has := by
  refine alike_bind (alike_lift _) fun _ _ _ _ => alike_bind (alike_lift _) fun _ _ _ _ => ?_
  refine alike_bind (alike_auxiliaryName hint) fun _ _ name _ => ?_
  have hinteger : Kind.integer ≠ .binary := by decide
  exact (alike_createVariable hP name fun h => absurd h hinteger).mono fun _ _ _ hh => hh.1

/-- A handle that is known to be zero or one may be marked. -/
theorem alike_markBinary (hb : IsTruth w b) :
    Alike Trusted w (markBinary b : TolerantM Exact σ Expr) (markBinary b) IsTruth := by
  refine alike_bind (Q := Stage.Admits) (alike_modifyEncoding fun n e ht => ⟨w, le_rfl, ?_, trivial⟩)
    fun _ hw _ _ => alike_pure (hb.mono hw)
  refine ht.note rfl rfl (fun _ => .inl) (fun id hid => ?_) fun _ => .inl
  simp only [List.mem_append, Option.mem_toList] at hid
  exact hid.symm.imp_right fun hid => ⟨b, hb, hid⟩

/-- A term is between the bounds wherever the solver may be afterwards. -/
theorem alike_constrain_between (hP : P.Closed) (hh : w.Has h) (lower upper : Number Exact) :
    Alike Trusted w (constrain P h lower upper) (constrain P.checked h lower upper) fun w _ =>
      h.number? = none → ∀ ρ ∈ w.points, Between lower.exact upper.exact (value ρ h) := by
  unfold constrain
  cases hn : h.number? with
  | some x =>
    refine alike_bind alike_epsilon fun w₁ _ ε _ => ?_
    refine (alike_ite (alike_of_untouched (keeps_recordViolated _)) ?_).mono (Q := Stage.Admits) ?_
    · exact alike_pure trivial
    · exact fun _ _ _ _ => nofun
  | none =>
    refine alike_bind (alike_auxiliaryName "c") fun w₁ hw₁ name _ => ?_
    let r : Range Exact := ⟨h, lower, upper, name⟩
    have hw₂ := Stage.le_restrict w₁ fun ρ => r.Holds ρ
    refine alike_bind (Q := fun w _ => ∀ ρ ∈ w.points, r.Holds ρ) (alike_modifyEncoding fun n e ht =>
      ⟨_, hw₂, ht.change hw₂ ht.world (fun ρ hρ => ⟨ht.points ⟨hρ.created, ?_⟩, ?_⟩)
        (fun _ hc => .inl hc) (fun r' hr => ?_) (fun _ hh => .inl hh) (fun _ hid => .inl hid)
        fun _ hp => .inl hp, fun ρ hρ => hρ.2⟩) fun w₃ hw₃ _ hholds => ?_
    · exact fun {r'} hr => hρ.posted (by simp only [Array.toList_push, List.mem_append, hr, true_or])
    · exact hρ.posted (by simp [r])
    · simp only [Array.toList_push, List.mem_append, List.mem_singleton] at hr
      exact hr.imp_right fun hr => by rw [hr]; exact (hh.mono hw₁).mono hw₂
    · exact (hP.addRange _ _ _ ((hh.mono hw₁).mono hw₃)).mono fun w₄ hw₄ _ _ _ ρ hρ =>
        hholds ρ (hw₄.2 hρ)

theorem alike_constrain (hP : P.Closed) (hh : w.Has h) (lower upper : Number Exact) :
    Alike Trusted w (constrain P h lower upper) (constrain P.checked h lower upper) Stage.Admits :=
  (alike_constrain_between hP hh lower upper).mono fun _ _ _ _ => trivial

end DecisionModel.Tolerant
