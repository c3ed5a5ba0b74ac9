import Mathlib.Data.Rat.Floor
import DecisionModel.Proofs.Lowering.Run

/-!
# What lowering means

A point gives a value to every solver variable. A `Semantics` says, for one back-end, what integer
a handle stands for at a point, which points satisfy what the solver has been told, and what the
back-end's own tables promise. The theory of the walk is proved from these alone.

Lowering only adds: variables, constraints, entries of tables. `Grows` is what a run of lowering
does to the handles in circulation and to the state. Two things are asked of an encoding. Read
backward, a point that is admitted after a run is admitted before it, and the handle returned has
the value it should have. Read forward (`Extends`), a point that is admitted before the run can be
changed on the variables made in the run so that it is admitted afterwards; `Computes` asks both of
a run that returns a handle, and `Posts` of one that returns none.

The handles in circulation are a set, the `World`: every handle in it was made before the counter
of identities reached its present value, and an identity belongs to one handle only. This is what
makes tables by identity meaningful.
-/

namespace DecisionModel

variable {α ν σ V : Type}

/-- The two points give the same values to the variables made before the counter reached `n`. -/
def Agree (n : Nat) (ρ ρ' : HandleId → V) : Prop := ∀ id : HandleId, id.index < n → ρ id = ρ' id

namespace Agree

variable {m n : Nat} {ρ₁ ρ₂ ρ₃ : HandleId → V}

theorem refl (n : Nat) (ρ : HandleId → V) : Agree n ρ ρ := fun _ _ => rfl

theorem symm (h : Agree n ρ₁ ρ₂) : Agree n ρ₂ ρ₁ := fun id hid => (h id hid).symm

theorem mono (hmn : m ≤ n) (h : Agree n ρ₁ ρ₂) : Agree m ρ₁ ρ₂ :=
  fun id hid => h id (Nat.lt_of_lt_of_le hid hmn)

theorem trans (hmn : m ≤ n) (h : Agree m ρ₁ ρ₂) (h' : Agree n ρ₂ ρ₃) : Agree m ρ₁ ρ₃ :=
  fun id hid => (h id hid).trans (h'.mono hmn id hid)

/-- A point changed at one identity agrees with the old one below it. -/
theorem update (ρ : HandleId → V) (hle : n ≤ m) (x : V) :
    Agree n ρ (Function.update ρ ⟨m⟩ x) := by
  intro id hid
  rw [Function.update_of_ne]
  rintro rfl
  exact absurd hid (Nat.not_lt.mpr hle)

end Agree

instance : LawfulBEq HandleId where
  eq_of_beq {a b} h := by
    cases a
    cases b
    simpa [BEq.beq, instBEqHandleId.beq] using h
  rfl {a} := by
    cases a
    simp [BEq.beq, instBEqHandleId.beq]

/-- Induction over handles, with the arguments of a node taken together. -/
theorem Handle.induction {P : Handle ν → Prop} (const : ∀ x, P (.const x))
    (leaf : ∀ id name integral, P (.leaf id name integral))
    (node : ∀ id f args, (∀ h ∈ args, P h) → P (.node id f args)) (h : Handle ν) : P h :=
  @Handle.rec ν P (fun hs => ∀ h ∈ hs, P h) const leaf node (fun _ h => nomatch h)
    (fun _ _ hh hhs _ h => by
      rcases List.mem_cons.mp h with rfl | h
      · exact hh
      · exact hhs _ h) h

theorem Handle.eq_const {h : Handle ν} {x : ν} (hx : h.number? = some x) : h = .const x := by
  cases h <;> simp_all [Handle.number?]

/-- All of the handles are numbers. -/
theorem Handle.eq_numbers {hs : List (Handle ν)} {xs : List ν}
    (h : hs.mapM Handle.number? = some xs) : hs = xs.map .const := by
  induction hs generalizing xs with
  | nil => simpa using h.symm
  | cons y ys ih =>
    simp only [List.mapM_cons, Option.bind_eq_bind, Option.bind_eq_some_iff, Option.pure_def,
      Option.some.injEq] at h
    obtain ⟨x, hx, xs, hxs, rfl⟩ := h
    rw [Handle.eq_const hx, ih hxs, List.map_cons]

/-- What is no number has an identity. -/
theorem Handle.id?_ne_none {h : Handle ν} (hn : h.number? = none) : h.id? ≠ none := by
  cases h <;> simp_all [Handle.number?, Handle.id?]

/-- The handles in circulation when the counter of identities stands at `n`. -/
structure World (G : Set (Handle ν)) (n : Nat) : Prop where
  const_mem (x : ν) : .const x ∈ G
  args_mem {id : HandleId} {f : SolverFunction} {args : List (Handle ν)} :
    .node id f args ∈ G → ∀ h ∈ args, h ∈ G
  fresh {h : Handle ν} {id : HandleId} : h ∈ G → h.id? = some id → id.index < n
  unique {h h' : Handle ν} {id : HandleId} :
    h ∈ G → h' ∈ G → h.id? = some id → h'.id? = some id → h = h'

namespace World

variable {G : Set (Handle ν)} {n : Nat}

/-- The numbers alone. -/
def numbers : Set (Handle ν) := {h | h.isNumber = true}

theorem of_numbers (n : Nat) : World (numbers : Set (Handle ν)) n where
  const_mem _ := rfl
  args_mem h := by simp [numbers, Handle.isNumber] at h
  fresh {h _} hm hid := by cases h <;> simp_all [numbers, Handle.isNumber, Handle.id?]
  unique {h _ _} hm _ hid := by cases h <;> simp_all [numbers, Handle.isNumber, Handle.id?]

theorem mono {m : Nat} (w : World G n) (hnm : n ≤ m) : World G m where
  const_mem := w.const_mem
  args_mem := w.args_mem
  fresh hm hid := Nat.lt_of_lt_of_le (w.fresh hm hid) hnm
  unique := w.unique

/-- A handle with a new identity, over handles that are in circulation, may enter it. -/
theorem insert (w : World G n) {h : Handle ν} {m : Nat} (hid : h.id? = some ⟨n⟩) (hnm : n < m)
    (hargs : ∀ id f args, h = .node id f args → ∀ a ∈ args, a ∈ G) : World (insert h G) m where
  const_mem x := .inr (w.const_mem x)
  args_mem {id f args} hm a ha := by
    rcases hm with hm | hm
    · exact .inr (hargs id f args hm.symm a ha)
    · exact .inr (w.args_mem hm a ha)
  fresh {h' id'} hm hid' := by
    rcases hm with rfl | hm
    · rw [hid] at hid'
      cases hid'
      exact hnm
    · exact Nat.lt_trans (w.fresh hm hid') hnm
  unique {h₁ h₂ id'} h₁m h₂m hid₁ hid₂ := by
    rcases h₁m with rfl | h₁m <;> rcases h₂m with rfl | h₂m
    · rfl
    · rw [hid] at hid₁
      cases hid₁
      exact absurd (w.fresh h₂m hid₂) (Nat.lt_irrefl _)
    · rw [hid] at hid₂
      cases hid₂
      exact absurd (w.fresh h₁m hid₁) (Nat.lt_irrefl _)
    · exact w.unique h₁m h₂m hid₁ hid₂

theorem insert_leaf (w : World G n) (name : String) (integral : Bool) :
    World (Insert.insert (.leaf ⟨n⟩ name integral) G) (n + 1) :=
  w.insert rfl (Nat.lt_succ_self n) (by simp)

theorem insert_node (w : World G n) (f : SolverFunction) {args : List (Handle ν)}
    (hargs : ∀ a ∈ args, a ∈ G) : World (Insert.insert (.node ⟨n⟩ f args) G) (n + 1) := by
  refine w.insert rfl (Nat.lt_succ_self n) fun id f' args' he a ha => ?_
  cases he
  exact hargs a ha

end World

/-- What the handles and the state of one back-end mean. -/
structure Semantics (ν σ V : Type) where
  /-- The integer that a handle stands for at a point. -/
  int : (HandleId → V) → Handle ν → ℤ
  /-- The value of the handle is that integer. -/
  Integral : (HandleId → V) → Handle ν → Prop
  /-- The point satisfies every domain and every constraint that the solver was given. -/
  Satisfies : (HandleId → V) → σ → Prop
  /-- What the back-end remembers of the handles in circulation is right. -/
  Tables : Set (Handle ν) → LoweringState ν σ → Prop
  /-- The back-end has noted all it needs to know of the handle. -/
  Noted : σ → Handle ν → Prop
  /-- Nothing happened by which the back-end may lose solutions. -/
  Calm : σ → Prop
  /-- The values that a variable of the model may take. -/
  Allowed : Variable Exact → ℤ → Prop
  /-- What is known of the values that the handle of a variable takes. -/
  Fits : Variable Exact → ℤ → Prop
  /-- The values with which a handle can be required to be true. -/
  Accepts : ℤ → Prop
  /-- Constants that are not integral, quotients, means and variable exponents are excluded. -/
  limited : Prop

namespace Semantics

variable (S : Semantics ν σ V)

/-- The point satisfies what the solver was given, and no constraint folded to false. -/
def Admits (ρ : HandleId → V) (s : LoweringState ν σ) : Prop :=
  S.Satisfies ρ s.solver ∧ s.violated = []

/-- The handles in circulation and the tables about them are in order. -/
structure Valid (G : Set (Handle ν)) (s : LoweringState ν σ) : Prop where
  world : World G s.nextHandle
  tables : S.Tables G s

/-- The handle is in circulation, and its value is integral. -/
structure Held (G : Set (Handle ν)) (s : LoweringState ν σ) (h : Handle ν) : Prop where
  mem : h ∈ G
  integral : ∀ ρ, S.Admits ρ s → S.Integral ρ h

/-- The handle can be handed to any encoding: what the back-end needs to know of it is noted. -/
structure Usable (G : Set (Handle ν)) (s : LoweringState ν σ) (h : Handle ν) : Prop
    extends S.Held G s h where
  noted : S.Noted s.solver h

/-- The handle is the number `n`. -/
def IsNumber (h : Handle ν) (n : ℤ) : Prop :=
  (∃ x, h = .const x) ∧ ∀ ρ, S.Integral ρ h ∧ S.int ρ h = n

/-- What a run of lowering does to the handles in circulation and to the state. -/
structure Grows (G : Set (Handle ν)) (s : LoweringState ν σ) (G' : Set (Handle ν))
    (s' : LoweringState ν σ) : Prop where
  subset : G ⊆ G'
  valid : S.Valid G' s'
  next_le : s.nextHandle ≤ s'.nextHandle
  handles_eq : s'.handles = s.handles
  admits : ∀ ρ, S.Admits ρ s' → S.Admits ρ s
  calm : S.Calm s'.solver → S.Calm s.solver
  noted : ∀ h, S.Noted s.solver h → S.Noted s'.solver h

/-- What a run of one encoding does: it does not touch the memo either. -/
structure Step (G : Set (Handle ν)) (s : LoweringState ν σ) (G' : Set (Handle ν))
    (s' : LoweringState ν σ) : Prop extends S.Grows G s G' s' where
  memo_eq : s'.memo = s.memo

/-- A point with the property `D` that is admitted before the run can be changed on new variables so
that it is admitted after the run. -/
def Extends (s s' : LoweringState ν σ) (D : (HandleId → V) → Prop) : Prop :=
  ∀ ρ, S.Calm s'.solver → S.Admits ρ s → D ρ → ∃ ρ', Agree s.nextHandle ρ ρ' ∧ S.Admits ρ' s'

variable {S} {G G₁ G₂ : Set (Handle ν)} {s s₁ s₂ : LoweringState ν σ} {h : Handle ν}

theorem Held.mono (hu : S.Held G s h) (hg : S.Grows G s G₁ s₁) : S.Held G₁ s₁ h where
  mem := hg.subset hu.mem
  integral ρ hρ := hu.integral ρ (hg.admits ρ hρ)

theorem Usable.mono (hu : S.Usable G s h) (hg : S.Grows G s G₁ s₁) : S.Usable G₁ s₁ h where
  toHeld := hu.toHeld.mono hg
  noted := hg.noted h hu.noted

theorem Grows.refl (hv : S.Valid G s) : S.Grows G s G s where
  subset := subset_rfl
  valid := hv
  next_le := le_rfl
  handles_eq := rfl
  admits _ := id
  calm := id
  noted _ := id

theorem Grows.trans (h₁ : S.Grows G s G₁ s₁) (h₂ : S.Grows G₁ s₁ G₂ s₂) : S.Grows G s G₂ s₂ where
  subset := h₁.subset.trans h₂.subset
  valid := h₂.valid
  next_le := h₁.next_le.trans h₂.next_le
  handles_eq := h₂.handles_eq.trans h₁.handles_eq
  admits ρ hρ := h₁.admits ρ (h₂.admits ρ hρ)
  calm hc := h₁.calm (h₂.calm hc)
  noted h hn := h₂.noted h (h₁.noted h hn)

theorem Step.refl (hv : S.Valid G s) : S.Step G s G s := ⟨Grows.refl hv, rfl⟩

theorem Step.trans (h₁ : S.Step G s G₁ s₁) (h₂ : S.Step G₁ s₁ G₂ s₂) : S.Step G s G₂ s₂ :=
  ⟨h₁.toGrows.trans h₂.toGrows, h₂.memo_eq.trans h₁.memo_eq⟩

theorem Extends.refl {D : (HandleId → V) → Prop} : S.Extends s s D :=
  fun ρ _ hρ _ => ⟨ρ, Agree.refl _ ρ, hρ⟩

/-- Two extensions one after the other: the second starts from the point that the first gives. -/
theorem Extends.trans {D D₁ D₂ : (HandleId → V) → Prop} (hg : S.Grows G s G₁ s₁)
    (hg' : S.Grows G₁ s₁ G₂ s₂) (h₁ : S.Extends s s₁ D₁) (h₂ : S.Extends s₁ s₂ D₂)
    (hD₁ : ∀ ρ, S.Admits ρ s → D ρ → D₁ ρ)
    (hD₂ : ∀ ρ ρ₁, S.Admits ρ s → D ρ → Agree s.nextHandle ρ ρ₁ → S.Admits ρ₁ s₁ → D₂ ρ₁) :
    S.Extends s s₂ D := by
  intro ρ hc hρ hD
  obtain ⟨ρ₁, ha₁, hρ₁⟩ := h₁ ρ (hg'.calm hc) hρ (hD₁ ρ hρ hD)
  obtain ⟨ρ₂, ha₂, hρ₂⟩ := h₂ ρ₁ hc hρ₁ (hD₂ ρ ρ₁ hρ hD ha₁ hρ₁)
  exact ⟨ρ₂, ha₁.trans hg.next_le ha₂, hρ₂⟩

/-- The second extension asks nothing of the point. -/
theorem Extends.trans_always {D : (HandleId → V) → Prop} (hg : S.Grows G s G₁ s₁)
    (hg' : S.Grows G₁ s₁ G₂ s₂) (h₁ : S.Extends s s₁ D) (h₂ : S.Extends s₁ s₂ fun _ => True) :
    S.Extends s s₂ D :=
  h₁.trans hg hg' h₂ (fun _ _ h => h) fun _ _ _ _ _ _ => trivial

theorem Extends.mono {D D' : (HandleId → V) → Prop} (he : S.Extends s s₁ D)
    (hD : ∀ ρ, S.Admits ρ s → D' ρ → D ρ) : S.Extends s s₁ D' :=
  fun ρ hc hρ hD' => he ρ hc hρ (hD ρ hρ hD')

variable (S)

/-- Whatever handle `m` returns, its value is related by `R` to the point, and the points with the
property `D` extend. -/
def Computes (m : LowerM α ν σ (Handle ν)) (args : List (Handle ν))
    (R : (HandleId → V) → ℤ → Prop) (D : (HandleId → V) → Prop) : Prop :=
  ∀ ⦃G s h s'⦄, S.Valid G s → (∀ a ∈ args, S.Usable G s a) → m.Runs s h s' →
    ∃ G', S.Step G s G' s' ∧ S.Usable G' s' h ∧ (∀ ρ, S.Admits ρ s' → R ρ (S.int ρ h)) ∧
      S.Extends s s' D

/-- Whatever term `m` makes over its arguments, its value is related by `R` to the point. -/
def Derives (m : LowerM α ν σ (Handle ν)) (args : List (Handle ν))
    (R : (HandleId → V) → ℤ → Prop) : Prop :=
  ∀ ⦃G s h s'⦄, S.Valid G s → (∀ a ∈ args, S.Held G s a) → m.Runs s h s' →
    ∃ G', S.Step G s G' s' ∧ S.Held G' s' h ∧ (∀ ρ, S.Admits ρ s' → R ρ (S.int ρ h)) ∧
      S.Extends s s' fun _ => True

/-- What `m` posts amounts to `R`, and the points with the property `D` extend. -/
def Posts (m : LowerM α ν σ Unit) (args : List (Handle ν)) (R : (HandleId → V) → Prop)
    (D : (HandleId → V) → Prop) : Prop :=
  ∀ ⦃G s s'⦄, S.Valid G s → (∀ a ∈ args, S.Held G s a) → m.Runs s () s' →
    ∃ G', S.Step G s G' s' ∧ (∀ ρ, S.Admits ρ s' → R ρ) ∧ S.Extends s s' D

/-- `Posts` for what looks at what is noted of its arguments. -/
def Imposes (m : LowerM α ν σ Unit) (args : List (Handle ν)) (R : (HandleId → V) → Prop)
    (D : (HandleId → V) → Prop) : Prop :=
  ∀ ⦃G s s'⦄, S.Valid G s → (∀ a ∈ args, S.Usable G s a) → m.Runs s () s' →
    ∃ G', S.Step G s G' s' ∧ (∀ ρ, S.Admits ρ s' → R ρ) ∧ S.Extends s s' D

variable {S}

theorem Posts.imposes {m : LowerM α ν σ Unit} {args : List (Handle ν)}
    {R D : (HandleId → V) → Prop} (h : S.Posts m args R D) : S.Imposes m args R D :=
  fun _ _ _ hv hargs hr => h hv (fun a ha => (hargs a ha).toHeld) hr

theorem Imposes.mono {m : LowerM α ν σ Unit} {args : List (Handle ν)}
    {R R' D D' : (HandleId → V) → Prop} (h : S.Imposes m args R D) (hR : ∀ ρ, R ρ → R' ρ)
    (hD : ∀ ρ, D' ρ → D ρ) : S.Imposes m args R' D' := by
  intro G s s' hv hargs hr
  obtain ⟨G', g, b, e⟩ := h hv hargs hr
  exact ⟨G', g, fun ρ hρ => hR ρ (b ρ hρ), e.mono fun ρ _ => hD ρ⟩

/-- Constraints posted about what an encoding returns. -/
theorem Imposes.bind {m : LowerM α ν σ (Handle ν)} {f : Handle ν → LowerM α ν σ Unit}
    {used args : List (Handle ν)} {P : (HandleId → V) → ℤ → Prop} {R D : (HandleId → V) → Prop}
    {R' D' : Handle ν → (HandleId → V) → Prop} (hm : S.Computes m used P fun _ => True)
    (hsub : ∀ a ∈ used, a ∈ args) (hf : ∀ x, S.Imposes (f x) (x :: args) (R' x) (D' x))
    (hR : ∀ ρ x, P ρ (S.int ρ x) → R' x ρ → R ρ)
    (hD : ∀ ⦃G n ρ ρ'⦄ x, World G n → (∀ a ∈ args, a ∈ G) → Agree n ρ ρ' → P ρ' (S.int ρ' x) →
      D ρ → D' x ρ') : S.Imposes (m >>= f) args R D := by
  intro G s s' hv hargs hr
  obtain ⟨x, s₁, h₁, h₂⟩ := LowerM.runs_bind.mp hr
  obtain ⟨G₁, g₁, u₁, b₁, e₁⟩ := hm hv (fun a ha => hargs a (hsub a ha)) h₁
  have hargs₁ : ∀ a ∈ x :: args, S.Usable G₁ s₁ a := by
    intro a ha
    rcases List.mem_cons.mp ha with rfl | ha
    · exact u₁
    · exact (hargs a ha).mono g₁.toGrows
  obtain ⟨G₂, g₂, b₂, e₂⟩ := hf x g₁.valid hargs₁ h₂
  refine ⟨G₂, g₁.trans g₂, fun ρ hρ => hR ρ x (b₁ ρ (g₂.admits ρ hρ)) (b₂ ρ hρ), ?_⟩
  exact e₁.trans g₁.toGrows g₂.toGrows e₂ (fun _ _ _ => trivial) fun ρ ρ₁ _ hD' ha hρ₁ =>
    hD x hv.world (fun a ha => (hargs a ha).mem) ha (b₁ ρ₁ hρ₁) hD'

/-- The facts about arguments may be used for more of them. -/
theorem Derives.of_subset {m : LowerM α ν σ (Handle ν)} {args : List (Handle ν)}
    {R : (HandleId → V) → ℤ → Prop} (h : S.Derives m args R) (args' : List (Handle ν))
    (hsub : ∀ a ∈ args, a ∈ args') :
    S.Derives m args' R :=
  fun _ _ _ _ hv ha hr => h hv (fun a hm => ha a (hsub a hm)) hr

/-- What returns one of the arguments. -/
theorem computes_argument {x : Handle ν} {args : List (Handle ν)} {R : (HandleId → V) → ℤ → Prop}
    (hx : x ∈ args) (hR : ∀ ρ, R ρ (S.int ρ x)) :
    S.Computes (α := α) (pure x) args R fun _ => True := by
  intro G s h s' hv hargs hr
  obtain ⟨rfl, rfl⟩ := LowerM.runs_pure.mp hr
  exact ⟨G, .refl hv, hargs _ hx, fun ρ _ => hR ρ, .refl⟩

theorem Computes.of_subset {m : LowerM α ν σ (Handle ν)} {args : List (Handle ν)}
    {R : (HandleId → V) → ℤ → Prop} {D : (HandleId → V) → Prop} (h : S.Computes m args R D)
    (args' : List (Handle ν)) (hsub : ∀ a ∈ args, a ∈ args') : S.Computes m args' R D :=
  fun _ _ _ _ hv ha hr => h hv (fun a hm => ha a (hsub a hm)) hr

theorem Computes.mono {m : LowerM α ν σ (Handle ν)} {args : List (Handle ν)}
    {R R' : (HandleId → V) → ℤ → Prop} {D : (HandleId → V) → Prop} (h : S.Computes m args R D)
    (hR : ∀ ρ n, R ρ n → R' ρ n) : S.Computes m args R' D := by
  intro G s h' s' hv hargs hr
  obtain ⟨G', g, u, b, e⟩ := h hv hargs hr
  exact ⟨G', g, u, fun ρ hρ => hR ρ _ (b ρ hρ), e⟩

/-- A term made from a term. -/
theorem Derives.bind {m : LowerM α ν σ (Handle ν)} {f : Handle ν → LowerM α ν σ (Handle ν)}
    {args : List (Handle ν)} {R Q : (HandleId → V) → ℤ → Prop}
    {R' : Handle ν → (HandleId → V) → ℤ → Prop} (hm : S.Derives m args R)
    (hf : ∀ x, S.Derives (f x) (x :: args) (R' x))
    (hQ : ∀ ρ x n, R ρ (S.int ρ x) → R' x ρ n → Q ρ n) : S.Derives (m >>= f) args Q := by
  intro G s h s' hv hargs hr
  obtain ⟨x, s₁, h₁, h₂⟩ := LowerM.runs_bind.mp hr
  obtain ⟨G₁, g₁, u₁, b₁, e₁⟩ := hm hv hargs h₁
  have hargs₁ : ∀ a ∈ x :: args, S.Held G₁ s₁ a := by
    intro a ha
    rcases List.mem_cons.mp ha with rfl | ha
    · exact u₁
    · exact (hargs a ha).mono g₁.toGrows
  obtain ⟨G₂, g₂, u₂, b₂, e₂⟩ := hf x g₁.valid hargs₁ h₂
  refine ⟨G₂, g₁.trans g₂, u₂, fun ρ hρ => hQ ρ x _ (b₁ ρ (g₂.admits ρ hρ)) (b₂ ρ hρ), ?_⟩
  exact e₁.trans_always g₁.toGrows g₂.toGrows e₂

/-- An encoding of what an encoding returns, where the second extends the points with a property
that follows from what the first computes. -/
theorem Computes.bind_where {m : LowerM α ν σ (Handle ν)}
    {f : Handle ν → LowerM α ν σ (Handle ν)} {args : List (Handle ν)}
    {R Q : (HandleId → V) → ℤ → Prop} {D D₁ : (HandleId → V) → Prop}
    {R' : Handle ν → (HandleId → V) → ℤ → Prop} {D' : Handle ν → (HandleId → V) → Prop}
    (hm : S.Computes m args R D₁) (hf : ∀ x, S.Computes (f x) (x :: args) (R' x) (D' x))
    (hQ : ∀ ρ x n, R ρ (S.int ρ x) → R' x ρ n → Q ρ n) (hD₁ : ∀ ρ, D ρ → D₁ ρ)
    (hD : ∀ ⦃G n ρ ρ'⦄ x, World G n → (∀ a ∈ args, a ∈ G) → Agree n ρ ρ' → R ρ' (S.int ρ' x) →
      D ρ → D' x ρ') : S.Computes (m >>= f) args Q D := by
  intro G s h s' hv hargs hr
  obtain ⟨x, s₁, h₁, h₂⟩ := LowerM.runs_bind.mp hr
  obtain ⟨G₁, g₁, u₁, b₁, e₁⟩ := hm hv hargs h₁
  have hargs₁ : ∀ a ∈ x :: args, S.Usable G₁ s₁ a := by
    intro a ha
    rcases List.mem_cons.mp ha with rfl | ha
    · exact u₁
    · exact (hargs a ha).mono g₁.toGrows
  obtain ⟨G₂, g₂, u₂, b₂, e₂⟩ := hf x g₁.valid hargs₁ h₂
  refine ⟨G₂, g₁.trans g₂, u₂, fun ρ hρ => hQ ρ x _ (b₁ ρ (g₂.admits ρ hρ)) (b₂ ρ hρ), ?_⟩
  exact e₁.trans g₁.toGrows g₂.toGrows e₂ (fun ρ _ => hD₁ ρ) fun ρ ρ₁ _ hD' ha hρ₁ =>
    hD x hv.world (fun a ha => (hargs a ha).mem) ha (b₁ ρ₁ hρ₁) hD'

/-- An encoding of what an encoding returns. -/
theorem Computes.bind {m : LowerM α ν σ (Handle ν)} {f : Handle ν → LowerM α ν σ (Handle ν)}
    {args : List (Handle ν)} {R Q : (HandleId → V) → ℤ → Prop} {D : (HandleId → V) → Prop}
    {R' : Handle ν → (HandleId → V) → ℤ → Prop} (hm : S.Computes m args R D)
    (hf : ∀ x, S.Computes (f x) (x :: args) (R' x) fun _ => True)
    (hQ : ∀ ρ x n, R ρ (S.int ρ x) → R' x ρ n → Q ρ n) : S.Computes (m >>= f) args Q D :=
  hm.bind_where hf hQ (fun _ h => h) fun _ _ _ _ _ _ _ _ _ _ => trivial

/-- Encodings over a list, each of which extends every point. `K` is what a result is, and `P` what
its handle means. -/
theorem steps_mapM {β γ : Type} (handle : γ → Handle ν) (args : List (Handle ν))
    {f : β → LowerM α ν σ γ} {K : β → γ → Prop} {P : β → γ → (HandleId → V) → Prop} {xs : List β}
    (hf : ∀ x ∈ xs, ∀ ⦃G s y s'⦄, S.Valid G s → (∀ a ∈ args, S.Usable G s a) → (f x).Runs s y s' →
      K x y ∧ ∃ G', S.Step G s G' s' ∧ S.Usable G' s' (handle y) ∧ (∀ ρ, S.Admits ρ s' → P x y ρ) ∧
        S.Extends s s' fun _ => True)
    {ys : List γ} {s' : LoweringState ν σ} (hv : S.Valid G s) (hargs : ∀ a ∈ args, S.Usable G s a)
    (h : (xs.mapM f).Runs s ys s') :
    ∃ G', S.Step G s G' s' ∧ List.Forall₂ (fun x y => K x y ∧ S.Usable G' s' (handle y) ∧
      ∀ ρ, S.Admits ρ s' → P x y ρ) xs ys ∧ S.Extends s s' fun _ => True := by
  induction xs generalizing G s ys with
  | nil =>
    obtain ⟨rfl, rfl⟩ := LowerM.runs_mapM_nil.mp h
    exact ⟨G, .refl hv, .nil, .refl⟩
  | cons x xs ih =>
    obtain ⟨y, s₁, ys, h₁, h₂, rfl⟩ := LowerM.runs_mapM_cons.mp h
    obtain ⟨k₁, G₁, g₁, u₁, p₁, e₁⟩ := hf x (by simp) hv hargs h₁
    obtain ⟨G₂, g₂, p₂, e₂⟩ := ih (fun z hz => hf z (by simp [hz])) g₁.valid
      (fun a ha => (hargs a ha).mono g₁.toGrows) h₂
    refine ⟨G₂, g₁.trans g₂,
      .cons ⟨k₁, u₁.mono g₂.toGrows, fun ρ hρ => p₁ ρ (g₂.admits ρ hρ)⟩ p₂, ?_⟩
    exact e₁.trans_always g₁.toGrows g₂.toGrows e₂

variable (S)

/-- A point that is admitted before the run can be changed on new variables so that it is admitted
after the run and the handle takes the value `n`. -/
def Reaches (s s' : LoweringState ν σ) (h : Handle ν) (n : ℤ) : Prop :=
  ∀ ρ, S.Calm s'.solver → S.Admits ρ s → ∃ ρ', Agree s.nextHandle ρ ρ' ∧ S.Admits ρ' s' ∧
    S.int ρ' h = n

variable {S}

/-- What happens after a handle took a value leaves it the value. -/
theorem Reaches.extend {n : ℤ} {D : (HandleId → V) → Prop} (hr : S.Reaches s s₁ h n)
    (g₁ : S.Grows G s G₁ s₁) (g₂ : S.Grows G₁ s₁ G₂ s₂) (he : S.Extends s₁ s₂ D)
    (hcongr : ∀ ρ ρ', Agree s₁.nextHandle ρ ρ' → S.int ρ h = S.int ρ' h)
    (hD : ∀ ρ, S.int ρ h = n → D ρ) : S.Reaches s s₂ h n := by
  intro ρ hcalm hρ
  obtain ⟨ρ₁, ha₁, hρ₁, hvalue⟩ := hr ρ (g₂.calm hcalm) hρ
  obtain ⟨ρ₂, ha₂, hρ₂⟩ := he ρ₁ hcalm hρ₁ (hD ρ₁ hvalue)
  exact ⟨ρ₂, ha₁.trans g₁.next_le ha₂, hρ₂, (hcongr ρ₁ ρ₂ ha₂).symm.trans hvalue⟩

end Semantics

end DecisionModel
