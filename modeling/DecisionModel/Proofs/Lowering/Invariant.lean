import DecisionModel.Proofs.Lowering.Faithful

/-!
# The invariant of the walk

While a model is lowered, the handles of its variables stay and the memo grows. `Walked` says that
both are in order: every handle entered can be used, and every handle in the memo is the value of
the term whose identity it is kept under, whenever the variables have the values of their handles
(`Matched`).

`Lowers t m` is the statement that the walk proves of every term by induction. Read backward, the
handle that `m` returns is at each admitted point what the term evaluates to (`Reader.Holds`). Read
forward, a point extends over the run if all subterms have values (`Reader.Ready`).
-/

namespace DecisionModel

open Backend

variable {w : Workspace Exact} {m : ModelId}

/-- The upper bound of a key that is a variable or a selected member. -/
def keyUpper (w : Workspace Exact) (key : Term Exact) : Exact :=
  match key.unwrapped with
  | .var v => ((w.findVariable v).map (·.upper)).getD (.finite 0)
  | .selected _ f _ =>
    match (w.members f).filterMap w.findVariable with
    | [] => .finite 0
    | d :: ds => Scalar.greatest d.upper (ds.map (·.upper))
  | _ => .finite 0

/-- The variables whose values a key can have. -/
def keyVariables (w : Workspace Exact) (key : Term Exact) : List VarId :=
  match key.unwrapped with
  | .var v => [v]
  | .selected _ f _ => w.members f
  | _ => []

namespace Reader

variable (r : Reader w m) (origin : NodeId → Option (Term Exact))

/-- A key without an upper bound has no value farther away than what lowering takes for one. -/
def Near (key : Term Exact) : Prop :=
  ∀ n, r.Means origin key n → keyUpper w key = .posInf →
    (∀ v ∈ keyVariables w key, v ∈ w.allVariables m) → n ≤ farAway

/-- The term is the integer `n`, and all keys that lowering looks at are near. -/
structure Holds (t : Term Exact) (n : ℤ) : Prop where
  means : r.Means origin t n
  near {key : Term Exact} : t.ReadsKey key → r.Near origin key

/-- The variables of the model are declared and have values within their bounds. -/
def Bounded : Prop :=
  ∀ v ∈ w.allVariables m, ∃ d, w.findVariable v = some d ∧ ∀ x, r.read v = .ok (some x) →
    d.lower.le x.value = true ∧ x.value.le d.upper = true

/-- All subterms have values, variables are within their bounds and keys are near. -/
structure Ready (t : Term Exact) : Prop where
  defined : r.Defined t
  bounded : r.Bounded
  near {key : Term Exact} : t.ReadsKey key → r.Near origin key

variable {r origin} in
theorem Ready.operand {t : Term Exact} {id : NodeId} {op : Operator} {ts : List (Term Exact)}
    (h : r.Ready origin (.node id op ts)) (ht : t ∈ ts) (hop : op ≠ .collection)
    (hcount : op = .custom "count" → ts = [t] ∧ t.isCollection = true) : r.Ready origin t where
  defined := h.defined.operand ht
  bounded := h.bounded
  near hk := h.near (.operand ht hop hcount hk)

end Reader

variable {ν σ V : Type} [Numeral ν] {B : Backend Exact ν σ} {S : Semantics ν σ V} {c : Context Exact}

/-- The reader gives to each variable with a handle the value of the handle. -/
def Matched (S : Semantics ν σ V) (s : LoweringState ν σ) (ρ : HandleId → V) (r : Reader w m) : Prop :=
  ∀ v h, s.handle? v = some h → r.read v = .ok (some ⟨.finite (S.int ρ h), some (.stored v)⟩)

/-- If the term is a selected member, all members of the family have handles. -/
def MembersKnown (c : Context Exact) (s : LoweringState ν σ) (t : Term Exact) : Prop :=
  ∀ id f i, t = .selected id f i → ∀ v ∈ c.workspace.members f, ∃ h, s.handle? v = some h

/-- The state is in order between two steps of the walk. -/
structure Walked (S : Semantics ν σ V) (c : Context Exact) (origin : NodeId → Option (Term Exact))
    (G : Set (Handle ν)) (s : LoweringState ν σ) : Prop where
  valid : S.Valid G s
  known {v : VarId} {h : Handle ν} : s.handle? v = some h → v ∈ c.vars
  handles {v : VarId} {h : Handle ν} : s.handle? v = some h → S.Usable G s h
  fits {v : VarId} {h : Handle ν} {d : Variable Exact} : s.handle? v = some h →
    c.workspace.findVariable v = some d → ∀ ρ, S.Admits ρ s → S.Fits d (S.int ρ h)
  memo_usable {id : NodeId} {h : Handle ν} : (id, h) ∈ s.memo → S.Usable G s h
  memo_holds {id : NodeId} {h : Handle ν} : (id, h) ∈ s.memo → ∃ t, origin id = some t ∧
    MembersKnown c s t ∧ ∀ ρ (r : Reader c.workspace c.model), S.Admits ρ s → Matched S s ρ r →
      r.Holds origin t (S.int ρ h)

variable {origin : NodeId → Option (Term Exact)} {G G₁ : Set (Handle ν)} {s s₁ : LoweringState ν σ}

omit [Numeral ν] in
theorem handle?_eq (h : s₁.handles = s.handles) (v : VarId) : s₁.handle? v = s.handle? v := by
  simp only [LoweringState.handle?, h]

omit [Numeral ν] in
/-- The first handle of a variable is found, so further ones do not matter. -/
theorem handle?_of_entered (hs : s.handles <+: s₁.handles) {v : VarId} {h : Handle ν}
    (hh : s.handle? v = some h) : s₁.handle? v = some h := by
  obtain ⟨entries, hentries⟩ := hs
  simp only [LoweringState.handle?, ← hentries, List.find?_append, Option.map_or] at hh ⊢
  rw [hh, Option.some_or]

omit [Numeral ν] in
theorem matched_iff (h : s₁.handles = s.handles) {ρ : HandleId → V} {r : Reader w m} :
    Matched S s₁ ρ r ↔ Matched S s ρ r := by
  simp only [Matched, handle?_eq h]

omit [Numeral ν] in
theorem MembersKnown.congr {t : Term Exact} (hk : MembersKnown c s t)
    (h : s₁.handles = s.handles) : MembersKnown c s₁ t := by
  intro id f i ht v hv
  obtain ⟨hv', hh⟩ := hk id f i ht v hv
  exact ⟨hv', (handle?_eq h v).trans hh⟩

omit [Numeral ν] in
theorem membersKnown_node {t : Term Exact} (h : t.isNode = true) : MembersKnown c s t := by
  rintro id f i rfl
  cases h

/-- Points that agree on the variables made so far match the same readers. -/
theorem Matched.congr (hB : Faithful B S c) (hw : Walked S c origin G s) {ρ ρ' : HandleId → V}
    {r : Reader w m} (ha : Agree s.nextHandle ρ ρ') (hm : Matched S s ρ r) : Matched S s ρ' r := by
  intro v h hv
  rw [hm v h hv, hB.int_congr hw.valid.world (hw.handles hv).mem ha]

omit [Numeral ν] in
theorem Walked.mono (hw : Walked S c origin G s) (hg : S.Grows G s G₁ s₁) (hm : s₁.memo = s.memo) :
    Walked S c origin G₁ s₁ where
  valid := hg.valid
  known hv := hw.known (handle?_eq hg.handles_eq _ ▸ hv)
  handles hv := (hw.handles (handle?_eq hg.handles_eq _ ▸ hv)).mono hg
  fits hv hd ρ hρ := hw.fits (handle?_eq hg.handles_eq _ ▸ hv) hd ρ (hg.admits ρ hρ)
  memo_usable hm' := (hw.memo_usable (hm ▸ hm')).mono hg
  memo_holds hm' := by
    obtain ⟨t, ht, hk, h⟩ := hw.memo_holds (hm ▸ hm')
    exact ⟨t, ht, hk.congr hg.handles_eq,
      fun ρ r hρ hr => h ρ r (hg.admits ρ hρ) ((matched_iff hg.handles_eq).mp hr)⟩

omit [Numeral ν] in
theorem Walked.step (hw : Walked S c origin G s) (hs : S.Step G s G₁ s₁) :
    Walked S c origin G₁ s₁ := hw.mono hs.toGrows hs.memo_eq

/-- A change that concerns neither the solver nor the handles of variables. -/
theorem grows_of_sameSolver (hB : Faithful B S c) (hv : S.Valid G s) (h : s.SameSolver s₁)
    (hh : s₁.handles = s.handles) : S.Grows G s G s₁ where
  subset := subset_rfl
  valid := ⟨hv.world.mono h.next_le, hB.tables_congr h hv.tables⟩
  next_le := h.next_le
  handles_eq := hh
  admits _ hρ := ⟨h.solver_eq ▸ hρ.1, h.violated hρ.2⟩
  calm hc := h.solver_eq ▸ hc
  noted _ hn := h.solver_eq.symm ▸ hn

/-- The points that match a reader for which the terms are ready. -/
def ReadyAt (S : Semantics ν σ V) (c : Context Exact) (origin : NodeId → Option (Term Exact))
    (s : LoweringState ν σ) (ts : List (Term Exact)) (ρ : HandleId → V) : Prop :=
  ∃ r : Reader c.workspace c.model, Matched S s ρ r ∧ ∀ t ∈ ts, r.Ready origin t

theorem ReadyAt.congr (hB : Faithful B S c) (hw : Walked S c origin G s) {ts ts' : List (Term Exact)}
    {ρ ρ' : HandleId → V} (ha : Agree s.nextHandle ρ ρ') (hh : s₁.handles = s.handles)
    (hsub : ∀ t ∈ ts', t ∈ ts) (h : ReadyAt S c origin s ts ρ) : ReadyAt S c origin s₁ ts' ρ' := by
  obtain ⟨r, hr, ht⟩ := h
  exact ⟨r, (matched_iff hh).mpr (hr.congr hB hw ha), fun t hm => ht t (hsub t hm)⟩

/-- The handle is what a run has lowered the term `t` to. -/
def Lowered (S : Semantics ν σ V) (c : Context Exact) (origin : NodeId → Option (Term Exact))
    (t : Term Exact) (G : Set (Handle ν)) (s : LoweringState ν σ) (h : Handle ν)
    (s' : LoweringState ν σ) : Prop :=
  ∃ G', S.Grows G s G' s' ∧ Walked S c origin G' s' ∧ S.Usable G' s' h ∧ MembersKnown c s t ∧
    (∀ ρ (r : Reader c.workspace c.model), S.Admits ρ s' → Matched S s ρ r →
      r.Holds origin t (S.int ρ h)) ∧
    S.Extends s s' (ReadyAt S c origin s [t])

/-- Running `m` lowers the term `t`. -/
def Lowers (S : Semantics ν σ V) (c : Context Exact) (origin : NodeId → Option (Term Exact))
    (t : Term Exact) (m : LowerM Exact ν σ (Handle ν)) : Prop :=
  ∀ ⦃G s h s'⦄, Walked S c origin G s → m.Runs s h s' → Lowered S c origin t G s h s'

/-- Running `m` lowers the terms to one handle each. -/
def LowersAll (S : Semantics ν σ V) (c : Context Exact) (origin : NodeId → Option (Term Exact))
    (ts : List (Term Exact)) (m : LowerM Exact ν σ (List (Handle ν))) : Prop :=
  ∀ ⦃G s hs s'⦄, Walked S c origin G s → m.Runs s hs s' →
    ∃ G', S.Grows G s G' s' ∧ Walked S c origin G' s' ∧ (∀ h ∈ hs, S.Usable G' s' h) ∧
      hs.length = ts.length ∧
      (∀ ρ (r : Reader c.workspace c.model), S.Admits ρ s' → Matched S s ρ r →
        List.Forall₂ (r.Holds origin) ts (hs.map (S.int ρ))) ∧
      S.Extends s s' (ReadyAt S c origin s ts)

omit [Numeral ν] in
theorem lowersAll_pure_nil : LowersAll S c origin [] (pure [] : LowerM Exact ν σ _) := by
  intro G s hs s' hw hr
  obtain ⟨rfl, rfl⟩ := LowerM.runs_pure.mp hr
  exact ⟨G, .refl hw.valid, hw, by simp, rfl, fun _ _ _ _ => .nil, .refl⟩

/-- Lowering some terms and then others. -/
theorem LowersAll.append (hB : Faithful B S c) {ts₁ ts₂ : List (Term Exact)}
    {m₁ m₂ : LowerM Exact ν σ (List (Handle ν))} (h₁ : LowersAll S c origin ts₁ m₁)
    (h₂ : LowersAll S c origin ts₂ m₂) :
    LowersAll S c origin (ts₁ ++ ts₂) (do return (← m₁) ++ (← m₂)) := by
  intro G s hs s' hw hr
  simp only [LowerM.runs_bind, LowerM.runs_pure] at hr
  obtain ⟨hs₁, s₁, hr₁, hs₂, s₂, hr₂, rfl, rfl⟩ := hr
  obtain ⟨G₁, g₁, w₁, u₁, l₁, b₁, e₁⟩ := h₁ hw hr₁
  obtain ⟨G₂, g₂, w₂, u₂, l₂, b₂, e₂⟩ := h₂ w₁ hr₂
  refine ⟨G₂, g₁.trans g₂, w₂, ?_, by simp [l₁, l₂], ?_, ?_⟩
  · intro h hm
    rcases List.mem_append.mp hm with hm | hm
    · exact (u₁ h hm).mono g₂
    · exact u₂ h hm
  · intro ρ r hρ hmr
    rw [List.map_append]
    exact List.rel_append (b₁ ρ r (g₂.admits ρ hρ) hmr)
      (b₂ ρ r hρ ((matched_iff g₁.handles_eq).mpr hmr))
  · refine e₁.trans g₁ g₂ e₂ (fun ρ _ h => ?_) fun ρ ρ₁ _ h ha _ => ?_
    · exact h.congr hB hw (Agree.refl _ ρ) rfl fun t ht => List.mem_append_left _ ht
    · exact h.congr hB hw ha g₁.handles_eq fun t ht => List.mem_append_right _ ht

omit [Numeral ν] in
theorem Lowers.single {t : Term Exact} {m : LowerM Exact ν σ (Handle ν)}
    (h : Lowers S c origin t m) : LowersAll S c origin [t] (do return [← m]) := by
  intro G s hs s' hw hr
  simp only [LowerM.runs_bind, LowerM.runs_pure] at hr
  obtain ⟨h₁, s₁, hr₁, rfl, rfl⟩ := hr
  obtain ⟨G₁, g₁, w₁, u₁, -, b₁, e₁⟩ := h hw hr₁
  exact ⟨G₁, g₁, w₁, by simpa using u₁, rfl, fun ρ r hρ hm => .cons (b₁ ρ r hρ hm) .nil, e₁⟩

/-- Lowering the operands one after the other. -/
theorem lowersAll_operands (hB : Faithful B S c) {operands : List (Operand Exact ν σ)}
    (h : ∀ o ∈ operands, Lowers S c origin o.term o.lower) :
    LowersAll S c origin (operands.map (·.term)) (lowerAll operands) := by
  induction operands with
  | nil => exact lowersAll_pure_nil
  | cons o os ih =>
    have ha := (h o (by simp)).single.append hB (ih fun o ho => h o (by simp [ho]))
    intro G s hs s' hw hr
    refine ha hw ?_
    simp only [lowerAll, LowerM.runs_mapM_cons] at hr
    obtain ⟨y, s₁, ys, hr₁, hr₂, rfl⟩ := hr
    simp only [LowerM.runs_bind, LowerM.runs_pure]
    exact ⟨[y], s₁, ⟨y, s₁, hr₁, rfl, rfl⟩, ys, s', hr₂, rfl, rfl⟩

/-- Lowering terms and computing from their handles lowers the term that is so computed. -/
theorem LowersAll.compute (hB : Faithful B S c) {t : Term Exact} {ts : List (Term Exact)}
    {m : LowerM Exact ν σ (List (Handle ν))} {f : List (Handle ν) → LowerM Exact ν σ (Handle ν)}
    (args : List (Handle ν) → List (Handle ν)) {R : List (Handle ν) → (HandleId → V) → ℤ → Prop}
    {D : List (Handle ν) → (HandleId → V) → Prop} (h : LowersAll S c origin ts m)
    (hnode : t.isNode = true) (hargs : ∀ hs, hs.length = ts.length → ∀ a ∈ args hs, a ∈ hs)
    (hf : ∀ hs, hs.length = ts.length → S.Computes (f hs) (args hs) (R hs) (D hs))
    (hR : ∀ hs ρ (r : Reader c.workspace c.model) n, hs.length = ts.length →
      List.Forall₂ (r.Holds origin) ts (hs.map (S.int ρ)) → R hs ρ n → r.Holds origin t n)
    (hready : ∀ r : Reader c.workspace c.model, r.Ready origin t → ∀ u ∈ ts, r.Ready origin u)
    (hD : ∀ hs ρ (r : Reader c.workspace c.model), hs.length = ts.length →
      List.Forall₂ (r.Holds origin) ts (hs.map (S.int ρ)) → r.Ready origin t → D hs ρ) :
    Lowers S c origin t (m >>= f) := by
  intro G s k s' hw hr
  obtain ⟨hs, s₁, hr₁, hr₂⟩ := LowerM.runs_bind.mp hr
  obtain ⟨G₁, g₁, w₁, u₁, l₁, b₁, e₁⟩ := h hw hr₁
  obtain ⟨G₂, g₂, u₂, b₂, e₂⟩ := hf hs l₁ w₁.valid (fun a ha => u₁ a (hargs hs l₁ a ha)) hr₂
  refine ⟨G₂, g₁.trans g₂.toGrows, w₁.step g₂, u₂, membersKnown_node hnode, ?_, ?_⟩
  · intro ρ r hρ hm
    exact hR hs ρ r _ l₁ (b₁ ρ r (g₂.admits ρ hρ) hm) (b₂ ρ hρ)
  · refine e₁.trans g₁ g₂.toGrows e₂ ?_ ?_
    · rintro ρ - ⟨r, hm, ht⟩
      exact ⟨r, hm, hready r (ht t (by simp))⟩
    · rintro ρ ρ₁ - ⟨r, hm, ht⟩ ha hρ₁
      exact hD hs ρ₁ r l₁ (b₁ ρ₁ r hρ₁ (hm.congr hB hw ha)) (ht t (by simp))

/-- Lowering one term and computing from its handle. -/
theorem Lowers.compute (hB : Faithful B S c) {t u : Term Exact} {m : LowerM Exact ν σ (Handle ν)}
    {f : Handle ν → LowerM Exact ν σ (Handle ν)} {R : Handle ν → (HandleId → V) → ℤ → Prop}
    {D : Handle ν → (HandleId → V) → Prop} (h : Lowers S c origin u m) (hnode : t.isNode = true)
    (hf : ∀ a, S.Computes (f a) [a] (R a) (D a))
    (hR : ∀ a ρ (r : Reader c.workspace c.model) n, r.Holds origin u (S.int ρ a) → R a ρ n →
      r.Holds origin t n)
    (hready : ∀ r : Reader c.workspace c.model, r.Ready origin t → r.Ready origin u)
    (hD : ∀ a ρ (r : Reader c.workspace c.model), r.Holds origin u (S.int ρ a) →
      r.Ready origin t → D a ρ) : Lowers S c origin t (m >>= f) := by
  intro G s k s' hw hr
  obtain ⟨a, s₁, hr₁, hr₂⟩ := LowerM.runs_bind.mp hr
  have hall := h.single.compute hB id (t := t) (f := fun hs => f (hs.headD a))
    (R := fun hs => R (hs.headD a)) (D := fun hs => D (hs.headD a)) hnode (fun _ _ _ ha => ha)
    (fun hs hl => ?_) (fun hs ρ r n hl hh hn => ?_) (fun r hr => by simpa using hready r hr)
    fun hs ρ r hl hh hr => ?_
  · exact hall hw (LowerM.runs_bind.mpr ⟨[a], s₁, by simpa [LowerM.runs_bind] using hr₁, hr₂⟩)
  · obtain ⟨b, rfl⟩ := List.length_eq_one_iff.mp hl
    exact hf b
  · obtain ⟨b, rfl⟩ := List.length_eq_one_iff.mp hl
    obtain _ | ⟨hb, -⟩ := hh
    exact hR b ρ r n hb hn
  · obtain ⟨b, rfl⟩ := List.length_eq_one_iff.mp hl
    obtain _ | ⟨hb, -⟩ := hh
    exact hD b ρ r hb hr

end DecisionModel
