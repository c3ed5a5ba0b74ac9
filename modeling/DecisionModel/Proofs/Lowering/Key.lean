import DecisionModel.Proofs.Lowering.Invariant

/-!
# Positions and keys

An element is the entry at a position, taken at once if the position is a number (`computes_element`).
A term that is lowered once for its identity is found in the memo again (`memoized_lowers`); a member
selected from a family is such a term (`selected_lowers`).

`keyDomain_lowers` is about the key of a collection: the handle has the key's value, and a key under
which the model has a collection is in the range that lowering goes through, provided that it is near.
-/

namespace DecisionModel

open LowerM Backend

variable {ν σ V : Type} [Numeral ν] {B : Backend Exact ν σ} {S : Semantics ν σ V} {c : Context Exact}
  {origin : NodeId → Option (Term Exact)} {G : Set (Handle ν)} {s s' : LoweringState ν σ}

/-! ### Handles of variables -/

omit [Numeral ν] in
theorem runs_variableHandle {α : Type} {c : Context α} {v : VarId} {h : Handle ν} :
    (variableHandle c v : LowerM α ν σ (Handle ν)).Runs s h s' ↔
      s.handle? v = some h ∧ s' = s := by
  simp only [variableHandle, runs_bind, runs_get]
  constructor
  · rintro ⟨_, _, ⟨rfl, rfl⟩, hr⟩
    split at hr
    · rename_i h' hh
      obtain ⟨rfl, rfl⟩ := runs_pure.mp hr
      exact ⟨hh, rfl⟩
    · exact absurd hr runs_fail
  · rintro ⟨hh, rfl⟩
    refine ⟨s', s', ⟨rfl, rfl⟩, ?_⟩
    simp only [LoweringState.handle?] at hh
    simp [hh]

omit [Numeral ν] in
theorem runs_assumedHandle {v : VarId} {h : Handle ν} :
    (assumedHandle c v : LowerM Exact ν σ (Handle ν)).Runs s h s' ↔
      s.handle? v = some h ∧ s' = s := by
  simp only [assumedHandle, runs_bind, runs_get]
  constructor
  · rintro ⟨_, _, ⟨rfl, rfl⟩, hr⟩
    split at hr
    · rename_i h' hh
      obtain ⟨rfl, rfl⟩ := runs_pure.mp hr
      exact ⟨hh, rfl⟩
    · simp [runs_bind] at hr
  · rintro ⟨hh, rfl⟩
    refine ⟨s', s', ⟨rfl, rfl⟩, ?_⟩
    simp only [LoweringState.handle?] at hh
    simp [hh]

omit [Numeral ν] in
theorem runs_assumedHandles {vs : List VarId} {hs : List (Handle ν)}
    (h : (vs.mapM (assumedHandle c) : LowerM Exact ν σ _).Runs s hs s') :
    s' = s ∧ List.Forall₂ (fun v h => s.handle? v = some h) vs hs := by
  refine runs_mapM_pure (fun v _ h s' hr => ?_) h
  exact (runs_assumedHandle.mp hr).symm

omit [Numeral ν] in
theorem var_lowers (v : VarId) :
    Lowers S c origin (.var v) (variableHandle c v : LowerM Exact ν σ _) := by
  intro G s h s' hw hr
  obtain ⟨hh, rfl⟩ := runs_variableHandle.mp hr
  refine ⟨G, .refl hw.valid, hw, hw.handles hh, ?_, ?_, .refl⟩
  · rintro id f i ⟨⟩
  · exact fun ρ r _ hm => ⟨Reader.means_var (hm v h hh), fun hk => nomatch hk⟩

/-! ### Elements and the memo -/

theorem computes_element (hB : Faithful B S c) (index : Handle ν) (entries : List (ℤ × Handle ν)) :
    S.Computes (B.element index entries) (index :: entries.map (·.2))
      (fun ρ n => ∃ e ∈ entries, S.int ρ index = e.1 ∧ n = S.int ρ e.2)
      fun ρ => ∃ e ∈ entries, S.int ρ index = e.1 := by
  intro G s h s' hv hargs hr
  unfold Backend.element at hr
  cases index with
  | const x =>
    simp only [Handle.number?, runs_bind, runs_lift] at hr
    obtain ⟨position, _, ⟨hround, rfl⟩, hr⟩ := hr
    split at hr
    · rename_i h' hfind
      obtain ⟨rfl, rfl⟩ := runs_pure.mp hr
      have hmem : (position, h') ∈ entries := Table.mem_of_get? hfind
      refine ⟨G, .refl hv, hargs _ (by simpa using .inr ⟨position, hmem⟩), fun ρ hρ => ?_, .refl⟩
      have hint := hB.round_eq ((hargs (.const x) (by simp)).integral ρ hρ)
      rw [hround] at hint
      exact ⟨(position, h'), hmem, by simpa using hint.symm, rfl⟩
    · split at hr
      · exact absurd hr runs_fail
      · exact absurd hr runs_fail
  | leaf id name integral => exact hB.lookup _ entries hv hargs hr
  | node id f args => exact hB.lookup _ entries hv hargs hr

/-- Keeping a handle in the memo under the identity of its term. -/
theorem Walked.remember (hB : Faithful B S c) (hw : Walked S c origin G s) {id : NodeId}
    {t : Term Exact} {h : Handle ν} (ho : origin id = some t) (hu : S.Usable G s h)
    (hk : MembersKnown c s t)
    (hh : ∀ ρ (r : Reader c.workspace c.model), S.Admits ρ s → Matched S s ρ r →
      r.Holds origin t (S.int ρ h)) :
    S.Grows G s G { s with memo := (id, h) :: s.memo } ∧
      Walked S c origin G { s with memo := (id, h) :: s.memo } := by
  have hg : S.Grows G s G { s with memo := (id, h) :: s.memo } :=
    grows_of_sameSolver hB hw.valid ⟨rfl, fun hv => hv, le_rfl⟩ rfl
  refine ⟨hg, hg.valid, hw.known, fun hv => (hw.handles hv).mono hg, hw.fits, ?_, ?_⟩
  · intro id' h' hm
    rcases List.mem_cons.mp hm with he | hm
    · cases he
      exact hu.mono hg
    · exact (hw.memo_usable hm).mono hg
  · intro id' h' hm
    rcases List.mem_cons.mp hm with he | hm
    · cases he
      exact ⟨t, ho, hk, hh⟩
    · exact hw.memo_holds hm

theorem memoized_lowers (hB : Faithful B S c) {id : NodeId} {t : Term Exact}
    {run : LowerM Exact ν σ (Handle ν)} (ho : origin id = some t) (h : Lowers S c origin t run) :
    Lowers S c origin t (memoized id run) := by
  intro G s k s' hw hr
  simp only [memoized, runs_bind, runs_get] at hr
  obtain ⟨_, _, ⟨rfl, rfl⟩, hr⟩ := hr
  split at hr
  · -- The handle is in the memo: nothing is lowered, and the memo says what the handle is.
    rename_i k' hfind
    obtain ⟨rfl, rfl⟩ := runs_pure.mp hr
    have hmem := Table.mem_of_get? hfind
    obtain ⟨t', ht', hk, hh⟩ := hw.memo_holds hmem
    rw [ho] at ht'
    cases ht'
    exact ⟨G, .refl hw.valid, hw, hw.memo_usable hmem, hk, hh, .refl⟩
  · simp only [runs_bind, runs_modify, runs_pure] at hr
    obtain ⟨k', s₁, hr₁, _, _, rfl, rfl, rfl⟩ := hr
    obtain ⟨G₁, g₁, w₁, u₁, k₁, b₁, e₁⟩ := h hw hr₁
    have hk₁ : MembersKnown c s₁ t := k₁.congr g₁.handles_eq
    obtain ⟨g₂, w₂⟩ := w₁.remember hB ho u₁ hk₁
      fun ρ r hρ hm => b₁ ρ r hρ ((matched_iff g₁.handles_eq).mp hm)
    exact ⟨G₁, g₁.trans g₂, w₂, u₁.mono g₂, k₁, fun ρ r hρ hm => b₁ ρ r hρ hm, e₁⟩

/-! ### Selected members -/

omit [Numeral ν] in
/-- The entries of a list of handles by their positions, counted from `start`. -/
theorem mem_mapIdx_entries {hs : List (Handle ν)} {start : ℤ} {e : ℤ × Handle ν} :
    e ∈ hs.mapIdx (fun i h => ((i : ℤ) + start, h)) ↔ ∃ k : ℕ, e.1 = k + start ∧ hs[k]? = some e.2 := by
  obtain ⟨p, h⟩ := e
  simp only [List.mem_mapIdx, Prod.mk.injEq, List.getElem?_eq_some_iff]
  constructor
  · rintro ⟨k, hk, rfl, rfl⟩
    exact ⟨k, rfl, hk, rfl⟩
  · rintro ⟨k, rfl, hk, rfl⟩
    exact ⟨k, hk, rfl, rfl⟩

theorem selected_lowers (hB : Faithful B S c) (id : NodeId) (f : FamilyId) (i : VarId) :
    Lowers S c origin (.selected id f i) (lowerSelected B c f i) := by
  intro G s h s' hw hr
  simp only [lowerSelected, runs_bind] at hr
  obtain ⟨hs, s₁, hr₁, hr₂⟩ := hr
  obtain ⟨rfl, hmembers⟩ := runs_assumedHandles hr₁
  split at hr₂
  · simp [runs_bind] at hr₂
  obtain ⟨index, s₂, hr₃, hr₄⟩ := runs_bind.mp hr₂
  obtain ⟨hi, rfl⟩ := runs_variableHandle.mp hr₃
  have hentries : (hs.mapIdx fun i h => ((i : ℤ), h)) = hs.mapIdx fun i h => ((i : ℤ) + 0, h) := by
    simp
  rw [hentries] at hr₄
  have hargs : ∀ a ∈ index :: (hs.mapIdx fun i h => ((i : ℤ) + 0, h)).map (·.2), S.Usable G s₂ a := by
    intro a ha
    rcases List.mem_cons.mp ha with rfl | ha
    · exact hw.handles hi
    · obtain ⟨e, he, rfl⟩ := List.mem_map.mp ha
      obtain ⟨k, -, hk⟩ := mem_mapIdx_entries.mp he
      obtain ⟨v, -, hv⟩ := forall₂_getElem?_right hmembers hk
      exact hw.handles hv
  obtain ⟨G₁, g₁, u₁, b₁, e₁⟩ := computes_element hB index _ hw.valid hargs hr₄
  refine ⟨G₁, g₁.toGrows, hw.step g₁, u₁, ?_, ?_, ?_⟩
  · rintro id' f' i' ⟨⟩ v hv
    obtain ⟨k, hk⟩ := List.getElem?_of_mem hv
    obtain ⟨h, -, hh⟩ := forall₂_getElem?_left hmembers hk
    exact ⟨h, hh⟩
  · intro ρ r hρ hm
    obtain ⟨e, he, hindex, hvalue⟩ := b₁ ρ hρ
    obtain ⟨k, hk, hget⟩ := mem_mapIdx_entries.mp he
    obtain ⟨v, hv, hh⟩ := forall₂_getElem?_right hmembers hget
    refine ⟨?_, fun hk => nomatch hk⟩
    rw [hvalue]
    refine Reader.means_selected (k := k) ?_ hv (hm v _ hh)
    rw [hm i index hi, hindex, hk, add_zero]
  · refine e₁.mono ?_
    rintro ρ - ⟨r, hm, ht⟩
    obtain ⟨h0, hlt⟩ := Reader.position_of_selected (ht (.selected id f i) (by simp)).defined (hm i index hi)
    obtain ⟨k, hk⟩ := Int.eq_ofNat_of_zero_le h0
    have hv := List.getElem?_eq_getElem (l := c.workspace.members f) (i := k) (by omega)
    obtain ⟨h, hh, -⟩ := forall₂_getElem?_left hmembers hv
    exact ⟨(S.int ρ index, h), mem_mapIdx_entries.mpr ⟨k, by simpa using hk, hh⟩, rfl⟩

/-! ### Keys -/

omit [Numeral ν] in
theorem runs_keysWithin {key : Term Exact} {lower upper : Exact} {first last : ℤ}
    (h : (keysWithin c key lower upper : LowerM Exact ν σ _).Runs s (first, last) s') :
    s' = s ∧ first ≤ last ∧ lower ≠ .nan ∧ upper ≠ .nan ∧ (upper = .posInf → last ≤ farAway) ∧
      ∀ k : ℤ, 0 ≤ k → k < c.keyCount → lower.le (.finite k) = true →
        (Exact.finite k).le upper = true → (upper = .posInf → k ≤ farAway) → first ≤ k ∧ k ≤ last := by
  simp only [keysWithin, runs_bind, runs_lift] at h
  obtain ⟨l, _, ⟨hl, rfl⟩, u, _, ⟨hu, rfl⟩, h⟩ := h
  split at h
  · simp [runs_bind] at h
  rename_i hle
  simp only [runs_pure, Prod.mk.injEq] at h
  obtain ⟨⟨rfl, rfl⟩, rfl⟩ := h
  refine ⟨rfl, by omega, ?_, ?_, ?_, ?_⟩
  · rintro rfl
    cases hl
  · rintro rfl
    cases hu
  · rintro rfl
    cases hu
    omega
  · intro k hk0 hkc hlk hku hfar
    have hl' : l ≤ k := by
      unfold leastKey at hl
      split at hl
      · cases hl
        unfold farAway
        omega
      · exact (Exact.ceil_le_iff hl).mpr hlk
    have hu' : k ≤ u := by
      unfold greatestKey at hu
      split at hu
      · rename_i hinf
        cases hu
        refine hfar ?_
        cases upper <;> simp_all [Exact.eq]
      · exact (Exact.le_floor_iff hu).mpr hku
    omega

theorem mem_keyRange {first last k : ℤ} : k ∈ keyRange first last ↔ first ≤ k ∧ k ≤ last := by
  simp only [keyRange, List.mem_map, List.mem_range]
  constructor
  · rintro ⟨i, hi, rfl⟩
    omega
  · rintro ⟨h₁, h₂⟩
    exact ⟨(k - first).toNat, by omega, by omega⟩

/-- A key that is a variable or a selected member, or such a term in a wrapper, has the value of the
variable or the selected member. -/
theorem value_unwrapped {w : Workspace Exact} {m : ModelId} (r : Reader w m) (p : Option Place)
    {key : Term Exact} (h : key.unwrapped.isNode = false) (hc : key.unwrapped.isConst = false) :
    (r.argument p key).value () = (r.argument none key.unwrapped).value () := by
  unfold Term.unwrapped at h hc ⊢
  split
  · rename_i t ts
    rw [Reader.value_node]
    cases t <;> first | rfl | simp_all [Term.isNode, Term.isConst]
  · cases key <;> first | rfl | simp_all [Term.isNode, Term.isConst]

theorem means_of_unwrapped {w : Workspace Exact} {m : ModelId} {r : Reader w m} {key : Term Exact}
    {n : ℤ} (h : key.unwrapped.isNode = false) (hc : key.unwrapped.isConst = false)
    (hm : r.Means origin key.unwrapped n) : r.Means origin key n := by
  intro p _
  rw [value_unwrapped r p h hc]
  exact hm.gives

theorem gives_unwrapped {w : Workspace Exact} {m : ModelId} {r : Reader w m} {key : Term Exact}
    {n : ℤ} (h : key.unwrapped.isNode = false) (hc : key.unwrapped.isConst = false)
    (hm : r.Means origin key n) : r.Gives origin ((r.argument none key.unwrapped).value ()) n := by
  rw [← value_unwrapped r none h hc]
  exact hm.gives

/-- What comes out of lowering a key: a handle with its value, and a range that has every key in it
under which the model has a collection, as long as it is near. -/
structure KeyLowered (S : Semantics ν σ V) (c : Context Exact) (origin : NodeId → Option (Term Exact))
    (key : Term Exact) (G : Set (Handle ν)) (s : LoweringState ν σ) (handle : Handle ν)
    (first last : ℤ) (G' : Set (Handle ν)) (s' : LoweringState ν σ) : Prop where
  grows : S.Grows G s G' s'
  walked : Walked S c origin G' s'
  usable : S.Usable G' s' handle
  first_le : first ≤ last
  means (ρ : HandleId → V) (r : Reader c.workspace c.model) :
    S.Admits ρ s' → Matched S s ρ r → r.Means origin key (S.int ρ handle)
  near : keyUpper c.workspace key = .posInf → last ≤ farAway
  range (r : Reader c.workspace c.model) (k : ℤ) : r.Bounded → r.Near origin key →
    r.Means origin key k → 0 ≤ k → k < c.keyCount → first ≤ k ∧ k ≤ last
  extends_ : S.Extends s s' fun ρ => ∃ r : Reader c.workspace c.model, Matched S s ρ r ∧
    r.Defined key ∧ r.Bounded ∧ r.Near origin key ∧
      ∀ k, r.Means origin key k → 0 ≤ k ∧ k < c.keyCount

omit [Numeral ν] in
theorem keyLowered_var {key : Term Exact} {v : VarId} {handle : Handle ν} {first last : ℤ}
    (hw : Walked S c origin G s) (hkey : key.unwrapped = .var v)
    (hk : (variableKeys c v : LowerM Exact ν σ _).Runs s (first, last) s')
    (hh : s.handle? v = some handle) :
    s' = s ∧ KeyLowered S c origin key G s handle first last G s := by
  unfold variableKeys at hk
  split at hk
  · rename_i d hd
    obtain ⟨rfl, hle, -, -, hfar, hrange⟩ := runs_keysWithin hk
    have hupper : keyUpper c.workspace key = d.upper := by simp [keyUpper, hkey, hd]
    refine ⟨rfl, .refl hw.valid, hw, hw.handles hh, hle, ?_, hupper ▸ hfar, ?_, .refl⟩
    · intro ρ r _ hm
      refine means_of_unwrapped (by simp [hkey, Term.isNode]) (by simp [hkey, Term.isConst]) ?_
      rw [hkey]
      exact Reader.means_var (hm v handle hh)
    · intro r k hbounded hnear hmeans h0 hcount
      obtain ⟨x, hx, hxk, -⟩ :=
        gives_unwrapped (by simp [hkey, Term.isNode]) (by simp [hkey, Term.isConst]) hmeans
      rw [hkey] at hx
      obtain ⟨d', hd', hb⟩ := hbounded v (hw.known hh)
      rw [hd] at hd'
      cases hd'
      obtain ⟨hlo, hhi⟩ := hb x hx
      rw [hxk] at hlo hhi
      refine hrange k h0 hcount hlo hhi fun hinf => hnear k hmeans (hupper.trans hinf) ?_
      simpa [keyVariables, hkey, Context.vars] using hw.known hh
  · exact absurd hk runs_fail

/-- A selected member with a value is one of the members of its family. -/
theorem exists_member {w : Workspace Exact} {m : ModelId} {r : Reader w m} {id : NodeId}
    {f : FamilyId} {i : VarId} {x : Reading Exact}
    (h : (r.argument none (.selected id f i)).value () = .ok (some x)) :
    ∃ v ∈ w.members f, r.read v = .ok (some x) := by
  simp only [Reader.argument, Assignment.argument, Assignment.readMember] at h
  obtain ⟨index, -, h⟩ := Outcome.exists_of_andThen h
  split at h
  · cases h
  split at h
  · split at h
    · rename_i v hv
      exact ⟨v, List.mem_of_getElem? hv, h⟩
    · cases h
  · cases h

omit [Numeral ν] in
/-- The range of keys of a selected member holds every key of the model that a member can be. -/
theorem range_of_selectedKeys (origin : NodeId → Option (Term Exact)) {key : Term Exact}
    {id : NodeId} {f : FamilyId} {i : VarId} {first last : ℤ} (hkey : key.unwrapped = .selected id f i)
    (hk : (selectedKeys c id f i : LowerM Exact ν σ _).Runs s (first, last) s') :
    s' = s ∧ first ≤ last ∧ (keyUpper c.workspace key = .posInf → last ≤ farAway) ∧
      ∀ (r : Reader c.workspace c.model) (k : ℤ), (∀ v ∈ c.workspace.members f, v ∈ c.vars) →
        r.Bounded → r.Near origin key → r.Means origin key k → 0 ≤ k → k < c.keyCount →
          first ≤ k ∧ k ≤ last := by
  unfold selectedKeys at hk
  split at hk
  · exact absurd hk runs_fail
  rename_i d ds hds
  obtain ⟨rfl, hle, hlo, hhi, hfar, hrange⟩ := runs_keysWithin hk
  have hupper : keyUpper c.workspace key = Scalar.greatest d.upper (ds.map (·.upper)) := by
    simp only [keyUpper, hkey, hds]
  refine ⟨rfl, hle, hupper ▸ hfar, ?_⟩
  intro r k hvars hbounded hnear hmeans h0 hcount
  obtain ⟨x, hx, hxk, -⟩ :=
    gives_unwrapped (by simp [hkey, Term.isNode]) (by simp [hkey, Term.isConst]) hmeans
  rw [hkey] at hx
  obtain ⟨v, hv, hread⟩ := exists_member hx
  obtain ⟨d', hd', hb⟩ := hbounded v (hvars v hv)
  obtain ⟨hlower, hup⟩ := hb x hread
  rw [hxk] at hlower hup
  have hmem : d' ∈ d :: ds := hds ▸ List.mem_filterMap.mpr ⟨v, hv, hd'⟩
  refine hrange k h0 hcount (Scalar.least_le hlo ?_) (Scalar.le_greatest hhi ?_)
    fun hinf => hnear k hmeans (hupper.trans hinf) (by
      simpa [keyVariables, hkey, Context.vars] using hvars)
  · refine ⟨d'.lower, ?_, hlower⟩
    simpa using List.mem_map_of_mem (f := (·.lower)) hmem
  · refine ⟨d'.upper, ?_, hup⟩
    simpa using List.mem_map_of_mem (f := (·.upper)) hmem

omit [Numeral ν] in
/-- A selected member that is defined is one of the members of its family, which have handles. -/
theorem exists_means_selected (origin : NodeId → Option (Term Exact)) {key : Term Exact}
    {id : NodeId} {f : FamilyId} {i : VarId} {r : Reader c.workspace c.model} {ρ : HandleId → V}
    (hsel : key.unwrapped = .selected id f i) (hd : r.Defined key) (hm : Matched S s ρ r)
    (hhandles : ∀ v ∈ c.workspace.members f, ∃ h, s.handle? v = some h) :
    ∃ k, r.Means origin key k := by
  obtain ⟨x, hx⟩ := hd _ key.within_unwrapped (by simp [hsel, Term.isCollection, Term.operator?])
  rw [hsel] at hx
  obtain ⟨v, hv, hread⟩ := exists_member hx
  obtain ⟨h, hh⟩ := hhandles v hv
  have hstored := hm v h hh
  obtain rfl : x = ⟨.finite (S.int ρ h), some (.stored v)⟩ := by
    simpa using hread.symm.trans hstored
  refine ⟨S.int ρ h, means_of_unwrapped (by simp [hsel, Term.isNode])
    (by simp [hsel, Term.isConst]) ?_⟩
  rw [hsel]
  exact fun p _ => ⟨_, hx, rfl, hstored⟩

/-- A selected member as a key is a new integer in the range of keys, equal to the selected member. -/
theorem keyLowered_selected (hB : Faithful B S c) {key : Term Exact} {id : NodeId} {f : FamilyId}
    {i : VarId} {handle : Handle ν} {first last : ℤ} {s₁ : LoweringState ν σ}
    (hw : Walked S c origin G s) (hkey : key.WellBuilt origin)
    (hsel : key.unwrapped = .selected id f i)
    (hk : (selectedKeys c id f i : LowerM Exact ν σ _).Runs s (first, last) s₁)
    (hr : (do
      let handle ← B.newInteger first last "key"
      let value ← memoized id (lowerSelected B c f i)
      B.postEqual handle value
      return handle).Runs s₁ handle s') :
    ∃ G', KeyLowered S c origin key G s handle first last G' s' := by
  simp only [runs_bind, runs_pure] at hr
  obtain ⟨h, s₂, hnew, value, s₃, hval, _, s₄, hpost, rfl, rfl⟩ := hr
  obtain ⟨rfl, hle, hfar, hrange⟩ := range_of_selectedKeys origin hsel hk
  have ho : origin id = some (.selected id f i) :=
    hkey.registered (hsel ▸ key.within_unwrapped) rfl
  obtain ⟨G₂, g₂, u₂, b₂, e₂⟩ := hB.newInteger hw.valid hnew
  have w₂ := hw.step g₂
  obtain ⟨G₃, g₃, w₃, u₃, k₃, b₃, e₃⟩ :=
    memoized_lowers hB ho (selected_lowers hB id f i) w₂ hval
  have held : ∀ a ∈ [h, value], S.Held G₃ s₃ a := by
    simpa using ⟨(u₂.mono g₃).toHeld, u₃.toHeld⟩
  obtain ⟨G₄, g₄, b₄, e₄⟩ := hB.postEqual h value w₃.valid held hpost
  have g₂₄ := g₃.trans g₄.toGrows
  have hhandles : ∀ v ∈ c.workspace.members f, ∃ x, s₂.handle? v = some x := k₃ id f i rfl
  have hvars : ∀ v ∈ c.workspace.members f, v ∈ c.vars := fun v hv =>
    (hhandles v hv).elim fun _ hh => w₂.known hh
  refine ⟨G₄, g₂.toGrows.trans g₂₄, w₃.step g₄, u₂.mono g₂₄, hle, ?_, hfar,
    fun r k => hrange r k hvars, ?_⟩
  · intro ρ r hρ hm
    refine means_of_unwrapped (by simp [hsel, Term.isNode]) (by simp [hsel, Term.isConst]) ?_
    rw [hsel, b₄ ρ hρ]
    exact (b₃ ρ r (g₄.admits ρ hρ) ((matched_iff g₂.handles_eq).mpr hm)).means
  · -- The new variable takes the key's value, so that it equals the selected member.
    rintro ρ hcalm hρ ⟨r, hm, hd, hb, hn, hcount⟩
    obtain ⟨k, hmk⟩ := exists_means_selected origin hsel hd hm fun v hv =>
      (hhandles v hv).imp fun x hx => (handle?_eq g₂.handles_eq v).symm.trans hx
    obtain ⟨h0, hc⟩ := hcount k hmk
    obtain ⟨hfirst, hlast⟩ := hrange r k hvars hb hn hmk h0 hc
    obtain ⟨ρ₂, ha₂, hρ₂, hv₂⟩ := e₂ k hfirst hlast ρ (g₂₄.calm hcalm) hρ
    have hm₂ : Matched S s₂ ρ₂ r := (matched_iff g₂.handles_eq).mpr (hm.congr hB hw ha₂)
    have hready : r.Ready origin (.selected id f i) :=
      ⟨hd.within (hsel ▸ key.within_unwrapped), hb, fun hk => by cases hk⟩
    obtain ⟨ρ₃, ha₃, hρ₃⟩ := e₃ ρ₂ (g₄.calm hcalm) hρ₂ ⟨r, hm₂, by simpa using hready⟩
    have hvalue : S.int ρ₃ value = k := by
      have hselected := (b₃ ρ₃ r hρ₃ (hm₂.congr hB w₂ ha₃)).means.gives
      have hkey' := gives_unwrapped (by simp [hsel, Term.isNode]) (by simp [hsel, Term.isConst]) hmk
      rw [hsel] at hkey'
      exact hselected.unique hkey'
    have hhandle : S.int ρ₃ h = k :=
      (hB.int_congr w₂.valid.world u₂.mem ha₃).symm.trans hv₂
    obtain ⟨ρ₄, ha₄, hρ₄⟩ := e₄ ρ₃ hcalm hρ₃ (hhandle.trans hvalue.symm)
    exact ⟨ρ₄, ha₂.trans g₂.next_le (ha₃.trans g₃.next_le ha₄), hρ₄⟩

omit [Numeral ν] in
theorem runs_variableKeys {v : VarId} {p : ℤ × ℤ}
    (hr : (variableKeys c v : LowerM Exact ν σ _).Runs s p s') : s' = s := by
  unfold variableKeys at hr
  split at hr
  · exact (runs_keysWithin hr).1
  · exact absurd hr runs_fail

/-- A key that is a variable is its handle, with the keys that the variable can take. -/
theorem runs_keyDomain_var {key : Term Exact} {v : VarId} {handle : Handle ν} {keys : List ℤ}
    (hkey : key.unwrapped = .var v) (hr : (keyDomain B c key).Runs s (handle, keys) s') :
    ∃ p, (variableKeys c v : LowerM Exact ν σ _).Runs s p s ∧ s.handle? v = some handle ∧
      keys = keyRange p.1 p.2 ∧ s' = s := by
  unfold keyDomain at hr
  cases hl : c.hasLookup
  · simp only [hl, Bool.not_false, if_true] at hr
    split at hr <;> simp [runs_bind] at hr
  simp only [hl, Bool.not_true, Bool.false_eq_true, if_false, hkey, runs_bind, runs_pure,
    Prod.mk.injEq] at hr
  obtain ⟨p, s₁, hk, h, s₂, hh, ⟨rfl, rfl⟩, rfl⟩ := hr
  obtain ⟨hh, rfl⟩ := runs_variableHandle.mp hh
  obtain rfl := runs_variableKeys hk
  exact ⟨p, hk, hh, rfl, rfl⟩

theorem keyDomain_lowers (hB : Faithful B S c) {key : Term Exact} {handle : Handle ν} {keys : List ℤ}
    (hw : Walked S c origin G s) (hkey : key.WellBuilt origin)
    (hr : (keyDomain B c key).Runs s (handle, keys) s') :
    ∃ first last G', keys = keyRange first last ∧
      KeyLowered S c origin key G s handle first last G' s' := by
  by_cases hvar : ∃ v, key.unwrapped = .var v
  · obtain ⟨v, hv⟩ := hvar
    obtain ⟨⟨first, last⟩, hk, hh, rfl, rfl⟩ := runs_keyDomain_var hv hr
    exact ⟨first, last, G, rfl, (keyLowered_var hw hv hk hh).2⟩
  unfold keyDomain at hr
  cases hl : c.hasLookup
  · simp only [hl, Bool.not_false, if_true] at hr
    split at hr <;> simp [runs_bind] at hr
  simp only [hl, Bool.not_true, Bool.false_eq_true, if_false] at hr
  split at hr
  · rename_i v hv
    exact absurd ⟨v, hv⟩ hvar
  · rename_i id f i hsel
    simp only [runs_bind, runs_pure, Prod.mk.injEq] at hr
    obtain ⟨⟨first, last⟩, s₁, hk, h, s₂, hnew, value, s₃, hval, _, s₄, hpost, ⟨rfl, rfl⟩, rfl⟩ := hr
    obtain ⟨G', hG⟩ := keyLowered_selected hB hw hkey hsel hk (by
      simp only [runs_bind, runs_pure]
      exact ⟨h, s₂, hnew, value, s₃, hval, _, s₄, hpost, rfl, rfl⟩)
    exact ⟨first, last, G', rfl, hG⟩
  · simp [runs_bind] at hr

end DecisionModel
