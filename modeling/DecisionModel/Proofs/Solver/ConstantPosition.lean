import DecisionModel.Proofs.Lowering.Memo
import DecisionModel.Proofs.Tolerant.Faithful
import DecisionModel.Proofs.Tolerant.Solvers

/-!
# Entries at a constant position

The position of an entry may be a constant that is no integer; evaluation then reads the entry at the
nearest integer, and so does lowering under a constant key. Under a key that the solver chooses lowering
rounds only to see whether the position is in range, and packs the constant as it is into the index of
the flat table. Main result: `constant_position_agrees`, by which the keys that are left are those whose
collection has the entry if the constant is an integer, and none otherwise
(`Ragged.halfway_admits_nothing`).
-/

namespace DecisionModel

open LowerM Backend

/-- The two ways to write the entry at a position of the collection under a key. -/
def positionedTerms (id cid : NodeId) (u key : Term Exact) : List (Term Exact) :=
  [.node id .entry [.node cid .collection [key], u],
    .node id (.custom "at") [u, .node cid .collection [key]]]

/-- The two ways to write the entry at a constant position of the collection under a key. -/
def entryTerms (id cid : NodeId) (x : Exact) (key : Term Exact) : List (Term Exact) :=
  [.node id .entry [.node cid .collection [key], .const x],
    .node id (.custom "at") [.const x, .node cid .collection [key]]]

/-- The entry at the integer nearest to `q` of the collection under the key. -/
def EntryAt (c : Context Exact) (q : ℚ) (k : ℤ) (y : Exact) : Prop :=
  ∃ xs, Reader.CollectionAt c.workspace c.model k xs ∧ Reader.entry? xs (roundHalfEven q) = some y

/-- The collections of the model consist of finite numbers. -/
def FiniteCollections (c : Context Exact) : Prop :=
  ∀ k xs, Reader.CollectionAt c.workspace c.model k xs → ∀ x ∈ xs, ∃ r, x = .finite r

variable {ν σ : Type} [Numeral ν] {B : Backend Exact ν σ} {c : Context Exact} {id cid : NodeId}
  {x y : Exact} {q : ℚ} {k : ℤ} {key t : Term Exact}

/-! ### Evaluation -/

theorem evaluateEntry_iff {a b : Argument Exact} {r : Reading Exact} {cc : CollectionArgument Exact}
    (ha : a.value () = .ok (some r)) (hq : r.value = .finite q) (hc : b.collection = some cc) :
    Outcome.ofReading (Operator.evaluateEntry [a, b]) = .ok (some y) ↔
      ∃ xs, cc.values () = .ok (some xs) ∧ Reader.entry? xs (roundHalfEven q) = some y := by
  simp only [Operator.evaluateEntry, Argument.nth, List.getElem?_cons_zero, ha, hq, Outcome.andThen,
    Scalar.exact_exact, Exact.round, Exact.toIntBy, List.tail_cons, Argument.soleCollection?, hc]
  rcases cc.values () with e | _ | xs
  · simp [Outcome.ofReading, Except.map]
  · simp [Outcome.ofReading, Except.map]
  · simp only [Except.ok.injEq, Option.some.injEq, exists_eq_left']
    split
    · rename_i hrange
      have hlt : (roundHalfEven q).toNat - 1 < xs.length := by omega
      simp [hrange, Reader.entry?, List.getElem?_eq_getElem hlt, Outcome.ofReading, Outcome.value,
        Reading.computed, Except.map]
    · rename_i hrange
      refine iff_of_false ?_ fun h => hrange (Reader.range_of_entry h)
      split <;> simp [Outcome.ofReading, Except.map]

/-- Evaluation reads the entry at the position under the key, where these are evaluated. -/
theorem evaluate_positioned_iff {u : Term Exact} {sol : Solution Exact}
    (ht : t ∈ positionedTerms id cid u key) (hmodel : sol.model = c.model)
    (hevaluators : sol.evaluators = []) (hu : sol.evaluate c.workspace u = .ok (some (.finite q)))
    (hk : sol.evaluate c.workspace key = .ok (some (.finite k))) :
    sol.evaluate c.workspace t = .ok (some y) ↔ EntryAt c q k y := by
  have hentry : ∀ p p', Outcome.ofReading (Operator.evaluateEntry
      [sol.assignment.argument c.workspace
          (sol.assignment.readVariable c.workspace (c.workspace.vars.size + 1)) p u,
        sol.assignment.argument c.workspace
          (sol.assignment.readVariable c.workspace (c.workspace.vars.size + 1)) p'
          (.node cid .collection [key])]) = .ok (some y) ↔ EntryAt c q k y := fun p p' => by
    obtain ⟨r, hr, hq⟩ := Assignment.exists_reading none p hu
    obtain ⟨r', hr', hk'⟩ := Assignment.exists_reading none (some (.constant cid 0)) hk
    refine (evaluateEntry_iff hr hq (by rw [Assignment.argument, if_pos rfl])).trans
      (exists_congr fun xs => and_congr_left fun _ => ?_)
    simp only [Assignment.arguments, Argument.nth, List.getElem?_cons_zero, hr',
      Assignment.readCollection, Outcome.andThen, hk', Scalar.exact_exact, Exact.round_int,
      show sol.assignment.model = c.model from hmodel, Reader.CollectionAt]
    rcases c.workspace.collection c.model k with e | e | ys <;> simp
  simp only [positionedTerms, List.mem_cons, List.not_mem_nil, or_false] at ht
  rcases ht with rfl | rfl
  · exact hentry (some (.constant id 1)) (some (.constant id 0))
  · have hcustom : sol.assignment.custom "at" = some Operator.evaluateEntry := by
      simp [Assignment.custom, Solution.assignment, hevaluators, Operator.builtin?]
    rw [← hentry (some (.constant id 0)) (some (.constant id 1))]
    simp only [Solution.evaluate, Assignment.evaluate, Assignment.readWith, Assignment.argument,
      Assignment.arguments, reduceCtorEq, if_false, Operator.evaluate, hcustom]

/-- Evaluation reads the entry under the key that is stored. -/
theorem evaluate_entry_iff {v : VarId} {sol : Solution Exact}
    (ht : t ∈ entryTerms id cid (.finite q) (.var v)) (hmodel : sol.model = c.model)
    (hevaluators : sol.evaluators = []) (hk : sol.stored? v = some (.finite k)) :
    sol.evaluate c.workspace t = .ok (some y) ↔ EntryAt c q k y := by
  refine evaluate_positioned_iff (u := .const (.finite q)) ht hmodel hevaluators rfl ?_
  unfold Solution.evaluate Assignment.evaluate Assignment.readWith Assignment.argument
    Assignment.readVariable
  rw [show sol.assignment.stored v = some (.finite k) from hk]
  rfl

/-! ### Lowering under a constant key -/

/-- Either way the entry is lowered alike, and once. -/
theorem translate_positioned {u : Term Exact} (ht : t ∈ positionedTerms id cid u key) :
    Backend.translate B c t =
      memoized id (lowerEntry B c (.node cid .collection [key]) (Backend.translate B c u)) := by
  simp only [positionedTerms, List.mem_cons, List.not_mem_nil, or_false] at ht
  rcases ht with rfl | rfl
  · rw [Backend.translate]
    simp [lowerNode, operandsOf, Operand.nth]
  · rw [Backend.translate]
    simp [lowerNode, operandsOf, lowerCustom, Operand.soleCollection?, Term.isCollection, Term.operator?]

theorem translate_entry (ht : t ∈ entryTerms id cid x key) :
    Backend.translate B c t =
      memoized id (lowerEntry B c (.node cid .collection [key]) (B.constant x)) := by
  rw [translate_positioned (u := .const x) ht]
  simp only [Backend.translate]

namespace Tolerant

variable {P : Primitives Exact σ} {s s' : TolerantState σ} {h : Expr}

theorem mapM_constant (xs : List Exact) :
    xs.mapM (backend P).constant = (pure (xs.map scalar) : TolerantM Exact σ (List Expr)) :=
  List.mapM_pure

theorem runs_element_const {xs : List Exact} :
    (element (backend P) (scalar (.finite q))
      ((xs.map scalar).mapIdx fun i h => ((i : ℤ) + 1, h))).Runs s h s' ↔
        (∃ y, Reader.entry? xs (roundHalfEven q) = some y ∧ h = scalar y) ∧ s' = s := by
  have hfind := Reader.find?_positions (xs.map (scalar (α := Exact))) (roundHalfEven q)
  rw [Reader.entry?_map] at hfind
  have hnumber : (scalar (.finite q) : Expr).number? = some (.real (.finite q)) := rfl
  have hround : Numeral.round (Number.real (Exact.finite q)) = .ok (roundHalfEven q) := rfl
  simp only [element, hnumber, hround, runs_bind, runs_lift, Except.ok.injEq]
  constructor
  · rintro ⟨_, _, ⟨rfl, rfl⟩, hr⟩
    split at hr
    · rename_i h' hh'
      obtain ⟨rfl, rfl⟩ := runs_pure.mp hr
      obtain ⟨y, hy, rfl⟩ := Option.map_eq_some_iff.mp (hfind.symm.trans hh')
      exact ⟨⟨y, hy, rfl⟩, rfl⟩
    · split at hr <;> exact absurd hr runs_fail
  · rintro ⟨⟨y, hy, rfl⟩, rfl⟩
    refine ⟨_, _, ⟨rfl, rfl⟩, ?_⟩
    rw [hfind, hy]
    exact runs_pure.mpr ⟨rfl, rfl⟩

/-- Under a constant key the entry is a number. -/
theorem runs_lowerEntry_const :
    (lowerEntry (backend P) c (.node cid .collection [.const (.finite k)])
      ((backend P).constant (.finite q))).Runs s h s' ↔
        (∃ y, EntryAt c q k y ∧ h = scalar y) ∧ s' = s := by
  have hread : ∀ (xs : List Exact), (do
      if xs.isEmpty then .fail (.emptyCollection k)
      let handles ← xs.mapM (backend P).constant
      element (backend P) (scalar (.finite q)) (handles.mapIdx fun i h => ((i : ℤ) + 1, h)) :
        TolerantM Exact σ Expr).Runs s h s' ↔
      (∃ y, Reader.entry? xs (roundHalfEven q) = some y ∧ h = scalar y) ∧ s' = s := by
    intro xs
    cases xs with
    | nil => simp [runs_bind, Reader.entry?]
    | cons x xs =>
      rw [mapM_constant]
      exact runs_element_const (P := P)
  have hlower : lowerEntry (backend P) c (.node cid .collection [.const (.finite k)])
      ((backend P).constant (.finite q)) = (do
        let key ← LowerM.lift ((Exact.finite k).round)
        let xs ← c.collection key
        if xs.isEmpty then .fail (.emptyCollection key)
        let handles ← xs.mapM (backend P).constant
        element (backend P) (scalar (.finite q))
          (handles.mapIdx fun i h => ((i : ℤ) + 1, h))) := rfl
  rw [hlower, Exact.round_int]
  simp only [runs_bind (m := LowerM.lift _), runs_bind (m := c.collection _), runs_lift, runs_collection]
  constructor
  · rintro ⟨_, _, ⟨⟨⟩, rfl⟩, xs, _, ⟨hxs, rfl⟩, hr⟩
    obtain ⟨⟨y, hy, hh⟩, hs⟩ := (hread xs).mp hr
    exact ⟨⟨y, ⟨xs, hxs, hy⟩, hh⟩, hs⟩
  · rintro ⟨⟨y, ⟨xs, hxs, hy⟩, hh⟩, hs⟩
    exact ⟨_, _, ⟨rfl, rfl⟩, xs, _, ⟨hxs, rfl⟩, (hread xs).mpr ⟨⟨y, hy, hh⟩, hs⟩⟩

theorem runs_constant_key (ht : t ∈ entryTerms id cid (.finite q) (.const (.finite k)))
    (hid : s.memo? id = none) :
    (∃ s', (Backend.translate (backend P) c t).Runs s h s') ↔ ∃ y, EntryAt c q k y ∧ h = scalar y := by
  rw [translate_entry ht]
  simp only [runs_memoized, hid, reduceCtorEq, false_and, false_or, true_and, runs_lowerEntry_const]
  constructor
  · rintro ⟨_, _, ⟨h, rfl⟩, rfl⟩
    exact h
  · exact fun h => ⟨_, s, ⟨h, rfl⟩, rfl⟩

/-! ### Lowering under a key that the solver chooses -/

variable {G : Set Expr} {key column flat : Expr} {first last : ℤ} {ρ : HandleId → ℚ}

/-- An equation of finite terms, one of which is no number. -/
theorem postEqual_settles (hP : Documented P) {x y : Expr} (hv : (semantics σ).Valid G s) (hx : x ∈ G)
    (hy : y ∈ G) (hterm : x.number? = none ∨ y.number? = none)
    (hr : (postEqual P x y).Runs s () s') :
    ∃ G' C, Settles G s G' s' C ∧ ∀ ρ p q, value ρ x = .finite p → value ρ y = .finite q →
      (C ρ ↔ p = q) := by
  obtain ⟨d, s₁, hsub, hconstrain⟩ := runs_bind.mp hr
  obtain ⟨G₁, hs, hd, hvalue⟩ := gives_sub hv.world hx hy hsub
  have g₁ := hs.settles hv
  obtain ⟨G₂, g₂⟩ := constrain_term hP g₁.valid hd (number?_binary hsub hterm) hconstrain
  refine ⟨G₂, _, g₁.after g₂, fun ρ p q hp hq => ?_⟩
  rw [hvalue, hp, hq, Exact.finite_sub]
  change (Exact.finite 0).le _ = true ∧ Exact.le _ (.finite 0) = true ↔ _
  rw [Exact.finite_le, Exact.finite_le, decide_eq_true_iff, decide_eq_true_iff, and_comm,
    ← le_antisymm_iff, sub_eq_zero]

/-- The place of a key and a constant position in the flat table, which is a new integer. -/
theorem flatIndex_spec (hP : Documented P) {count width : ℕ} (hv : (semantics σ).Valid G s)
    (hkey : (semantics σ).Usable G s key) (hcolumn : column ∈ G)
    (hq : ∀ ρ, value ρ column = .finite q)
    (hr : (flatIndex (backend P) count width first key column).Runs s flat s') :
    ∃ G', (semantics σ).Step G s G' s' ∧ (semantics σ).Usable G' s' flat ∧
      (∀ ρ, Admitted ρ s' → ((semantics σ).int ρ flat : ℚ) =
        ((semantics σ).int ρ key - first) * width + q - 1) ∧
      (semantics σ).Extends s s' fun ρ => ∃ n : ℤ,
        (n : ℚ) = ((semantics σ).int ρ key - first) * width + q - 1 ∧ 0 ≤ n ∧
          n ≤ ((count * width : ℕ) : ℤ) - 1 := by
  simp only [flatIndex, runs_bind, runs_pure] at hr
  obtain ⟨flat', s₁, hnew, row, s₂, hrow, start, s₃, hstart, sum, s₄, hsum, position, s₅, hposition,
    _, s₆, hpost, rfl, rfl⟩ := hr
  obtain ⟨G₁, g₁, hflat, hfresh⟩ := newInteger_spec hP hv hnew
  obtain ⟨u₁, -, hreach⟩ := hfresh.reaches (show VariableKind.integer ≠ .real by simp) hflat
  obtain ⟨G₅, hs, hmem, hvalue⟩ : Silent.Gives G₁ s₁ position s₅ fun ρ x =>
      (semantics σ).Integral ρ key → ∀ q, value ρ column = .finite q →
        x = .finite (((semantics σ).int ρ key - first) * (width : ℤ) + q - (1 : ℤ)) :=
    gives_position g₁.valid.world (g₁.subset hkey.mem) (g₁.subset hcolumn) (runs_bind.mpr ⟨row, s₂, hrow,
      runs_bind.mpr ⟨start, s₃, hstart, runs_bind.mpr ⟨sum, s₄, hsum, hposition⟩⟩⟩)
  have g₅ := hs.settles g₁.valid
  obtain ⟨G₆, C, g₆, hC⟩ := postEqual_settles hP g₅.valid (g₅.subset hflat) hmem (.inl hfresh.term) hpost
  have hequation : ∀ ρ, Admitted ρ s₁ → (C ρ ↔ ((semantics σ).int ρ flat' : ℚ) =
      ((semantics σ).int ρ key - first) * width + q - 1) := fun ρ hρ => by
    refine hC ρ _ _ (value_eq (u₁.integral ρ hρ)) ?_
    rw [hvalue ρ (hkey.integral ρ (g₁.admits ρ hρ)) q (hq ρ)]
    simp
  refine ⟨G₆, g₁.trans (g₅.after g₆).toStep, u₁.mono (g₅.after g₆).toGrows, fun ρ hρ => ?_, ?_⟩
  · have hρ₅ := g₆.admits ρ hρ
    exact (hequation ρ (g₅.admits ρ hρ₅)).mp (g₆.holds hρ)
  · rintro ρ - hρ ⟨n, hn, h0, hlast⟩
    have hbetween : Between (.finite (0 : ℤ)) (.finite ((count * width : ℕ) - 1 : ℤ)) (.finite n) := by
      rw [Between, Exact.finite_le, Exact.finite_le, decide_eq_true_iff, decide_eq_true_iff]
      exact_mod_cast And.intro h0 hlast
    obtain ⟨ρ₁, ha, hρ₁, hflatn⟩ := hreach n ⟨n, rfl⟩ hbetween ρ trivial hρ
    refine ⟨ρ₁, ha, (g₆.admitted_iff ρ₁).mpr ⟨(g₅.admitted_iff ρ₁).mpr ⟨hρ₁, trivial⟩,
      (hequation ρ₁ hρ₁).mpr ?_⟩⟩
    have hsame : (semantics σ).int ρ₁ key = (semantics σ).int ρ key :=
      congrArg intOf (value_congr hv.world hkey.mem ha).symm
    rw [hflatn, hsame, hn]

/-- A constant column is the constant itself, of which only the nearest integer is looked at. -/
theorem runs_columnOf {width : ℕ}
    (hr : (columnOf (backend P) width (scalar (.finite q))).Runs s column s') :
    column = scalar (.finite q) ∧ s' = s ∧ 1 ≤ roundHalfEven q ∧ roundHalfEven q ≤ width := by
  obtain ⟨_, _, hround, hreturn⟩ := runs_bind.mp hr
  obtain ⟨⟨⟩, rfl⟩ := runs_lift.mp hround
  split at hreturn
  · simp at hreturn
  · obtain ⟨rfl, rfl⟩ := runs_pure.mp hreturn
    exact ⟨rfl, rfl, by omega, by omega⟩

/-- The handle is the number, which is finite if the collections are. -/
structure IsConstant (c : Context Exact) (x : Exact) (h : Expr) : Prop where
  handle_eq : h = scalar x
  finite : FiniteCollections c → ∃ q, x = .finite q

theorem IsConstant.value_eq (hx : IsConstant c x h) : value ρ h = x := by
  rw [hx.handle_eq, scalar, value_const, exact_real]

theorem runs_entries (xs : List Exact) (hs : List Expr) (k : ℤ)
    (hk : Reader.CollectionAt c.workspace c.model k xs) (s s' : TolerantState σ)
    (hr : (xs.mapM (backend P).constant).Runs s hs s') : s' = s ∧ List.Forall₂ (IsConstant c) xs hs := by
  rw [mapM_constant, runs_pure] at hr
  obtain ⟨rfl, rfl⟩ := hr
  exact ⟨rfl, List.forall₂_map_right_iff.mpr (List.forall₂_same.mpr fun x hx =>
    ⟨rfl, fun hfinite => hfinite k xs hk x hx⟩)⟩

theorem finite_of_flatEntries {width : ℕ} {rows : List (List Expr)}
    (hrows : Rows c (IsConstant c) first last width rows) (hfinite : FiniteCollections c) :
    ∀ e ∈ flatEntries width rows, ∃ q, value ρ e.2 = .finite q := fun e he => by
  obtain ⟨x, hx⟩ := hrows.related he
  obtain ⟨q, rfl⟩ := hx.finite hfinite
  exact ⟨q, hx.value_eq⟩

/-- The entry at a constant position of the collection under one of several keys: the place of the
constant itself in the flat table is looked up, which there is only if the constant is an integer. -/
theorem entryByKey_spec (hP : Documented P) (hle : first ≤ last) (hv : (semantics σ).Valid G s)
    (hkey : (semantics σ).Usable G s key)
    (hr : (entryByKey (backend P) c key (keyRange first last) (scalar (.finite q))).Runs s h s') :
    ∃ G', (semantics σ).Step G s G' s' ∧ 1 ≤ roundHalfEven q ∧
      (∀ ρ, Admitted ρ s' → (∃ n : ℤ, q = n) ∧ first ≤ (semantics σ).int ρ key ∧
        (semantics σ).int ρ key ≤ last ∧ ∃ y, EntryAt c q ((semantics σ).int ρ key) y ∧
          (FiniteCollections c → value ρ h = y)) ∧
      (semantics σ).Extends s s' fun ρ => (∃ n : ℤ, q = n) ∧ first ≤ (semantics σ).int ρ key ∧
        (semantics σ).int ρ key ≤ last ∧ ∃ y, EntryAt c q ((semantics σ).int ρ key) y := by
  obtain ⟨width, rows, column, flat, s₂, s₃, hrows, -, hcolumn, hflat, hlookup⟩ :=
    runs_entryByKey hle (runs_entries (P := P)) hr
  obtain ⟨rfl, rfl, h1, hwidth⟩ := runs_columnOf hcolumn
  obtain ⟨G₃, g₃, u₃, b₃, e₃⟩ := flatIndex_spec hP (q := q) hv hkey (hv.world.const_mem _)
    (fun _ => value_const _) hflat
  obtain ⟨G₄, g₄, -, b₄, e₄⟩ := lookup_spec hP g₃.valid u₃ (fun e he => by
    obtain ⟨x, hx⟩ := hrows.related he
    exact hx.handle_eq ▸ g₃.valid.world.const_mem _) hlookup
  refine ⟨G₄, g₃.trans g₄, h1, fun ρ hρ => ?_, e₃.trans g₃.toGrows g₄.toGrows e₄ ?_ ?_⟩
  · have hplace := b₃ ρ (g₄.admits ρ hρ)
    obtain ⟨e, he, hindex, hvalue⟩ := b₄ ρ hρ
    -- The index is an integer, so the constant is one.
    obtain ⟨n, rfl⟩ : ∃ n : ℤ, q = n :=
      ⟨e.1 - ((semantics σ).int ρ key - first) * width + 1, by
        rw [hindex] at hplace
        push_cast
        linarith⟩
    rw [roundHalfEven_int] at h1 hwidth
    obtain ⟨hfirst, hlast, xs, x, hread, hentry, hx⟩ :=
      hrows.entry he h1 hwidth (hindex.symm.trans (by exact_mod_cast hplace))
    refine ⟨⟨n, rfl⟩, hfirst, hlast, x, ⟨xs, hread, by rwa [roundHalfEven_int]⟩, fun hfinite => ?_⟩
    rw [hvalue (finite_of_flatEntries hrows hfinite), hx.value_eq]
  · rintro ρ - ⟨⟨n, rfl⟩, hfirst, hlast, -⟩
    rw [roundHalfEven_int] at h1 hwidth
    obtain ⟨h0, hlt⟩ := flat_range hfirst hlast h1 hwidth
    exact ⟨((semantics σ).int ρ key - first) * width + n - 1, by push_cast; rfl, h0, hlt⟩
  · rintro ρ ρ₃ - ⟨⟨n, rfl⟩, hfirst, hlast, y, xs, hread, hentry⟩ ha hρ₃
    rw [roundHalfEven_int] at hentry
    obtain ⟨h1, hlen⟩ := Reader.range_of_entry hentry
    obtain ⟨-, e, he, hplace⟩ := hrows.exists_entry hfirst hlast hread h1 hlen
    have hsame : (semantics σ).int ρ₃ key = (semantics σ).int ρ key :=
      congrArg intOf (value_congr hv.world hkey.mem ha).symm
    have hindex := b₃ ρ₃ hρ₃
    rw [hsame] at hindex
    exact ⟨e, he, hplace ▸ by exact_mod_cast hindex⟩

/-- Under a key that is a variable the position is lowered first, and then the entry by the key. -/
theorem runs_lowerEntry_var {v : VarId} {key : Term Exact} {lower : TolerantM Exact σ Expr}
    (hkey : key.unwrapped = .var v)
    (hr : (lowerEntry (backend P) c (.node cid .collection [key]) lower).Runs s h s') :
    ∃ index s₁ keys handle, lower.Runs s index s₁ ∧ (variableKeys c v).Runs s₁ keys s₁ ∧
      s₁.handle? v = some handle ∧
      (entryByKey (backend P) c handle (keyRange keys.1 keys.2) index).Runs s₁ h s' := by
  obtain ⟨_, _, hof, hr₁⟩ := runs_bind.mp hr
  obtain ⟨rfl, rfl⟩ := runs_keyOf.mp hof
  obtain ⟨index, s₁, hindex, hr₂⟩ := runs_bind.mp hr₁
  obtain ⟨key', _, hlift, hr₃⟩ := runs_bind.mp hr₂
  obtain ⟨hok, rfl⟩ := runs_lift.mp hlift
  obtain rfl := Except.ok.inj hok
  split at hr₃
  · simp [Term.unwrapped] at hkey
  obtain ⟨⟨handle, keys⟩, _, hdomain, hentry⟩ := runs_bind.mp hr₃
  obtain ⟨p, hkeys, hhandle, rfl, rfl⟩ := runs_keyDomain_var hkey hdomain
  exact ⟨index, _, p, handle, hindex, hkeys, hhandle, hentry⟩

/-- What an accepted entry under a variable asks for, and what it returns. -/
theorem entry_spec (hP : Documented P) {v : VarId} {d : Variable Exact}
    (hd : c.workspace.findVariable v = some d) (hhandle : s.handle? v = some key)
    (hv : (semantics σ).Valid G s) (hkey : (semantics σ).Usable G s key)
    (ht : t ∈ entryTerms id cid (.finite q) (.var v)) (hid : s.memo? id = none)
    (hr : (Backend.translate (backend P) c t).Runs s h s') :
    1 ≤ roundHalfEven q ∧ (∀ ρ, Admitted ρ s' → Admitted ρ s ∧ (∃ n : ℤ, q = n) ∧
        ∃ y, EntryAt c q ((semantics σ).int ρ key) y ∧ (FiniteCollections c → value ρ h = y)) ∧
      (semantics σ).Extends s s' fun ρ => (∃ n : ℤ, q = n) ∧ d.Within ((semantics σ).int ρ key) ∧
        (d.upper = .posInf → (semantics σ).int ρ key ≤ farAway) ∧
          ∃ y, EntryAt c q ((semantics σ).int ρ key) y := by
  rw [translate_entry ht] at hr
  obtain ⟨hmemo, -⟩ | ⟨-, s₁, hlower, rfl⟩ := runs_memoized.mp hr
  · simp [hid] at hmemo
  obtain ⟨_, _, ⟨first, last⟩, key', hindex, hkeys, hkey', hentry⟩ := runs_lowerEntry_var rfl hlower
  obtain ⟨rfl, rfl⟩ := runs_pure.mp hindex
  obtain rfl : key = key' := Option.some.inj (hhandle.symm.trans hkey')
  simp only [variableKeys, hd] at hkeys
  obtain ⟨-, hle, -, -, -, hrange⟩ := runs_keysWithin hkeys
  obtain ⟨G', g, h1, hsound, hextends⟩ := entryByKey_spec hP hle hv hkey hentry
  refine ⟨h1, fun ρ hρ => ?_, hextends.mono ?_⟩
  · obtain ⟨hq, -, -, hy⟩ := hsound ρ hρ
    exact ⟨g.admits ρ hρ, hq, hy⟩
  · rintro ρ - ⟨hq, hwithin, hfar, y, xs, hread, hy⟩
    obtain ⟨h0, hcount⟩ := Reader.key_of_collectionAt hread
    obtain ⟨hfirst, hlast⟩ := hrange _ h0 hcount hwithin.1 hwithin.2 hfar
    exact ⟨hq, hfirst, hlast, y, xs, hread, hy⟩

/-- For an accepted entry at a constant position under a variable, the keys that are left are those
under which the collection has at least as many entries as the constant rounds to, if the constant is an
integer, and none if it is not. The handle is the entry that evaluation reads, and that lowering under
the key itself returns as a number. -/
theorem constant_position_agrees (hP : Documented P) {v : VarId} {d : Variable Exact}
    (hd : c.workspace.findVariable v = some d) (hhandle : s.handle? v = some key)
    (hv : (semantics σ).Valid G s) (hkey : (semantics σ).Usable G s key)
    (hwithin : ∀ ρ, Admitted ρ s → d.Within ((semantics σ).int ρ key))
    (hcount : d.upper = .posInf → (c.keyCount : ℤ) ≤ farAway + 1)
    (ht : t ∈ entryTerms id cid (.finite q) (.var v)) (hid : s.memo? id = none)
    (hr : (Backend.translate (backend P) c t).Runs s h s') :
    {x | ∃ ρ, Admitted ρ s' ∧ value ρ key = x} =
        {x | (∃ n : ℤ, q = n) ∧ (∃ ρ, Admitted ρ s ∧ value ρ key = x) ∧ ∃ (k : ℤ) (xs : List Exact),
          x = .finite k ∧ Reader.CollectionAt c.workspace c.model k xs ∧
            roundHalfEven q ≤ xs.length} ∧
      (FiniteCollections c → ∀ ρ, Admitted ρ s' → ∃ k : ℤ, value ρ key = .finite k ∧
        EntryAt c q k (value ρ h) ∧
        (∀ sol : Solution Exact, sol.model = c.model → sol.evaluators = [] →
          sol.stored? v = some (.finite k) →
            sol.evaluate c.workspace t = .ok (some (value ρ h))) ∧
        ∀ {id' cid' : NodeId} {t' : Term Exact} {s₀ : TolerantState σ},
          t' ∈ entryTerms id' cid' (.finite q) (.const (.finite k)) → s₀.memo? id' = none →
            ∃ s₁, (Backend.translate (backend P) c t').Runs s₀ (scalar (value ρ h)) s₁) := by
  obtain ⟨h1, hsound, hextends⟩ := entry_spec hP hd hhandle hv hkey ht hid hr
  refine ⟨Set.ext fun x => ⟨?_, ?_⟩, fun hfinite ρ hρ => ?_⟩
  · rintro ⟨ρ, hρ, rfl⟩
    obtain ⟨hρ₀, hq, y, ⟨xs, hread, hentry⟩, -⟩ := hsound ρ hρ
    exact ⟨hq, ⟨ρ, hρ₀, rfl⟩, _, xs, value_eq (hkey.integral ρ hρ₀), hread,
      (Reader.range_of_entry hentry).2⟩
  · rintro ⟨hq, ⟨ρ, hρ, rfl⟩, k, xs, hk, hread, hlen⟩
    obtain rfl : (semantics σ).int ρ key = k := int_eq hk
    have hlt : (semantics σ).int ρ key < c.keyCount := (Reader.key_of_collectionAt hread).2
    obtain ⟨y, hentry⟩ : ∃ y, Reader.entry? xs (roundHalfEven q) = some y := by
      unfold Reader.entry?
      rw [if_pos h1]
      exact ⟨_, List.getElem?_eq_getElem (by omega)⟩
    obtain ⟨ρ', ha, hρ'⟩ := hextends ρ trivial hρ ⟨hq, hwithin ρ hρ,
      fun hinf => by have := hcount hinf; omega, y, xs, hread, hentry⟩
    exact ⟨ρ', hρ', (value_congr hv.world hkey.mem ha).symm⟩
  · obtain ⟨hρ₀, -, y, hentry, hvalue⟩ := hsound ρ hρ
    obtain rfl := hvalue hfinite
    exact ⟨_, value_eq (hkey.integral ρ hρ₀), hentry,
      fun sol hmodel hevaluators hk => (evaluate_entry_iff ht hmodel hevaluators hk).mpr hentry,
      fun ht' hid' => (runs_constant_key ht' hid').mpr ⟨_, hentry, rfl⟩⟩

/-! ### Collections of different lengths -/

namespace Ragged

/-- Two entries under the first key and one under the second. -/
def lookup (key : ℤ) : LookupAnswer Exact :=
  if key = 0 then .values [.int 1, .int 2] else if key = 1 then .values [.int 3] else .nothing

def chosenKey : Variable Exact where
  kind := .integer
  name := "k"
  lower := .finite 0
  upper := .finite 1

def context : Context Exact where
  workspace := {
    vars := #[chosenKey]
    models := #[{
      sense := .feasible
      objective := .node ⟨0⟩ .wrapper [.const (.finite 0)]
      vars := [⟨0⟩]
      lookup := some lookup
      keyCount := 2 }]
    nextNode := 3 }
  model := ⟨0⟩
  config := {}

/-- The entry at a position of the collection under a key. -/
def entry (q : ℚ) (key : Term Exact) : Term Exact :=
  .node ⟨2⟩ (.custom "at") [.const (.finite q), .node ⟨1⟩ .collection [key]]

def keyHandle : Expr := .leaf ⟨0⟩ "k" true

/-- Z3 was given the variable. -/
def lowered : Z3.Z3State Exact where
  nextHandle := 1
  handles := [(⟨0⟩, keyHandle)]
  solver := {
    epsilon := .real (.finite (1 / 1000000))
    created := #[⟨keyHandle, .integer, .finite 0, .finite 1, "k"⟩]
    solver := {} }

def handles : Set Expr := insert keyHandle World.numbers

theorem valid : (semantics (Z3.Solver Exact)).Valid handles lowered where
  world := (World.of_numbers 0).insert_leaf "k" true
  tables := {
    tolerance := ⟨1 / 1000000, rfl, by norm_num, by norm_num⟩
    created := fun {c} hc => by
      obtain rfl : c = _ := by simpa [lowered] using hc
      exact .inl rfl
    posted := fun hr => by simp [lowered] at hr
    binaries := fun hid => by simp [lowered] at hid
    booleans := fun hid => by simp [lowered] at hid }

theorem holds {ρ : HandleId → ℚ} (hρ : Admitted ρ lowered) :
    (⟨keyHandle, .integer, .finite 0, .finite 1, "k"⟩ : Created Exact).Holds ρ :=
  hρ.1.created (by simp [lowered])

theorem usable : (semantics (Z3.Solver Exact)).Usable handles lowered keyHandle :=
  ⟨⟨.inl rfl, fun _ hρ => (holds hρ).kind⟩, trivial⟩

theorem finiteCollections : FiniteCollections context := by
  intro k xs hxs x hx
  obtain ⟨h0, hcount⟩ := Reader.key_of_collectionAt hxs
  have hlt : k < 2 := hcount
  obtain rfl | rfl : k = 0 ∨ k = 1 := by omega
  · obtain rfl : [.finite (1 : ℤ), .finite (2 : ℤ)] = xs := Except.ok.inj (Except.ok.inj hxs)
    rcases (by simpa using hx : x = _ ∨ x = _) with rfl | rfl <;> exact ⟨_, rfl⟩
  · obtain rfl : [.finite (3 : ℤ)] = xs := Except.ok.inj (Except.ok.inj hxs)
    exact ⟨_, by simpa using hx⟩

/-- What lowering the entry under the variable leads to. -/
def result (q : ℚ) : Except (LoweringError Exact) Expr × Z3.Z3State Exact :=
  (Backend.translate (backend Z3.primitives) context (entry q (.var ⟨0⟩))).run.run lowered

theorem evaluated : (result 2).1.toOption.isSome = true ∧ (result (3 / 2)).1.toOption.isSome = true ∧
    roundHalfEven 2 = 2 ∧ roundHalfEven (3 / 2) = 2 := by decide +kernel

theorem exists_run {q : ℚ} (h : (result q).1.toOption.isSome = true) : ∃ h,
    (Backend.translate (backend Z3.primitives) context (entry q (.var ⟨0⟩))).Runs lowered h
      (result q).2 := by
  obtain ⟨h, hh⟩ := Option.isSome_iff_exists.mp h
  exact ⟨h, runs_of_toOption hh⟩

theorem mem_entryTerms (q : ℚ) (key : Term Exact) :
    entry q key ∈ entryTerms ⟨2⟩ ⟨1⟩ (.finite q) key := by simp [entryTerms, entry]

/-- At the second position the first key is left. -/
theorem second_position_admits : ∃ h s' ρ,
    (Backend.translate (backend Z3.primitives) context (entry 2 (.var ⟨0⟩))).Runs lowered h s' ∧
      Admitted ρ s' ∧ value ρ keyHandle = .finite (0 : ℤ) ∧ value ρ h = .finite (2 : ℤ) := by
  obtain ⟨hruns, -, htwo, -⟩ := evaluated
  obtain ⟨h, hr⟩ := exists_run hruns
  obtain ⟨hkeys, hvalue⟩ := constant_position_agrees (d := chosenKey) Z3.documented rfl rfl valid usable
    (fun ρ hρ => by
      obtain ⟨n, hn⟩ := (holds hρ).kind
      rw [int_eq hn]
      exact ⟨hn ▸ (holds hρ).lower_le, hn ▸ (holds hρ).le_upper⟩)
    (fun hinf => absurd hinf (by decide)) (mem_entryTerms 2 _) rfl hr
  have hfirst : Exact.finite (0 : ℤ) ∈ {x | ∃ ρ, Admitted ρ (result 2).2 ∧ value ρ keyHandle = x} := by
    rw [hkeys]
    exact ⟨⟨2, rfl⟩, ⟨fun _ => 0, ⟨by decide, rfl⟩, by decide⟩, 0,
      [.finite (1 : ℤ), .finite (2 : ℤ)], rfl, rfl, by rw [htwo]; decide⟩
  obtain ⟨ρ, hρ, hk⟩ := hfirst
  obtain ⟨k, hk', ⟨xs, hxs, hentry⟩, -⟩ := hvalue finiteCollections ρ hρ
  obtain rfl : (0 : ℤ) = k := Int.cast_inj.mp (Exact.finite.inj (hk.symm.trans hk'))
  obtain rfl : [.finite (1 : ℤ), .finite (2 : ℤ)] = xs := Except.ok.inj (Except.ok.inj hxs)
  rw [htwo] at hentry
  exact ⟨h, _, ρ, hr, hρ, hk, (Option.some.inj hentry).symm⟩

/-- Between the first two positions evaluation reads the second one, and so does lowering under the
constant key zero, but under the variable no key is left. -/
theorem halfway_admits_nothing :
    (∀ sol : Solution Exact, sol.model = context.model → sol.evaluators = [] →
      sol.stored? ⟨0⟩ = some (.finite (0 : ℤ)) →
        sol.evaluate context.workspace (entry (3 / 2) (.var ⟨0⟩)) = .ok (some (.finite (2 : ℤ)))) ∧
    (∃ s', (Backend.translate (backend Z3.primitives) context
      (entry (3 / 2) (.const (.finite (0 : ℤ))))).Runs lowered (scalar (.finite (2 : ℤ))) s') ∧
    (∃ ρ, Admitted ρ lowered ∧ value ρ keyHandle = .finite (0 : ℤ)) ∧
    ∃ h s', (Backend.translate (backend Z3.primitives) context (entry (3 / 2) (.var ⟨0⟩))).Runs
      lowered h s' ∧ ∀ ρ, ¬ Admitted ρ s' := by
  obtain ⟨-, hruns, -, hround⟩ := evaluated
  have hentry : EntryAt context (3 / 2) 0 (.finite (2 : ℤ)) :=
    ⟨[.finite (1 : ℤ), .finite (2 : ℤ)], rfl, by rw [hround]; rfl⟩
  obtain ⟨h, hr⟩ := exists_run hruns
  obtain ⟨-, hsound, -⟩ := entry_spec (d := chosenKey) Z3.documented rfl rfl valid usable
    (mem_entryTerms _ _) rfl hr
  refine ⟨fun sol hmodel hevaluators hk => ?_, ?_, ⟨fun _ => 0, ⟨by decide, rfl⟩, rfl⟩, h, _, hr,
    fun ρ hρ => ?_⟩
  · exact (evaluate_entry_iff (mem_entryTerms _ _) hmodel hevaluators hk).mpr hentry
  · exact (runs_constant_key (mem_entryTerms _ _) rfl).mpr ⟨_, hentry, rfl⟩
  · obtain ⟨-, ⟨n, hn⟩, -⟩ := hsound ρ hρ
    have htwice : (3 : ℚ) = 2 * n := by linarith
    have : (3 : ℤ) = 2 * n := by exact_mod_cast htwice
    omega

end Ragged

end Tolerant

end DecisionModel
