import DecisionModel.Proofs.Lowering.Entry
import DecisionModel.Proofs.Tolerant.Creation

/-!
# Tabulated membership

Membership of a bounded variable in the collection under a key is looked up in a table with a row for
each key and a column for each value of the variable. Key and value are packed into one index, from
which both can be read off, since the value stays within the width of a row.
-/

namespace DecisionModel.Tolerant

open LowerM Backend

variable {σ : Type} {P : Primitives Exact σ} {c : Context Exact} {G G' : Set Expr}
  {s s' : TolerantState σ} {h k key hv : Expr} {ρ ρ' : HandleId → ℚ} {first last low high : ℤ}
  {width : ℕ} {entries : List (ℤ × Expr)}

/-! ### The table -/

/-- The entry tells whether a value is in the collection under a key. -/
structure IsEntry (c : Context Exact) (first last low : ℤ) (width row column : ℕ)
    (e : ℤ × Expr) : Prop where
  column_lt : column < width
  le_last : first + row ≤ last
  position : e.1 = row * width + column
  entry : ∃ xs, Reader.CollectionAt c.workspace c.model (first + row) xs ∧
    e.2 = scalar (.finite (indicator (∃ x ∈ xs, x = .finite (low + column : ℤ)) : ℤ))

theorem eq_finite_iff {x : Exact} {q : ℚ} : x.eq (.finite q) = true ↔ x = .finite q := by
  cases x <;> simp [Exact.eq]

theorem ofBool_mem (xs : List Exact) (n : ℤ) :
    (Scalar.ofBool (xs.any fun x => (Scalar.exact x).eq (.finite n)) : Exact) =
      .finite (indicator (∃ x ∈ xs, x = .finite n) : ℤ) := by
  rw [← Scalar.ofBool_indicator]
  congr 1
  rw [Bool.eq_iff_iff, List.any_eq_true, decide_eq_true_iff]
  simp only [Scalar.exact_exact, eq_finite_iff]

theorem runs_membershipEntries
    (hr : (membershipEntries c low width (keyRange first last) : TolerantM Exact σ _).Runs s entries s') :
    s' = s ∧ (∀ e ∈ entries, ∃ row column, IsEntry c first last low width row column e) ∧
      ∀ row column : ℕ, first + row ≤ last → column < width →
        ∃ e ∈ entries, e.1 = row * width + column := by
  obtain ⟨rows, s₁, hrows, hr⟩ := runs_bind.mp hr
  obtain ⟨rfl, rfl⟩ := runs_pure.mp hr
  obtain ⟨rfl, hall⟩ := runs_mapM_pure (P := fun p es => ∃ xs,
      Reader.CollectionAt c.workspace c.model p.2 xs ∧ es = (List.range width).map fun column =>
        (((p.1 * width + column : ℕ) : ℤ),
          scalar (.finite (indicator (∃ x ∈ xs, x = .finite (low + column : ℤ)) : ℤ))))
    (fun p _ es s' hp => by
      obtain ⟨xs, s₂, hxs, hp⟩ := runs_bind.mp hp
      obtain ⟨rfl, rfl⟩ := runs_pure.mp hp
      obtain ⟨hread, rfl⟩ := runs_collection.mp hxs
      refine ⟨rfl, xs, hread, List.map_congr_left fun column _ => ?_⟩
      rw [← ofBool_mem]) hrows
  have hindexed : ∀ {row : ℕ} {p : ℕ × ℤ}, ((keyRange first last).mapIdx Prod.mk)[row]? = some p ↔
      p = (row, first + row) ∧ first + row ≤ last := by
    intro row p
    rw [List.getElem?_mapIdx, Option.map_eq_some_iff]
    constructor
    · rintro ⟨k, hk, rfl⟩
      obtain ⟨rfl, hle⟩ := getElem?_keyRange.mp hk
      exact ⟨rfl, hle⟩
    · rintro ⟨rfl, hle⟩
      exact ⟨_, getElem?_keyRange.mpr ⟨rfl, hle⟩, rfl⟩
  refine ⟨rfl, fun e he => ?_, fun row column hrow hcolumn => ?_⟩
  · obtain ⟨es, hes, he⟩ := List.mem_flatten.mp he
    obtain ⟨row, hrow⟩ := List.getElem?_of_mem hes
    obtain ⟨p, hp, xs, hread, rfl⟩ := forall₂_getElem?_right hall hrow
    obtain ⟨rfl, hle⟩ := hindexed.mp hp
    obtain ⟨column, hcolumn, rfl⟩ := List.mem_map.mp he
    exact ⟨row, column, List.mem_range.mp hcolumn, hle, by simp, xs, hread, rfl⟩
  · obtain ⟨es, hes, xs, -, rfl⟩ := forall₂_getElem?_left hall (hindexed.mpr ⟨rfl, hrow⟩)
    refine ⟨_, List.mem_flatten.mpr ⟨_, List.mem_of_getElem? hes,
      List.mem_map.mpr ⟨column, List.mem_range.mpr hcolumn, rfl⟩⟩, ?_⟩
    simp

/-! ### The index -/

/-- The key and the value packed into one index. -/
def position (first low width : ℤ) (k n : ℤ) : ℤ := (k - first) * width + n - low

/-- The position of an integral key and a value, which need not be integral. -/
theorem gives_position (hw : World G s.nextHandle) {first low width : ℤ} (hkey : key ∈ G)
    (hvalue : hv ∈ G) (hr : (do
      let row ← LowerM.sub key (integer first)
      let start ← LowerM.mul row (integer width)
      LowerM.sub (← LowerM.add start hv) (integer low) : TolerantM Exact σ Expr).Runs s k s') :
    Silent.Gives G s k s' fun ρ v => (semantics σ).Integral ρ key → ∀ q, value ρ hv = .finite q →
      v = .finite (((semantics σ).int ρ key - first) * width + q - low) := by
  obtain ⟨row, s₁, hrow, hr⟩ := runs_bind.mp hr
  obtain ⟨start, s₂, hstart, hr⟩ := runs_bind.mp hr
  obtain ⟨sum, s₃, hsum, hr⟩ := runs_bind.mp hr
  obtain ⟨G₁, h₁, hrmem, hrvalue⟩ := gives_sub hw hkey (hw.const_mem _) hrow
  obtain ⟨G₂, h₂, hsmem, hsvalue⟩ := gives_mul h₁.world hrmem (h₁.world.const_mem _) hstart
  obtain ⟨G₃, h₃, hamem, havalue⟩ := gives_add h₂.world hsmem ((h₁.trans h₂).subset hvalue) hsum
  obtain ⟨G₄, h₄, hkmem, hkvalue⟩ := gives_sub h₃.world hamem (h₃.world.const_mem _) hr
  refine ⟨G₄, h₁.trans (h₂.trans (h₃.trans h₄)), hkmem, fun ρ hik q hq => ?_⟩
  rw [hkvalue, havalue, hsvalue, hrvalue, value_eq hik, hq]
  simp

/-- The index of a key and a value within the table. -/
theorem position_range {first last low high k n : ℤ} (hfirst : first ≤ k) (hlast : k ≤ last)
    (hlow : low ≤ n) (hhigh : n ≤ high) : 0 ≤ position first low (high - low + 1) k n ∧
      position first low (high - low + 1) k n ≤ (last - first + 1) * (high - low + 1) - 1 := by
  have h0 : 0 ≤ (k - first) * (high - low + 1) := mul_nonneg (by omega) (by omega)
  have hle : (k - first) * (high - low + 1) ≤ (last - first) * (high - low + 1) :=
    mul_le_mul_of_nonneg_right (by omega) (by omega)
  have hsum : (last - first + 1) * (high - low + 1) =
      (last - first) * (high - low + 1) + (high - low + 1) := by ring
  unfold position
  constructor
  · omega
  · rw [hsum]
    omega

theorem position_eq {first low high k n : ℤ} (hfirst : first ≤ k) (hlow : low ≤ n)
    (hhigh : n ≤ high) : position first low (high - low + 1) k n =
      (k - first).toNat * (high - low + 1).toNat + (n - low).toNat := by
  unfold position
  rw [Int.toNat_of_nonneg (show 0 ≤ k - first by omega),
    Int.toNat_of_nonneg (show 0 ≤ high - low + 1 by omega), Int.toNat_of_nonneg (by omega)]
  ring

/-- Key and value are read off from the index. -/
theorem position_unique {first low high k n : ℤ} {row column : ℕ} (hlow : low ≤ n) (hhigh : n ≤ high)
    (hcolumn : column < (high - low + 1).toNat)
    (h : position first low (high - low + 1) k n = row * (high - low + 1).toNat + column) :
    k = first + row ∧ n = low + column := by
  obtain ⟨w, hw⟩ := Int.eq_ofNat_of_zero_le (show 0 ≤ high - low + 1 by omega)
  rw [position, hw] at h
  rw [hw] at hcolumn
  obtain ⟨hk, hj⟩ := row_column_unique (k := k - first) (j := n - low)
    (show column < w by simpa using hcolumn) (by omega) (by omega) (by
      rw [← add_sub_assoc]
      simpa using h)
  omega

theorem handles_binary {f : Number Exact → Number Exact → Number Exact} {symbol : SolverFunction}
    {x y : Expr} (hr : (binary f symbol x y : TolerantM Exact σ Expr).Runs s k s') :
    s'.handles = s.handles := by
  unfold binary at hr
  split at hr
  · obtain ⟨-, rfl⟩ := runs_pure.mp hr
    rfl
  · obtain ⟨-, rfl⟩ := runs_node.mp hr
    rfl

/-- The index of a table is a new integer that has to be the position of key and value. -/
theorem index_spec (hP : Documented P) (low : ℤ) {v : VarId} {flat : Expr} {count w : ℤ}
    {hint : String} (hv : (semantics σ).Valid G s) (hkey : (semantics σ).Usable G s key)
    (hvar : ∀ hv, s.handle? v = some hv → (semantics σ).Usable G s hv)
    (hr : (do
      let flat ← newInteger P 0 (count * w - 1) hint
      let row ← LowerM.sub key (integer first)
      let start ← LowerM.mul row (integer w)
      let value ← variableHandle c v
      let position ← LowerM.sub (← LowerM.add start value) (integer low)
      constrain P (← LowerM.sub flat position) realZero realZero
      return flat).Runs s flat s') :
    ∃ hv, s.handle? v = some hv ∧ ∃ G', (semantics σ).Step G s G' s' ∧
      (semantics σ).Usable G' s' flat ∧
      (∀ ρ, Admitted ρ s' → (semantics σ).int ρ flat =
        position first low w ((semantics σ).int ρ key) ((semantics σ).int ρ hv)) ∧
      (semantics σ).Extends s s' fun ρ =>
        0 ≤ position first low w ((semantics σ).int ρ key) ((semantics σ).int ρ hv) ∧
          position first low w ((semantics σ).int ρ key) ((semantics σ).int ρ hv) ≤
            count * w - 1 := by
  obtain ⟨flat', s₁, hflat, hr⟩ := runs_bind.mp hr
  obtain ⟨row, s₂, hrow, hr⟩ := runs_bind.mp hr
  obtain ⟨start, s₃, hstart, hr⟩ := runs_bind.mp hr
  obtain ⟨hv', s₃', hvariable, hr⟩ := runs_bind.mp hr
  obtain ⟨sum, s₄, hsum, hr⟩ := runs_bind.mp hr
  obtain ⟨pos, s₅, hpos, hr⟩ := runs_bind.mp hr
  obtain ⟨d, s₆, hsub, hr⟩ := runs_bind.mp hr
  obtain ⟨_, s₇, hconstrain, hr⟩ := runs_bind.mp hr
  obtain ⟨rfl, rfl⟩ := runs_pure.mp hr
  obtain ⟨hhandle, rfl⟩ := runs_variableHandle.mp hvariable
  obtain ⟨G₁, g₁, u₁, -, e₁⟩ := newInteger_reaches hP hv hflat
  have hhandle₀ : s.handle? v = some hv' := by
    rw [← handle?_eq g₁.handles_eq, ← handle?_eq (handles_binary hrow),
      ← handle?_eq (handles_binary hstart), hhandle]
  have hvu := hvar hv' hhandle₀
  obtain ⟨G₅, hs₅, hpmem, hpvalue⟩ := gives_position g₁.valid.world (g₁.subset hkey.mem)
    (g₁.subset hvu.mem) (runs_bind.mpr ⟨row, s₂, hrow, runs_bind.mpr ⟨start, s₃', hstart,
      runs_bind.mpr ⟨sum, s₄, hsum, hpos⟩⟩⟩)
  have g₅ := hs₅.settles g₁.valid
  obtain ⟨up, hpint⟩ := usable_of_value (f := fun ρ =>
      position first low w ((semantics σ).int ρ key) ((semantics σ).int ρ hv')) hpmem fun ρ hρ => by
    have hρ₀ := g₁.admits ρ (g₅.admits ρ hρ)
    rw [hpvalue ρ (hkey.integral ρ hρ₀) _ (value_eq (hvu.integral ρ hρ₀))]
    simp [position]
  obtain ⟨G₇, g₇, b₇, e₇⟩ := posts_equal hP flat' pos g₅.valid (by
    simpa using ⟨(u₁.mono g₅.toGrows).toHeld, up.toHeld⟩) (runs_bind.mpr ⟨d, s₆, hsub, hconstrain⟩)
  refine ⟨hv', hhandle₀, G₇, g₁.trans (g₅.toStep.trans g₇), u₁.mono (g₅.toStep.trans g₇).toGrows,
    fun ρ hρ => (b₇ ρ hρ).trans (hpint ρ (g₇.admits ρ hρ)), ?_⟩
  rintro ρ hcalm hρ ⟨h0, hlt⟩
  obtain ⟨ρ₁, ha₁, hρ₁, hflatvalue⟩ := e₁ _ h0 hlt ρ trivial hρ
  have hsame : ∀ {a : Expr}, a ∈ G → (semantics σ).int ρ₁ a = (semantics σ).int ρ a := fun ha =>
    congrArg intOf (value_congr hv.world ha ha₁).symm
  have hρ₅ := (g₅.admitted_iff ρ₁).mpr ⟨hρ₁, trivial⟩
  obtain ⟨ρ₇, ha₇, hρ₇⟩ := e₇ ρ₁ trivial hρ₅ (by
    show (semantics σ).int ρ₁ flat' = (semantics σ).int ρ₁ pos
    rw [hflatvalue, hpint ρ₁ hρ₅, hsame hkey.mem, hsame hvu.mem])
  exact ⟨ρ₇, ha₁.trans g₁.next_le (ha₇.mono g₅.next_le), hρ₇⟩

theorem tabulatedMembership_spec (hP : Documented P) {v : VarId} (hle : first ≤ last)
    (hv : (semantics σ).Valid G s) (hkey : (semantics σ).Usable G s key)
    (hvar : ∀ hv, s.handle? v = some hv → (semantics σ).Usable G s hv ∧ ∀ ρ, Admitted ρ s →
      low ≤ (semantics σ).int ρ hv ∧ (semantics σ).int ρ hv ≤ high)
    (hr : (tabulatedMembership P c key (keyRange first last) v low high).Runs s k s') :
    ∃ hv, s.handle? v = some hv ∧ ∃ G', (semantics σ).Step G s G' s' ∧
      (semantics σ).Usable G' s' k ∧
      (∀ ρ, Admitted ρ s' → first ≤ (semantics σ).int ρ key ∧ (semantics σ).int ρ key ≤ last ∧
        ∃ xs, Reader.CollectionAt c.workspace c.model ((semantics σ).int ρ key) xs ∧
          (semantics σ).int ρ k = indicator (∃ x ∈ xs, x = .finite ((semantics σ).int ρ hv : ℤ))) ∧
      (semantics σ).Extends s s' fun ρ => first ≤ (semantics σ).int ρ key ∧
        (semantics σ).int ρ key ≤ last := by
  obtain ⟨flat, s₁, hflat, hr⟩ := runs_bind.mp hr
  obtain ⟨row, s₂, hrow, hr⟩ := runs_bind.mp hr
  obtain ⟨start, s₃, hstart, hr⟩ := runs_bind.mp hr
  obtain ⟨value', s₃', hvariable, hr⟩ := runs_bind.mp hr
  obtain ⟨sum, s₄, hsum, hr⟩ := runs_bind.mp hr
  obtain ⟨pos, s₅, hpos, hr⟩ := runs_bind.mp hr
  obtain ⟨d, s₆, hsub, hr⟩ := runs_bind.mp hr
  obtain ⟨_, s₇, hconstrain, hr⟩ := runs_bind.mp hr
  obtain ⟨entries, s₈, hentries, hr⟩ := runs_bind.mp hr
  obtain ⟨result, s₉, hlookup, hmark⟩ := runs_bind.mp hr
  obtain ⟨rfl, hentry, htable⟩ := runs_membershipEntries hentries
  rw [headD_keyRange hle] at hrow
  obtain ⟨hv', hhandle, G₇, g₇, u₇, b₇, e₇⟩ := index_spec hP low hv hkey
    (fun x hx => (hvar x hx).1) (by
      simp only [runs_bind, runs_pure]
      exact ⟨flat, s₁, hflat, row, s₂, hrow, start, s₃, hstart, value', s₃', hvariable, sum, s₄, hsum,
        pos, s₅, hpos, d, s₆, hsub, _, _, hconstrain, rfl, rfl⟩)
  obtain ⟨hvu, hwithin⟩ := hvar hv' hhandle
  have hnumber : ∀ e ∈ entries, ∃ n : ℤ, (semantics σ).IsNumber e.2 n := fun e he => by
    obtain ⟨row, column, h⟩ := hentry e he
    obtain ⟨xs, -, hxs⟩ := h.entry
    rw [hxs]
    exact ⟨_, isNumber_const (exact_real _)⟩
  obtain ⟨G₉, g₉, u₉, b₉, e₉⟩ := computes_lookup hP flat entries g₇.valid (fun a ha => by
    rcases List.mem_cons.mp ha with rfl | ha
    · exact u₇
    · obtain ⟨e, he, rfl⟩ := List.mem_map.mp ha
      obtain ⟨n, ⟨x, hx⟩, hn⟩ := hnumber e he
      rw [hx] at hn ⊢
      exact usable_number g₇.valid (by simpa using value_eq (hn fun _ => 0).1)) hlookup
  have hmeans : ∀ ρ, Admitted ρ s₉ → first ≤ (semantics σ).int ρ key ∧
      (semantics σ).int ρ key ≤ last ∧ ∃ xs, Reader.CollectionAt c.workspace c.model
        ((semantics σ).int ρ key) xs ∧ (semantics σ).int ρ result =
          indicator (∃ x ∈ xs, x = .finite ((semantics σ).int ρ hv' : ℤ)) := by
    intro ρ hρ
    have hρ₇ := g₉.admits ρ hρ
    obtain ⟨hlow, hhigh⟩ := hwithin ρ (g₇.admits ρ hρ₇)
    obtain ⟨e, he, hflate, hvalue⟩ := b₉ ρ hρ
    obtain ⟨row, column, hrc⟩ := hentry e he
    obtain ⟨xs, hread, hxs⟩ := hrc.entry
    obtain ⟨hk, hn⟩ := position_unique hlow hhigh hrc.column_lt
      ((b₇ ρ hρ₇).symm.trans (hflate.trans hrc.position))
    refine ⟨by omega, by have := hrc.le_last; omega, xs, hk ▸ hread, ?_⟩
    rw [hvalue, hn, hxs]
    exact int_eq (by simp [scalar])
  obtain ⟨rfl, g₁₀⟩ := markBinary_settles g₉.valid u₉.mem (fun ρ hρ => by
    obtain ⟨-, -, xs, -, hvalue⟩ := hmeans ρ hρ
    rw [value_eq (u₉.integral ρ hρ), hvalue]
    exact isBinary_indicator) hmark
  have g := g₇.trans g₉
  refine ⟨hv', hhandle, G₉, g.trans g₁₀.toStep, u₉.mono g₁₀.toGrows,
    fun ρ hρ => hmeans ρ (g₁₀.admits ρ hρ), ?_⟩
  have hcount : ((keyRange first last).length : ℤ) = last - first + 1 := by
    rw [length_keyRange]
    omega
  -- The index takes the position that key and value have, where the table has an entry.
  refine Semantics.Extends.trans_always g.toGrows g₁₀.toGrows (e₇.trans g₇.toGrows g₉.toGrows e₉ ?_ ?_)
    fun ρ _ hρ _ => ⟨ρ, .refl _ ρ, (g₁₀.admitted_iff ρ).mpr ⟨hρ, trivial⟩⟩
  · rintro ρ hρ ⟨hfirst, hlast⟩
    obtain ⟨hlow, hhigh⟩ := hwithin ρ hρ
    rw [hcount]
    exact position_range hfirst hlast hlow hhigh
  · rintro ρ ρ₇ hρ ⟨hfirst, hlast⟩ ha hρ₇
    obtain ⟨hlow, hhigh⟩ := hwithin ρ hρ
    have hsame : ∀ {a : Expr}, a ∈ G → (semantics σ).int ρ₇ a = (semantics σ).int ρ a := fun hmem =>
      congrArg intOf (value_congr hv.world hmem ha).symm
    obtain ⟨e, he, hposition⟩ := htable ((semantics σ).int ρ key - first).toNat
      ((semantics σ).int ρ hv' - low).toNat (by omega) (by omega)
    refine ⟨e, he, ?_⟩
    rw [b₇ ρ₇ hρ₇, hsame hkey.mem, hsame hvu.mem, hposition, position_eq hfirst hlow hhigh]

end DecisionModel.Tolerant
