import DecisionModel.Proofs.Tolerant.Selection

/-!
# Variables of the model for algebraic solvers

A variable of the model becomes a variable of the solver with the same bounds. A sequence becomes a
row of integer variables and a square of binary ones with a single one in each row and each column;
the column of a row's one is the value of its member, so that the square of any permutation can be
written down (`createSequence_spec`).
-/

namespace DecisionModel.Tolerant

open LowerM

variable {σ : Type} {P : Primitives Exact σ} {G G' : Set Expr} {s s' : TolerantState σ}
  {h k : Expr} {hs : List Expr} {ρ ρ' : HandleId → ℚ} {d : Variable Exact}

/-! ### Variables -/

theorem has_of_allowed (hreal : d.kind ≠ .real) {n : ℤ} (hn : Allowed d n) :
    (Kind.ofVariable d.kind).Has (.finite n) := by
  cases hk : d.kind with
  | boolean => rcases hn.truth hk with rfl | rfl <;> simp [Kind.ofVariable, Kind.Has, IsBinary]
  | integer => exact ⟨n, rfl⟩
  | real => exact absurd hk hreal

theorem integral_of_has {kind : VariableKind} (hreal : kind ≠ .real) {v : Exact}
    (hv : (Kind.ofVariable kind).Has v) : ∃ n : ℤ, v = .finite n := by
  cases kind with
  | boolean => exact IsBinary.integral hv
  | integer => exact hv
  | real => exact absurd rfl hreal

/-- A new variable of an integral kind. -/
theorem NewVariable.reaches {kind : VariableKind} {lower upper : Exact} (hreal : kind ≠ .real)
    (hh : h ∈ G')
    (hnew : NewVariable s h s' (Kind.ofVariable kind) lower upper) :
    (semantics σ).Usable G' s' h ∧
      (∀ ρ, Admitted ρ s' → Between lower upper (.finite ((semantics σ).int ρ h : ℤ))) ∧
      ∀ n : ℤ, (Kind.ofVariable kind).Has (.finite n) → Between lower upper (.finite n) →
        (semantics σ).Reaches s s' h n := by
  have hint : ∀ ρ, Admitted ρ s' → ∃ n : ℤ, value ρ h = .finite n :=
    fun ρ hρ => integral_of_has hreal (hnew.holds ρ hρ).1
  refine ⟨usable_of_held (held_iff.mpr ⟨hh, hint⟩), fun ρ hρ => ?_, fun n hkind hbetween ρ _ hρ => ?_⟩
  · rw [← value_eq (hint ρ hρ)]
    exact (hnew.holds ρ hρ).2
  · obtain ⟨ρ', ha, hρ', hvalue⟩ := hnew.takes ρ n hρ hkind hbetween
    exact ⟨ρ', ha, hρ', int_eq hvalue⟩

theorem createVariable_fits (hP : Documented P) (hreal : d.kind ≠ .real)
    (hv : (semantics σ).Valid G s)
    (hr : (createVariable P (Kind.ofVariable d.kind) d.lower d.upper d.name).Runs s h s') :
    ∃ G', (semantics σ).Step G s G' s' ∧ (semantics σ).Usable G' s' h ∧
      (∀ ρ, Admitted ρ s' → d.Within ((semantics σ).int ρ h)) ∧
      ∀ n, Allowed d n → (semantics σ).Reaches s s' h n := by
  obtain ⟨G', g, hh, hnew⟩ := createVariable_spec hP hv hr
  obtain ⟨u, hwithin, hreach⟩ := hnew.reaches hreal hh
  exact ⟨G', g, u, hwithin, fun n hn => hreach n (has_of_allowed hreal hn) hn.within⟩

theorem newInteger_reaches (hP : Documented P) {first last : ℤ} {hint : String}
    (hv : (semantics σ).Valid G s) (hr : (newInteger P first last hint).Runs s h s') :
    ∃ G', (semantics σ).Step G s G' s' ∧ (semantics σ).Usable G' s' h ∧
      (∀ ρ, Admitted ρ s' → first ≤ (semantics σ).int ρ h ∧ (semantics σ).int ρ h ≤ last) ∧
      ∀ n, first ≤ n → n ≤ last → (semantics σ).Reaches s s' h n := by
  obtain ⟨G', g, hh, hnew⟩ := newInteger_spec hP hv hr
  obtain ⟨u, hwithin, hreach⟩ := hnew.reaches (show VariableKind.integer ≠ .real by simp) hh
  refine ⟨G', g, u, fun ρ hρ => ?_, fun n h₁ h₂ => hreach n ⟨n, rfl⟩ ?_⟩
  · simpa [Between] using hwithin ρ hρ
  · simpa [Between] using ⟨h₁, h₂⟩

/-! ### Sequences -/

/-- A square of new binary variables. -/
theorem square_spec (hP : Documented P) {β γ : Type} {rows : List β} {columns : List γ}
    {hint : β → γ → String} {square : List (List Expr)} (hv : (semantics σ).Valid G s)
    (hr : (rows.mapM fun i => columns.mapM fun j => newBinary P (hint i j)).Runs s square s') :
    square.length = rows.length ∧ ∃ G', (semantics σ).Step G s G' s' ∧
      (∀ row ∈ square, ∀ b ∈ row, b ∈ G' ∧ ∀ ρ, Admitted ρ s' → IsBinary (value ρ b)) ∧
      ∀ ρ (nss : List (List ℤ)), Admitted ρ s → nss.length = rows.length →
        (∀ ns ∈ nss, ns.length = columns.length ∧ ∀ n ∈ ns, n = 0 ∨ n = 1) →
          ∃ ρ', Agree s.nextHandle ρ ρ' ∧ Admitted ρ' s' ∧
            square.map (fun row => row.map ((semantics σ).int ρ')) = nss := by
  induction rows generalizing G s square with
  | nil =>
    obtain ⟨rfl, rfl⟩ := runs_mapM_nil.mp hr
    refine ⟨rfl, G, .refl hv, by simp, fun ρ nss hρ hlen _ => ⟨ρ, .refl _ ρ, hρ, ?_⟩⟩
    rw [List.length_eq_zero_iff.mp hlen]
    rfl
  | cons i rows ih =>
    obtain ⟨row, s₁, square, hrow, hrest, rfl⟩ := runs_mapM_cons.mp hr
    obtain ⟨hcount, G₁, g₁, hmem, hnew⟩ := mapM_newVariables .binary (.finite 0) (.finite 1)
      (fun _ _ _ _ _ _ hv hr => newBinary_spec hP hv hr) hv hrow
    obtain ⟨hlen, G₂, g₂, hsquare, htakes⟩ := ih g₁.valid hrest
    refine ⟨by simp [hlen], G₂, g₁.trans g₂, List.forall_mem_cons.mpr ⟨fun b hb => ?_, hsquare⟩,
      fun ρ nss hρ hnss hbinary => ?_⟩
    · exact ⟨g₂.subset (hmem b hb), fun ρ hρ => (hnew.holds ρ (g₂.admits ρ hρ) b hb).1⟩
    · obtain ⟨ns, nss, rfl⟩ := List.exists_cons_of_length_eq_add_one hnss
      obtain ⟨⟨hns, hbinary₁⟩, hbinary⟩ := List.forall_mem_cons.mp hbinary
      obtain ⟨ρ₁, ha₁, hρ₁, hvalues⟩ := hnew.takes ρ (ns.map Int.cast) hρ (by simp [hns, hcount]) (by
        intro q hq
        obtain ⟨n, hn, rfl⟩ := List.mem_map.mp hq
        rcases hbinary₁ n hn with rfl | rfl <;> simp [Kind.Has, IsBinary, Between])
      obtain ⟨ρ₂, ha₂, hρ₂, hrest⟩ := htakes ρ₁ nss hρ₁ (by simpa using hnss) hbinary
      refine ⟨ρ₂, ha₁.trans g₁.next_le ha₂, hρ₂, ?_⟩
      have hrow : row.map ((semantics σ).int ρ₂) = ns := by
        rw [← map_int_eq (σ := σ) hvalues]
        exact List.map_congr_left fun b hb =>
          (congrArg intOf (value_congr g₁.valid.world (hmem b hb) ha₂)).symm
      rw [List.map_cons, hrow, hrest]

/-- The integers of a row: one at one place, and zero elsewhere. -/
def unitRow (n : ℕ) (m : ℤ) : List ℤ := (List.range n).map fun c : ℕ => indicator (m = (c : ℤ) + 1)

/-- A sum over a row is what stands at its one. -/
theorem sum_range_indicator (f : ℕ → ℤ) (k n : ℕ) :
    ((List.range n).map fun c : ℕ => f c * indicator ((k : ℤ) + 1 = (c : ℤ) + 1)).sum =
      if k < n then f k else 0 := by
  induction n with
  | zero => simp
  | succ n ih =>
    rw [List.range_succ, List.map_append, List.sum_append, ih, List.map_singleton, List.sum_singleton]
    rcases lt_trichotomy k n with hlt | rfl | hgt
    · rw [if_pos hlt, if_pos (by omega), indicator_eq_zero.mpr (by omega), mul_zero, add_zero]
    · rw [if_neg (by omega), if_pos (by omega), indicator_eq_one.mpr rfl, mul_one, zero_add]
    · rw [if_neg (by omega), if_neg (by omega), indicator_eq_zero.mpr (by omega), mul_zero, add_zero]

theorem sum_indicator (ns : List ℤ) (a : ℤ) :
    (ns.map fun m => indicator (m = a)).sum = ns.count a := by
  induction ns with
  | nil => rfl
  | cons n ns ih =>
    rw [List.map_cons, List.sum_cons, ih, List.count_cons, Nat.cast_add, add_comm, indicator]
    by_cases h : n = a <;> simp [h]

/-- In each column of the square of a permutation there is a single one. -/
theorem sum_column {n i : ℕ} {ns : List ℤ} (hi : i < n)
    (hns : ns.Perm ((List.range n).map fun i : ℕ => (i : ℤ) + 1)) :
    (ns.map fun m => indicator (m = (i : ℤ) + 1)).sum = 1 := by
  have hnodup : ((List.range n).map fun i : ℕ => (i : ℤ) + 1).Nodup :=
    List.nodup_range.map fun a b h => by simpa using h
  rw [sum_indicator, hns.count_eq, List.count_eq_one_of_mem hnodup]
  · rfl
  · exact List.mem_map.mpr ⟨i, List.mem_range.mpr hi, rfl⟩

/-- What ties a member of a sequence to its row and its column of the square. -/
def Tied (σ : Type) (square : List (List Expr)) (p : Expr × ℕ × List Expr) (ρ : HandleId → ℚ) :
    Prop :=
  (p.2.2.map ((semantics σ).int ρ)).sum = 1 ∧
    ((square.filterMap (·[p.2.1]?)).map ((semantics σ).int ρ)).sum = 1 ∧
    (semantics σ).int ρ p.1 = ((p.2.2.mapIdx Prod.mk).map fun q =>
      ((q.1 : ℤ) + 1) * (semantics σ).int ρ q.2).sum

theorem amounts_tied (hP : Documented P) {square : List (List Expr)} {h : Expr} {i : ℕ}
    {row : List Expr} {args : List Expr} (hh : h ∈ args) (hsquare : ∀ r ∈ square, ∀ b ∈ r, b ∈ args)
    (hrow : row ∈ square) :
    Amounts (do
      requireOne P row
      requireOne P (square.filterMap (·[i]?))
      let weighted ← (row.mapIdx Prod.mk).mapM fun (column, b) =>
        LowerM.mul (integer (column + 1)) b
      let channel ← P.total weighted
      constrain P (← LowerM.sub h channel) realZero realZero) args
      (fun ρ => (semantics σ).Integral ρ h ∧ ∀ r ∈ square, ∀ b ∈ r, IsBinary (value ρ b))
      (Tied σ square (h, i, row)) := by
  have hcolumn : ∀ b ∈ square.filterMap (·[i]?), ∃ r ∈ square, b ∈ r := by
    intro b hb
    obtain ⟨r, hr, hget⟩ := List.mem_filterMap.mp hb
    exact ⟨r, hr, List.mem_of_getElem? hget⟩
  let W (ρ : HandleId → ℚ) : Prop :=
    (semantics σ).Integral ρ h ∧ ∀ r ∈ square, ∀ b ∈ r, IsBinary (value ρ b)
  have hrowOne : Amounts _ args W _ := (amounts_requireOne hP row).mono
    (fun b hb => .inl (hsquare row hrow b hb)) (fun ρ hρ => hρ.2 row hrow) fun _ _ => Iff.rfl
  have hcolumnOne : Amounts _ args W _ := (amounts_requireOne hP (square.filterMap (·[i]?))).mono
    (fun b hb => by
      obtain ⟨r, hr, hb⟩ := hcolumn b hb
      exact .inl (hsquare r hr b hb))
    (fun ρ hρ b hb => by
      obtain ⟨r, hr, hb⟩ := hcolumn b hb
      exact hρ.2 r hr b hb) fun _ _ => Iff.rfl
  have hentries : ∀ q ∈ row.mapIdx Prod.mk, q.2 ∈ row := by
    intro q hq
    obtain ⟨c, hc, rfl⟩ := List.mem_mapIdx.mp hq
    exact List.getElem_mem hc
  have hchannel : Amounts (do
      let weighted ← (row.mapIdx Prod.mk).mapM fun (column, b) =>
        LowerM.mul (integer (column + 1)) b
      let channel ← P.total weighted
      constrain P (← LowerM.sub h channel) realZero realZero) args W
      fun ρ => (semantics σ).int ρ h = ((row.mapIdx Prod.mk).map fun q =>
        ((q.1 : ℤ) + 1) * (semantics σ).int ρ q.2).sum := by
    have hbind : Amounts ((do
        let weighted ← (row.mapIdx Prod.mk).mapM fun q => LowerM.mul (integer ((q.1 : ℤ) + 1)) q.2
        P.total weighted : TolerantM Exact σ Expr) >>= fun channel => postEqual P h channel) args W
        fun ρ => (semantics σ).int ρ h = ((row.mapIdx Prod.mk).map fun q =>
          ((q.1 : ℤ) + 1) * (semantics σ).int ρ q.2).sum := Amounts.bind (T := fun _ => True)
      (V := fun ρ v => (∀ q ∈ row.mapIdx Prod.mk, (semantics σ).Integral ρ q.2) → v =
        .finite (((row.mapIdx Prod.mk).map fun q =>
          ((q.1 : ℤ) + 1) * (semantics σ).int ρ q.2).sum : ℤ))
      (fun G s t s' hw hmem hr => ⟨trivial, gives_weighted hP (f := fun c : ℕ => (c : ℤ) + 1) hw
        (fun q hq => hmem _ (hsquare row hrow _ (hentries q hq))) hr⟩)
      fun channel _ => (amounts_equal hP h channel).mono ?_ ?_ ?_
    · rwa [bind_assoc] at hbind
    · intro a ha
      rcases List.mem_pair.mp ha with rfl | rfl
      · exact .inl (List.mem_cons_of_mem _ hh)
      · exact .inl List.mem_cons_self
    · rintro ρ ⟨⟨hint, hbinary⟩, hvalue⟩
      exact ⟨hint, _, hvalue fun q hq => (hbinary row hrow _ (hentries q hq)).integral⟩
    · rintro ρ ⟨⟨hint, hbinary⟩, hvalue⟩
      rw [int_eq (hvalue fun q hq => (hbinary row hrow _ (hentries q hq)).integral)]
  exact (hrowOne.seq (hcolumnOne.seq hchannel)).mono (fun _ h => .inl h) (fun _ h => h)
    fun _ _ => Iff.rfl

/-- Where the rows of a square have a single one each, a column shows whose one it has. -/
theorem column_of_unitRows {square : List (List Expr)} {ns : List ℤ} {n j : ℕ} (hj : j < n)
    (hsquare : square.map (fun row => row.map ((semantics σ).int ρ)) = ns.map (unitRow n)) :
    (square.filterMap (·[j]?)).map ((semantics σ).int ρ) =
      ns.map fun m => indicator (m = (j : ℤ) + 1) := by
  have hmap : (square.filterMap (·[j]?)).map ((semantics σ).int ρ) =
      (square.map fun row => row.map ((semantics σ).int ρ)).filterMap (·[j]?) := by
    simp only [List.map_filterMap, List.filterMap_map, Function.comp_def, List.getElem?_map]
  have hentry : ∀ m : ℤ, (unitRow n m)[j]? = some (indicator (m = (j : ℤ) + 1)) := by
    simp [unitRow, List.getElem?_range hj]
  rw [hmap, hsquare, List.filterMap_map]
  simp only [Function.comp_def, hentry, List.filterMap_eq_map']

/-- The columns of a row, weighted with its entries, sum up to the place of its one. -/
theorem weighted_of_unitRow {row : List Expr} {n k : ℕ} (hk : k < n)
    (hunit : row.map ((semantics σ).int ρ) = unitRow n ((k : ℤ) + 1)) :
    ((row.mapIdx Prod.mk).map fun q => ((q.1 : ℤ) + 1) * (semantics σ).int ρ q.2).sum = (k : ℤ) + 1 := by
  have hweights : ((row.mapIdx Prod.mk).map fun q => ((q.1 : ℤ) + 1) * (semantics σ).int ρ q.2) =
      (List.range n).map fun c : ℕ => ((c : ℤ) + 1) * indicator ((k : ℤ) + 1 = (c : ℤ) + 1) := by
    refine List.ext_getElem? fun c => ?_
    have hget := congrArg (·[c]?) hunit
    simp only [unitRow, List.getElem?_map] at hget
    simp only [List.getElem?_map, List.getElem?_mapIdx, Option.map_map]
    rcases lt_or_ge c n with hc | hc
    · rw [List.getElem?_range hc] at hget ⊢
      obtain ⟨b, hb, hbvalue⟩ := Option.map_eq_some_iff.mp hget
      rw [hb, Option.map_some, Option.map_some]
      exact congrArg (fun m => some (((c : ℤ) + 1) * m)) hbvalue
    · rw [List.getElem?_eq_none (l := List.range n) (by simpa using hc)] at hget ⊢
      rw [Option.map_eq_none_iff.mp hget]
      rfl
  rw [hweights, sum_range_indicator (fun c => (c : ℤ) + 1), if_pos hk]

/-- The square of a permutation is tied to it. -/
theorem tied_of_perm {square : List (List Expr)} {ns : List ℤ} {n : ℕ}
    (hns : ns.Perm ((List.range n).map fun i : ℕ => (i : ℤ) + 1))
    (hhandles : hs.map ((semantics σ).int ρ) = ns)
    (hsquare : square.map (fun row => row.map ((semantics σ).int ρ)) = ns.map (unitRow n)) :
    ∀ p ∈ hs.zip (square.mapIdx Prod.mk), Tied σ square p ρ := by
  rintro ⟨h, i, row⟩ hp
  obtain ⟨j, hj⟩ := List.mem_iff_getElem?.mp hp
  obtain ⟨hh, hindexed⟩ := List.getElem?_zip_eq_some.mp hj
  rw [List.getElem?_mapIdx] at hindexed
  obtain ⟨row, hrow, heq⟩ := Option.map_eq_some_iff.mp hindexed
  obtain ⟨rfl, rfl⟩ := Prod.mk.inj heq
  have hm : ns[j]? = some ((semantics σ).int ρ h) := by rw [← hhandles, List.getElem?_map, hh]; rfl
  have hunit : row.map ((semantics σ).int ρ) = unitRow n ((semantics σ).int ρ h) := by
    have hget := congrArg (·[j]?) hsquare
    simp only [List.getElem?_map, hm] at hget
    rw [hrow] at hget
    exact Option.some.inj hget
  obtain ⟨k, hk, hvalue⟩ := List.mem_map.mp (hns.mem_iff.mp (List.mem_of_getElem? hm))
  have hk := List.mem_range.mp hk
  have hjn : j < n := by
    obtain ⟨hlt, -⟩ := List.getElem?_eq_some_iff.mp hm
    simpa [hns.length_eq] using hlt
  refine ⟨?_, ?_, ?_⟩
  · have hsum := sum_range_indicator (fun _ => 1) k n
    simp only [one_mul, if_pos hk, hvalue] at hsum
    rw [hunit]
    exact hsum
  · rw [column_of_unitRows hjn hsquare]
    exact sum_column hjn hns
  · rw [← hvalue] at hunit ⊢
    exact (weighted_of_unitRow hk hunit).symm

theorem createSequence_spec (hP : Documented P) {name : String} {members : List String}
    (hv : (semantics σ).Valid G s) (hr : (createSequence P name members).Runs s hs s') :
    hs.length = members.length ∧ ∃ G', (semantics σ).Step G s G' s' ∧
      (∀ h ∈ hs, (semantics σ).Usable G' s' h) ∧
      (∀ ρ, Admitted ρ s' → ∀ h ∈ hs, 1 ≤ (semantics σ).int ρ h ∧
        (semantics σ).int ρ h ≤ members.length) ∧
      ∀ ns : List ℤ, ns.Perm ((List.range members.length).map fun i : ℕ => (i : ℤ) + 1) →
        ∀ ρ, Admitted ρ s → ∃ ρ', Agree s.nextHandle ρ ρ' ∧ Admitted ρ' s' ∧
          hs.map ((semantics σ).int ρ') = ns := by
  obtain ⟨hs, s₁, hhandles, hr⟩ := runs_bind.mp hr
  obtain ⟨square, s₂, hsquare, hr⟩ := runs_bind.mp hr
  obtain ⟨_, s₃, hties, hr⟩ := runs_bind.mp hr
  obtain ⟨rfl, rfl⟩ := runs_pure.mp hr
  obtain ⟨hlen, G₁, g₁, hmem, hnew⟩ := mapM_newVariables .integer (.finite 1)
    (.finite (members.length : ℤ)) (fun _ _ _ _ _ _ hv hr => createVariable_spec hP hv hr)
    hv hhandles
  obtain ⟨hcount, G₂, g₂, hbinary, htakes⟩ := square_spec hP g₁.valid hsquare
  have hentries : ∀ p ∈ hs.zip (square.mapIdx Prod.mk), p.1 ∈ hs ∧ p.2.2 ∈ square := by
    intro p hp
    obtain ⟨h₁, h₂⟩ := List.of_mem_zip hp
    obtain ⟨i, hi, heq⟩ := List.mem_mapIdx.mp h₂
    exact ⟨h₁, heq ▸ List.getElem_mem hi⟩
  have hint : ∀ ρ, Admitted ρ s₁ → ∀ h ∈ hs, (semantics σ).Integral ρ h :=
    fun ρ hρ h hh => (hnew.holds ρ hρ h hh).1
  have hW : ∀ ρ, Admitted ρ s₂ → (∀ h ∈ hs, (semantics σ).Integral ρ h) ∧
      ∀ r ∈ square, ∀ b ∈ r, IsBinary (value ρ b) := fun ρ hρ =>
    ⟨hint ρ (g₂.admits ρ hρ), fun r hr b hb => (hbinary r hr b hb).2 ρ hρ⟩
  obtain ⟨G₃, C, g₃, hC⟩ := amounts_forM (σ := σ) (hs ++ square.flatten)
    (hs.zip (square.mapIdx Prod.mk)) (W := fun ρ => (∀ h ∈ hs, (semantics σ).Integral ρ h) ∧
      ∀ r ∈ square, ∀ b ∈ r, IsBinary (value ρ b)) (T := fun p => Tied σ square p) (fun p hp =>
    (amounts_tied hP (List.mem_append_left _ (hentries p hp).1) (fun r hr b hb =>
      List.mem_append_right _ (List.mem_flatten_of_mem hr hb)) (hentries p hp).2).mono
      (fun _ h => .inl h) (fun ρ hρ => ⟨hρ.1 _ (hentries p hp).1, hρ.2⟩) fun _ _ => Iff.rfl)
    g₂.valid (fun a ha => by
      rcases List.mem_append.mp ha with ha | ha
      · exact g₂.subset (hmem a ha)
      · obtain ⟨r, hr, ha⟩ := List.mem_flatten.mp ha
        exact (hbinary r hr a ha).1) hties
  refine ⟨hlen, G₃, g₁.trans (g₂.trans g₃.toStep), fun h hh => ?_, fun ρ hρ h hh => ?_,
    fun ns hns ρ hρ => ?_⟩
  · exact usable_of_held (held_iff.mpr ⟨(g₂.trans g₃.toStep).subset (hmem h hh),
      fun ρ hρ => hint ρ (g₂.admits ρ (g₃.admits ρ hρ)) h hh⟩)
  · have hρ₁ := g₂.admits ρ (g₃.admits ρ hρ)
    have hbetween := (hnew.holds ρ hρ₁ h hh).2
    rw [value_eq (hint ρ hρ₁ h hh)] at hbetween
    obtain ⟨hlo, hhi⟩ := hbetween
    rw [Exact.finite_le, decide_eq_true_iff] at hlo hhi
    exact ⟨by exact_mod_cast hlo, by exact_mod_cast hhi⟩
  · have hrange : ∀ n ∈ ns, 1 ≤ n ∧ n ≤ (members.length : ℤ) := by
      intro n hn
      obtain ⟨k, hk, rfl⟩ := List.mem_map.mp (hns.mem_iff.mp hn)
      have hk := List.mem_range.mp hk
      omega
    have hnlen : ns.length = members.length := by simpa using hns.length_eq
    obtain ⟨ρ₁, ha₁, hρ₁, hvalues⟩ := hnew.takes ρ (ns.map Int.cast) hρ (by simp [hnlen, hlen]) (by
      intro q hq
      obtain ⟨n, hn, rfl⟩ := List.mem_map.mp hq
      obtain ⟨hlo, hhi⟩ := hrange n hn
      refine ⟨⟨n, rfl⟩, ?_, ?_⟩ <;> rw [Exact.finite_le, decide_eq_true_iff] <;> exact_mod_cast ‹_›)
    obtain ⟨ρ₂, ha₂, hρ₂, hsquare⟩ := htakes ρ₁ (ns.map (unitRow members.length)) hρ₁
      (by simp [hnlen]) (by
        intro row hrow
        obtain ⟨n, -, rfl⟩ := List.mem_map.mp hrow
        refine ⟨by simp [unitRow], fun m hm => ?_⟩
        obtain ⟨c, -, rfl⟩ := List.mem_map.mp hm
        exact indicator_cases)
    have hkeep : hs.map ((semantics σ).int ρ₂) = ns := by
      rw [← map_int_eq (σ := σ) hvalues]
      exact List.map_congr_left fun h hh =>
        (congrArg intOf (value_congr g₁.valid.world (hmem h hh) ha₂)).symm
    exact ⟨ρ₂, ha₁.trans g₁.next_le ha₂, (g₃.admitted_iff ρ₂).mpr ⟨hρ₂, (hC ρ₂ (hW ρ₂ hρ₂)).mpr
      (tied_of_perm hns hkeep hsquare)⟩, hkeep⟩

end DecisionModel.Tolerant
