import DecisionModel.Proofs.Solver.Thresholds
import DecisionModel.Proofs.Tolerant.Faithful

/-!
# Membership under a key, in two encodings

An algebraic solver gets the membership of a bounded variable in the collection under a key as one
table of zeros and ones, over an index that packs the key and the variable. The encoding for any term
is a test for each key, and a lookup among the tests. Both admit the same values of the key, of the
variable and of the result: those of `memberships`. Main result: `keyed_memberships_agree`.
-/

namespace DecisionModel.Tolerant

open LowerM Backend

variable {σ : Type} {P : Primitives Exact σ} {c : Context Exact} {G : Set Expr}
  {s : TolerantState σ} {key a : Expr} {first last : ℤ} {v : VarId} {d : Variable Exact}

/-! ### Encodings of membership return -/

theorem Serves.returns_openTruths (hP : Serves P) (hs : List Expr) : Returns (openTruths P hs) := by
  induction hs with
  | nil => exact returns_pure _
  | cons h hs ih =>
    refine returns_bind (hP.returns_truth h) fun b => ?_
    split
    · exact returns_if (fun _ => ih) fun _ => returns_pure _
    · exact returns_bind ih fun _ => returns_pure _

theorem Serves.returns_disjoin (hP : Serves P) (hs : List Expr) : Returns (disjoin P hs) := by
  refine returns_bind (hP.returns_openTruths hs) fun o => ?_
  split
  · exact returns_pure _
  · exact returns_pure _
  · exact returns_pure _
  · exact returns_bind (hP.responds.total _) fun _ => hP.returns_truth _

theorem Serves.returns_membership (hP : Serves P) (x : Expr) (os : List (Option Expr)) :
    Returns (membership P x os) := by
  refine returns_bind (returns_mapM fun candidate _ => ?_) fun tests => hP.returns_disjoin tests
  split
  · exact returns_pure _
  · exact hP.returns_reify _ _ _

theorem Serves.returns_lookup (hP : Serves P) (index : Expr) (entries : List (ℤ × Expr)) :
    Returns (lookup P index entries) :=
  have hresponds := hP.responds
  returns_bind (returns_mapM fun _ _ => hresponds.newBinary _) fun _ =>
    returns_bind (returns_bind (hresponds.total _) fun _ => hresponds.constrain _ rfl rfl) fun _ =>
      returns_bind (returns_mapM fun _ _ => returns_binary _ _ _ _) fun _ =>
        returns_bind (hresponds.total _) fun _ => returns_bind (returns_binary _ _ _ _) fun _ =>
          returns_bind (hresponds.constrain _ rfl rfl) fun _ =>
            returns_bind (returns_mapM fun _ _ => hP.returns_gated _ _) fun _ => hresponds.total _

theorem Responds.newInteger (hP : Responds P) (first last : ℤ) (hint : String) :
    Returns (newInteger P first last hint) := by
  intro s
  obtain ⟨h, s', hr⟩ := returns_bind (returns_auxiliaryName hint)
    (fun name => hP.createVariable .integer first last name) s
  exact ⟨h, s', runs_bind.mpr ⟨_, s, runs_lift.mpr ⟨Scalar.ofInt?_exact first, rfl⟩,
    runs_bind.mpr ⟨_, s, runs_lift.mpr ⟨Scalar.ofInt?_exact last, rfl⟩, hr⟩⟩⟩

/-- There is a collection under each of the keys. -/
def HasCollections (c : Context Exact) (first last : ℤ) : Prop :=
  ∀ k, first ≤ k → k ≤ last → ∃ xs, Reader.CollectionAt c.workspace c.model k xs

theorem HasCollections.returns (hkeys : HasCollections c first last) {k : ℤ}
    (hk : k ∈ keyRange first last) : Returns (c.collection k : TolerantM Exact σ (List Exact)) := by
  obtain ⟨hfirst, hlast⟩ := mem_keyRange.mp hk
  obtain ⟨xs, hxs⟩ := hkeys k hfirst hlast
  exact fun s => ⟨xs, s, runs_collection.mpr ⟨hxs, rfl⟩⟩

theorem HasCollections.returns_entries (hkeys : HasCollections c first last) (low : ℤ) (width : ℕ) :
    Returns (membershipEntries c low width (keyRange first last) : TolerantM Exact σ _) := by
  refine returns_bind (returns_mapM fun p hp => ?_) fun _ => returns_pure _
  obtain ⟨i, hi, rfl⟩ := List.mem_mapIdx.mp hp
  exact returns_bind (hkeys.returns (List.getElem_mem hi)) fun _ => returns_pure _

/-- The tabulated encoding returns wherever the variable has a handle. -/
theorem Serves.tabulatedMembership_returns (hP : Serves P) (key : Expr)
    (hkeys : HasCollections c first last) (hv : (semantics σ).Valid G s) (ha : s.handle? v = some a)
    (low high : ℤ) :
    ∃ h s', (tabulatedMembership P c key (keyRange first last) v low high).Runs s h s' := by
  obtain ⟨flat, s₁, hflat⟩ := hP.responds.newInteger 0
    ((keyRange first last).length * (high - low + 1) - 1) "member_index" s
  obtain ⟨_, g₁, -⟩ := newInteger_reaches hP.documented hv hflat
  obtain ⟨row, s₂, hrow⟩ := returns_binary (α := Exact) Number.sub .sub key
    (integer ((keyRange first last).headD 0)) s₁
  obtain ⟨start, s₃, hstart⟩ := returns_binary (α := Exact) Number.mul .mul row
    (integer (high - low + 1)) s₂
  have hhandle : s₃.handle? v = some a := by
    rw [handle?_eq (handles_binary hstart), handle?_eq (handles_binary hrow),
      handle?_eq g₁.handles_eq, ha]
  have hzero : ∀ h, Returns (constrain P h realZero realZero) := fun h =>
    hP.responds.constrain h rfl rfl
  obtain ⟨h, s', hrest⟩ := returns_bind (returns_binary (α := Exact) Number.add .add start a)
    (fun sum => returns_bind (returns_binary _ _ sum (integer low)) fun position =>
      returns_bind (returns_binary _ _ flat position) fun _ =>
        returns_bind (hzero _) fun _ =>
          returns_bind (hkeys.returns_entries low (high - low + 1).toNat) fun entries =>
            returns_bind (hP.returns_lookup flat entries) fun result =>
              returns_bind (returns_modifySolver _) fun _ => returns_pure result) s₃
  exact ⟨h, s', runs_bind.mpr ⟨flat, s₁, hflat, runs_bind.mpr ⟨row, s₂, hrow,
    runs_bind.mpr ⟨start, s₃, hstart, runs_bind.mpr ⟨a, s₃, runs_variableHandle.mpr ⟨hhandle, rfl⟩,
      hrest⟩⟩⟩⟩⟩

/-- One test for each key returns, and so does the lookup among them unless the key is a number that is
none of the keys. -/
theorem Serves.membershipByKey_returns (hP : Serves P) (hc : IntegralCollections c)
    (hkeys : HasCollections c first last) (hv : (semantics σ).Valid G s)
    (hkey : (semantics σ).Usable G s key) (ha : (semantics σ).Usable G s a)
    (hhandle : s.handle? v = some a)
    (hrange : key.number? = none ∨ ∃ ρ, Admitted ρ s ∧ first ≤ (semantics σ).int ρ key ∧
      (semantics σ).int ρ key ≤ last) :
    ∃ h s', (membershipByKey (backend P) c key (keyRange first last)
      (variableHandle c v)).Runs s h s' := by
  obtain ⟨entries, s₁, hentries⟩ : ∃ entries s₁, ((keyRange first last).mapM fun k => (do
      let xs ← c.collection k
      let members ← xs.mapM (backend P).constant?
      return (k, ← (backend P).membership a members) : TolerantM Exact σ (ℤ × Expr))).Runs
        s entries s₁ := returns_mapM (fun k hk => returns_bind (hkeys.returns hk) fun _ =>
      returns_bind (returns_mapM fun _ _ => returns_pure _) fun _ =>
        returns_bind (hP.returns_membership a _) fun _ => returns_pure _) s
  obtain ⟨-, -, -, hmap, -⟩ := runs_membershipTests (faithful hP.documented c) hc hv ha hentries
  suffices helement : ∃ h s', ((backend P).element key entries).Runs s₁ h s' by
    obtain ⟨h, s', hr⟩ := helement
    exact ⟨h, s', runs_bind.mpr ⟨a, s, runs_variableHandle.mpr ⟨hhandle, rfl⟩,
      runs_bind.mpr ⟨entries, s₁, hentries, hr⟩⟩⟩
  unfold element
  cases hnumber : key.number? with
  | none => exact hP.returns_lookup key entries s₁
  | some x =>
    obtain rfl := Handle.eq_const hnumber
    obtain ⟨ρ, hρ, hfirst, hlast⟩ := hrange.resolve_left (by simp [hnumber])
    have hround : Numeral.round x = .ok ((semantics σ).int ρ (.const x)) :=
      (faithful hP.documented c).round_eq (hkey.integral ρ hρ)
    have hmem : (semantics σ).int ρ (.const x) ∈ entries.map (·.1) :=
      hmap ▸ mem_keyRange.mpr ⟨hfirst, hlast⟩
    obtain ⟨e, he, hpos⟩ := List.mem_map.mp hmem
    obtain ⟨e', hfind⟩ : ∃ e', entries.find? (·.1 = (semantics σ).int ρ (.const x)) = some e' :=
      Option.isSome_iff_exists.mp (List.find?_isSome.mpr ⟨e, he, by simpa using hpos⟩)
    refine ⟨e'.2, s₁, runs_bind.mpr ⟨_, s₁, runs_lift.mpr ⟨hround, rfl⟩, ?_⟩⟩
    simp only [hfind, Option.map_some]
    exact runs_pure.mpr ⟨rfl, rfl⟩

/-! ### What they admit -/

/-- The values of the key, of the variable and of the result of a run, at the points that are admitted
afterwards. -/
def admittedTriples (m : TolerantM Exact σ Expr) (s : TolerantState σ) (key a : Expr) :
    Set (Exact × Exact × Exact) :=
  {t | ∃ h s' ρ, m.Runs s h s' ∧ Admitted ρ s' ∧ t = (value ρ key, value ρ a, value ρ h)}

/-- One of the keys, a value of the variable within its bounds, and one if it is in the collection under
the key and zero if not, for a key and a value that the state admits together. -/
def memberships (c : Context Exact) (d : Variable Exact) (first last : ℤ) (s : TolerantState σ)
    (key a : Expr) : Set (Exact × Exact × Exact) :=
  {t | ∃ (k n : ℤ) (ms : List ℤ), first ≤ k ∧ k ≤ last ∧ d.Within n ∧
    Reader.CollectionAt c.workspace c.model k (ms.map fun n : ℤ => Exact.finite n) ∧
    t = (.finite k, .finite n, .finite (indicator (n ∈ ms) : ℤ)) ∧
    ∃ ρ, Admitted ρ s ∧ value ρ key = .finite k ∧ value ρ a = .finite n}

/-- What is admitted after a run that tells membership under the keys, if there is a run wherever the
key can be one of them. -/
theorem admittedTriples_eq (hc : IntegralCollections c) {m : TolerantM Exact σ Expr}
    (hv : (semantics σ).Valid G s) (hkey : (semantics σ).Usable G s key)
    (ha : (semantics σ).Usable G s a) (hwithin : ∀ ρ, Admitted ρ s → d.Within ((semantics σ).int ρ a))
    (htells : ∀ h s', m.Runs s h s' → ∃ G', (semantics σ).Step G s G' s' ∧
      (semantics σ).Usable G' s' h ∧
      (∀ ρ, Admitted ρ s' → first ≤ (semantics σ).int ρ key ∧ (semantics σ).int ρ key ≤ last ∧
        ∃ xs, Reader.CollectionAt c.workspace c.model ((semantics σ).int ρ key) xs ∧
          (semantics σ).int ρ h = indicator (∃ x ∈ xs, x = .finite ((semantics σ).int ρ a : ℤ))) ∧
      (semantics σ).Extends s s' fun ρ => first ≤ (semantics σ).int ρ key ∧
        (semantics σ).int ρ key ≤ last)
    (hreturns : (∃ ρ, Admitted ρ s ∧ first ≤ (semantics σ).int ρ key ∧
      (semantics σ).int ρ key ≤ last) → ∃ h s', m.Runs s h s') :
    admittedTriples m s key a = memberships c d first last s key a := by
  have hresult : ∀ {h s' ρ} {ms : List ℤ}, m.Runs s h s' → Admitted ρ s' →
      Reader.CollectionAt c.workspace c.model ((semantics σ).int ρ key)
        (ms.map fun n : ℤ => Exact.finite n) →
      value ρ h = .finite (indicator ((semantics σ).int ρ a ∈ ms) : ℤ) := by
    intro h s' ρ ms hr hρ hms
    obtain ⟨G', -, u, hsound, -⟩ := htells h s' hr
    obtain ⟨-, -, xs, hxs, hvalue⟩ := hsound ρ hρ
    obtain rfl : xs = ms.map fun n : ℤ => Exact.finite n :=
      Except.ok.inj (Except.ok.inj (hxs.symm.trans hms))
    rw [value_eq (u.integral ρ hρ), hvalue]
    exact congrArg (fun n : ℤ => Exact.finite n) (indicator_congr (by simp))
  ext t
  constructor
  · rintro ⟨h, s', ρ, hr, hρ, rfl⟩
    obtain ⟨G', g, -, hsound, -⟩ := htells h s' hr
    obtain ⟨hfirst, hlast, xs, hxs, -⟩ := hsound ρ hρ
    obtain ⟨ms, rfl⟩ := hc _ xs hxs
    have hρ₀ := g.admits ρ hρ
    have hk := value_eq (hkey.integral ρ hρ₀)
    have hn := value_eq (ha.integral ρ hρ₀)
    exact ⟨_, _, ms, hfirst, hlast, hwithin ρ hρ₀, hxs, by rw [hk, hn, hresult hr hρ hxs], ρ, hρ₀, hk,
      hn⟩
  · rintro ⟨k, n, ms, hfirst, hlast, -, hms, rfl, ρ, hρ, hk, hn⟩
    obtain rfl : (semantics σ).int ρ key = k := int_eq hk
    obtain rfl : (semantics σ).int ρ a = n := int_eq hn
    obtain ⟨h, s', hr⟩ := hreturns ⟨ρ, hρ, hfirst, hlast⟩
    obtain ⟨G', g, -, -, hextends⟩ := htells h s' hr
    obtain ⟨ρ', hagree, hρ'⟩ := hextends ρ trivial hρ ⟨hfirst, hlast⟩
    have hkeep : ∀ {b : Expr}, b ∈ G → value ρ b = value ρ' b := fun hb =>
      value_congr hv.world hb hagree
    have hint : ∀ {b : Expr}, b ∈ G → (semantics σ).int ρ b = (semantics σ).int ρ' b := fun hb =>
      congrArg intOf (hkeep hb)
    refine ⟨h, s', ρ', hr, hρ', ?_⟩
    rw [← hkeep hkey.mem, ← hkeep ha.mem, hk, hn, hint ha.mem]
    rw [hint hkey.mem] at hms
    rw [hresult hr hρ' hms]

/-- For a key handle and a variable that is not real and has finite bounds, the tabulated encoding and
one test for each key return, and they admit the same: one of the keys, a value of the variable, and
whether the value is in the collection under the key. Only where the key is a number that is none of the
keys is there no result of the second encoding; the first one admits nothing then either. -/
theorem keyed_memberships_agree (hP : Serves P) (hc : IntegralCollections c) {l u : ℚ}
    (hd : c.workspace.findVariable v = some d) (hkind : d.kind ≠ .real) (hlower : d.lower = .finite l)
    (hupper : d.upper = .finite u) (hle : first ≤ last) (hkeys : HasCollections c first last)
    (hv : (semantics σ).Valid G s) (hkey : (semantics σ).Usable G s key)
    (hhandle : s.handle? v = some a) (ha : (semantics σ).Usable G s a)
    (hwithin : ∀ ρ, Admitted ρ s → d.Within ((semantics σ).int ρ a)) :
    ∃ encode, (backend P).keyedMembership? c key (keyRange first last) v = some encode ∧
      (∃ h s', encode.Runs s h s') ∧
      (key.number? = none ∨ (∃ ρ, Admitted ρ s ∧ first ≤ (semantics σ).int ρ key ∧
          (semantics σ).int ρ key ≤ last) →
        ∃ h s', (membershipByKey (backend P) c key (keyRange first last)
          (variableHandle c v)).Runs s h s') ∧
      admittedTriples encode s key a = memberships c d first last s key a ∧
      admittedTriples (membershipByKey (backend P) c key (keyRange first last) (variableHandle c v))
        s key a = memberships c d first last s key a := by
  have hencode : (backend P).keyedMembership? c key (keyRange first last) v =
      some (tabulatedMembership P c key (keyRange first last) v l.ceil u.floor) := by
    simp [backend, keyedMembership?, hd, hkind, hlower, hupper]
    rfl
  have htable := hP.tabulatedMembership_returns key hkeys hv hhandle l.ceil u.floor
  have htests := hP.membershipByKey_returns hc hkeys hv hkey ha hhandle
  refine ⟨_, hencode, htable, htests, ?_, ?_⟩
  · refine admittedTriples_eq hc hv hkey ha hwithin (fun h s' hr => ?_) fun _ => htable
    obtain ⟨b, hb, hspec⟩ := keyedMembership_spec hP.documented hle hencode hv hkey
      (fun b hb => by
        obtain rfl := Option.some.inj (hhandle.symm.trans hb)
        exact ⟨ha, fun ρ hρ d' hd' => Option.some.inj (hd.symm.trans hd') ▸ hwithin ρ hρ⟩) hr
    obtain rfl := Option.some.inj (hhandle.symm.trans hb)
    exact hspec
  · exact admittedTriples_eq hc hv hkey ha hwithin (fun h s' hr => membershipByKey_spec
      (faithful hP.documented c) hc hv hkey ha (runs_variableHandle.mpr ⟨hhandle, rfl⟩) hr)
      fun hrange => htests (.inr hrange)

/-! ### Two keys and three values -/

namespace Keyed

/-- Nothing under the first key, and a negative number and zero under the second one. -/
def lookup (key : ℤ) : LookupAnswer Exact :=
  if key = 0 then .values [] else if key = 1 then .values [.int (-1), .int 0] else .nothing

def member : Variable Exact where
  kind := .integer
  name := "v"
  lower := .finite (-1)
  upper := .finite 1

def context : Context Exact where
  workspace := {
    vars := #[{ kind := .integer, name := "k", lower := .finite 0, upper := .finite 1 }, member]
    models := #[{
      sense := .feasible
      objective := .node ⟨0⟩ .wrapper [.const (.finite 0)]
      vars := [⟨0⟩, ⟨1⟩]
      lookup := some lookup
      keyCount := 2 }]
    nextNode := 1 }
  model := ⟨0⟩
  config := {}

theorem integralCollections : IntegralCollections context := by
  intro k xs hxs
  obtain ⟨h0, h2⟩ := Reader.key_of_collectionAt hxs
  have hk : k = 0 ∨ k = 1 := by
    have hlt : k < 2 := h2
    omega
  rcases hk with rfl | rfl
  · exact ⟨[], (Except.ok.inj (Except.ok.inj hxs)).symm⟩
  · exact ⟨[-1, 0], (Except.ok.inj (Except.ok.inj hxs)).symm⟩

theorem hasCollections : HasCollections context 0 1 := by
  intro k h0 h1
  obtain rfl | rfl : k = 0 ∨ k = 1 := by omega
  · exact ⟨_, rfl⟩
  · exact ⟨_, rfl⟩

def keyHandle : Expr := .leaf ⟨0⟩ "k" true

def valueHandle : Expr := .leaf ⟨1⟩ "v" true

/-- A solver that was given both variables. -/
def lowered {σ : Type} (own : σ) : TolerantState σ where
  nextHandle := 2
  handles := [(⟨0⟩, keyHandle), (⟨1⟩, valueHandle)]
  solver := {
    epsilon := .real (.finite (1 / 1000000))
    created := #[⟨keyHandle, .integer, .finite 0, .finite 1, "k"⟩,
      ⟨valueHandle, .integer, .finite (-1), .finite 1, "v"⟩]
    solver := own }

def handles : Set Expr := insert valueHandle (insert keyHandle World.numbers)

theorem valid {σ : Type} (own : σ) : (semantics σ).Valid handles (lowered own) where
  world := ((World.of_numbers 0).insert_leaf "k" true).insert_leaf "v" true
  tables := {
    tolerance := ⟨1 / 1000000, rfl, by norm_num, by norm_num⟩
    created := fun {c} hc => by
      rcases (by simpa [lowered] using hc : c = _ ∨ c = _) with rfl | rfl
      · exact .inr (.inl rfl)
      · exact .inl rfl
    posted := fun hr => by simp [lowered] at hr
    binaries := fun hid => by simp [lowered] at hid
    booleans := fun hid => by simp [lowered] at hid }

/-- The variables are integers within their bounds. -/
theorem holds {σ : Type} {own : σ} {ρ : HandleId → ℚ} (hρ : Admitted ρ (lowered own)) {b : Created Exact}
    (hb : b ∈ (lowered own).solver.created.toList) : b.Holds ρ := hρ.1.created hb

/-- Minus one is in the collection under the second key, whichever way it is looked for. -/
theorem minus_one_admitted : ∃ encode,
    (backend Z3.primitives).keyedMembership? context keyHandle (keyRange 0 1) ⟨1⟩ = some encode ∧
      (.finite 1, .finite (-1), .finite 1) ∈ admittedTriples encode (lowered {}) keyHandle valueHandle ∧
      (.finite 1, .finite (-1), .finite 1) ∈ admittedTriples
        (membershipByKey (backend Z3.primitives) context keyHandle (keyRange 0 1)
          (variableHandle context ⟨1⟩)) (lowered {}) keyHandle valueHandle := by
  have hkey : (semantics (Z3.Solver Exact)).Usable handles (lowered {}) keyHandle :=
    ⟨⟨.inr (.inl rfl), fun ρ hρ => (holds hρ (b := ⟨keyHandle, .integer, .finite 0, .finite 1, "k"⟩)
      (by simp [lowered])).kind⟩, trivial⟩
  have hvariable := fun ρ (hρ : Admitted ρ (lowered ({} : Z3.Solver Exact))) =>
    holds hρ (b := ⟨valueHandle, .integer, .finite (-1), .finite 1, "v"⟩) (by simp [lowered])
  have husable : (semantics (Z3.Solver Exact)).Usable handles (lowered {}) valueHandle :=
    ⟨⟨.inl rfl, fun ρ hρ => (hvariable ρ hρ).kind⟩, trivial⟩
  obtain ⟨encode, hencode, -, -, htable, htests⟩ := keyed_memberships_agree (v := ⟨1⟩) (d := member)
    Z3.serves integralCollections rfl (by decide) rfl rfl (by decide) hasCollections (valid {}) hkey rfl husable
    fun ρ hρ => by
      obtain ⟨n, hn⟩ := (hvariable ρ hρ).kind
      have hlower := (hvariable ρ hρ).lower_le
      have hupper := (hvariable ρ hρ).le_upper
      rw [int_eq hn]
      rw [hn] at hlower hupper
      exact ⟨hlower, hupper⟩
  have hmem : (.finite 1, .finite (-1), .finite 1) ∈ memberships context member 0 1
      (lowered ({} : Z3.Solver Exact)) keyHandle valueHandle :=
    ⟨1, -1, [-1, 0], by decide, by decide, by decide, rfl, by simp [indicator],
      fun id => if id = ⟨0⟩ then 1 else -1, ⟨by decide, rfl⟩, by decide,
      by decide⟩
  exact ⟨encode, hencode, htable ▸ hmem, htests ▸ hmem⟩

end Keyed

end DecisionModel.Tolerant
