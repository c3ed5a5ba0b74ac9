import DecisionModel.Proofs.Lowering.Key

/-!
# Lowering of readings of collections

A collection is read either under a constant key or under a key that the solver chooses. In the
second case every key in the range of `KeyLowered` gets an entry of a lookup, and the lookup takes the
one that belongs to the key's value. `aggregate_lowers`, `membership_lowers` and `entry_lowers` say that
what comes out is what evaluation reads, for collections of integers.
-/

namespace DecisionModel

open LowerM Backend

/-- All collections that the model can read consist of integers. -/
def IntegralCollections (c : Context Exact) : Prop :=
  ∀ k xs, Reader.CollectionAt c.workspace c.model k xs →
    ∃ ms : List ℤ, xs = ms.map fun n : ℤ => Exact.finite n

variable {ν σ V : Type} [Numeral ν] {B : Backend Exact ν σ} {S : Semantics ν σ V} {c : Context Exact}
  {origin : NodeId → Option (Term Exact)} {G : Set (Handle ν)} {s s' : LoweringState ν σ}

/-- The term is a collection of these integers, wherever it stands. -/
def Reader.Collects {w : Workspace Exact} {m : ModelId} (r : Reader w m) (container : Term Exact)
    (ms : List ℤ) : Prop :=
  ∀ p, ReadsCollection (r.argument p container) (ms.map fun n : ℤ => Exact.finite n)

omit [Numeral ν] in
theorem runs_collection {k : ℤ} {xs : List Exact} :
    (c.collection k : LowerM Exact ν σ (List Exact)).Runs s xs s' ↔
      Reader.CollectionAt c.workspace c.model k xs ∧ s' = s := by
  unfold Context.collection Reader.CollectionAt
  split
  · rename_i ys h
    rw [h, runs_lift]
    simp
  · rename_i e h
    rw [h]
    simp

omit [Numeral ν] in
theorem runs_keyOf {id : NodeId} {key : Term Exact} {k : Except Fault (Term Exact)} :
    (keyOf c (.node id .collection [key]) : LowerM Exact ν σ _).Runs s k s' ↔
      k = .ok key ∧ s' = s := by
  simp [keyOf, eq_comm]

theorem usable_number (hB : Faithful B S c) (hv : S.Valid G s) {h : Handle ν} {n : ℤ}
    (hn : S.IsNumber h n) : S.Usable G s h := by
  obtain ⟨⟨x, rfl⟩, hint⟩ := hn
  exact ⟨⟨hv.world.const_mem x, fun ρ _ => (hint ρ).1⟩, hB.const_noted _ x⟩

/-- A change that concerns neither the solver nor handles and memo keeps the invariant. -/
theorem Walked.of_sameSolver (hB : Faithful B S c) (hw : Walked S c origin G s)
    (h : s.SameSolver s') (hh : s'.handles = s.handles) (hm : s'.memo = s.memo) :
    S.Step G s G s' ∧ Walked S c origin G s' := by
  have hg := grows_of_sameSolver hB hw.valid h hh
  exact ⟨⟨hg, hm⟩, hw.mono hg hm⟩

theorem Walked.log (hB : Faithful B S c) (hw : Walked S c origin G s) {level : ℤ}
    {line : Except Fault String} {u : Unit}
    (h : (LowerM.log c.config level line : LowerM Exact ν σ Unit).Runs s u s') :
    S.Step G s G s' ∧ Walked S c origin G s' ∧ ∀ D, S.Extends s s' D := by
  obtain ⟨text, -, rfl⟩ := runs_log.mp h
  split
  · have hs : s.SameSolver { s with log := s.log ++ [text] } := ⟨rfl, id, le_rfl⟩
    obtain ⟨g, w⟩ := hw.of_sameSolver hB hs rfl rfl
    exact ⟨g, w, fun _ ρ _ hρ _ => ⟨ρ, Agree.refl _ ρ, hρ⟩⟩
  · exact ⟨.refl hw.valid, hw, fun _ => .refl⟩

/-! ### Aggregates -/

omit [Numeral ν] in
/-- The aggregate that lowering computes is what evaluation gives for the collection. -/
theorem aggregateValue_gives (origin : NodeId → Option (Term Exact)) {name : String}
    (hname : name ∈ ["sum", "avg", "count", "min", "max"])
    {ms : List ℤ} {key : ℤ} {y : Exact}
    (h : (aggregateValue name (ms.map fun n : ℤ => Exact.finite n) key : LowerM Exact ν σ _).Runs
      s y s') :
    s' = s ∧ (name ≠ "avg" → y.IsInt) ∧ ∀ n : ℤ, y = .finite n →
      ∃ evaluator, Operator.builtin? name = some evaluator ∧
        ∀ {w : Workspace Exact} {m : ModelId} (r : Reader w m) (a : Argument Exact),
          Reader.ReadsCollection a (ms.map fun n : ℤ => Exact.finite n) →
            r.Gives origin (evaluator [a]) n := by
  simp only [List.mem_cons, List.not_mem_nil, or_false] at hname
  rcases hname with rfl | rfl | rfl | rfl | rfl
  · simp only [aggregateValue, runs_lift, Scalar.sum_int, Except.ok.injEq] at h
    obtain ⟨rfl, rfl⟩ := h
    refine ⟨rfl, fun _ => ⟨_, rfl⟩, fun n hn => ⟨_, rfl, fun r a ha => ?_⟩⟩
    obtain rfl : ms.sum = n := Int.cast_inj.mp (Exact.finite.inj hn)
    exact Reader.evaluateSum_gives (Reader.items_collection ha)
  · obtain _ | ⟨m, ms⟩ := ms
    · simp [aggregateValue] at h
    · simp only [aggregateValue, List.map_cons, runs_bind, runs_lift] at h
      obtain ⟨x, _, ⟨hx, rfl⟩, hy⟩ := h
      have hsum := (Scalar.sum_int (m :: ms)).symm.trans hx
      cases hsum
      obtain ⟨rfl, rfl⟩ := runs_pure.mp hy
      refine ⟨rfl, fun h => absurd rfl h, fun n hn => ⟨_, rfl, fun r a ha => ?_⟩⟩
      refine Reader.average_gives (n := m) (Reader.items_collection ha) ?_
      refine (Exact.div_int (by omega)).mp (Eq.trans ?_ hn)
      simp [Scalar.ofInt]
  · simp only [aggregateValue, runs_pure] at h
    obtain ⟨rfl, rfl⟩ := h
    refine ⟨rfl, fun _ => ⟨_, rfl⟩, fun n hn => ⟨_, rfl, fun r a ha => ?_⟩⟩
    obtain ⟨cc, hc, hv, -⟩ := ha
    simp only [Operator.evaluateCount, Argument.soleCollection?, hc, hv, Outcome.andThen]
    exact Reader.gives_value hn
  · obtain _ | ⟨m, ms⟩ := ms
    · simp [aggregateValue] at h
    · obtain ⟨rfl, rfl⟩ := runs_pure.mp h
      obtain ⟨k, hk, hm, hle⟩ := Scalar.least_int m ms
      refine ⟨rfl, fun _ => ⟨k, hk⟩, fun n hn => ⟨_, rfl, fun r a ha => ?_⟩⟩
      obtain rfl : k = n := by simpa [hk] using hn
      exact Reader.least_gives (n := m) (Reader.items_collection ha) hm hle
  · obtain _ | ⟨m, ms⟩ := ms
    · simp [aggregateValue] at h
    · obtain ⟨rfl, rfl⟩ := runs_pure.mp h
      obtain ⟨k, hk, hm, hle⟩ := Scalar.greatest_int m ms
      refine ⟨rfl, fun _ => ⟨k, hk⟩, fun n hn => ⟨_, rfl, fun r a ha => ?_⟩⟩
      obtain rfl : k = n := by simpa [hk] using hn
      exact Reader.greatest_gives (n := m) (Reader.items_collection ha) hm hle

/-! ### Keys of collections -/

section

variable {w : Workspace Exact} {m : ModelId} {r : Reader w m} {cid : NodeId} {key : Term Exact}

theorem collects (hkey : (Term.node cid .collection [key]).WellBuilt origin) {k : ℤ} {ms : List ℤ}
    (hk : r.RoundsTo origin key k)
    (hxs : Reader.CollectionAt w m k (ms.map fun n : ℤ => Exact.finite n)) :
    r.Collects (.node cid .collection [key]) ms :=
  fun p => Reader.readsCollection hkey hk hxs p

theorem near_const (x : Exact) : r.Near origin (.const x) := by
  intro n _ h _
  simp [keyUpper, Term.unwrapped] at h

/-- Under a key whose collection could be read the model has a collection. -/
theorem key_in_range (hkey : (Term.node cid .collection [key]).WellBuilt origin) {p : Option Place}
    {cc : CollectionArgument Exact} {xs : List Exact}
    (hcc : (r.argument p (.node cid .collection [key])).collection = some cc)
    (h : cc.values () = .ok (some xs)) {k : ℤ} (hk : r.Means origin key k) :
    0 ≤ k ∧ k < ((w.findModel m).map (·.keyCount)).getD 0 :=
  Reader.key_of_collectionAt (Reader.collectionAt_of_values hkey hk.roundsTo hcc h)

end

theorem arguments_single {w : Workspace Exact} {m : ModelId} (r : Reader w m) (id : NodeId)
    (t : Term Exact) : r.arguments id [t] = [r.argument (some (.constant id 0)) t] := by
  simp [Reader.arguments, Reader.argument, Assignment.arguments]

/-- Entries that belong to the keys one by one. -/
theorem forall₂_entries {β : Type} {P : ℤ → ℤ × β → Prop} {keys : List ℤ} {entries : List (ℤ × β)}
    (h : List.Forall₂ P keys entries) (hP : ∀ k e, P k e → e.1 = k) :
    entries.map (·.1) = keys ∧ ∀ e ∈ entries, P e.1 e := by
  induction h with
  | nil => exact ⟨rfl, by simp⟩
  | cons hp _ ih =>
    obtain rfl := hP _ _ hp
    refine ⟨by rw [List.map_cons, ih.1], fun e he => ?_⟩
    rcases List.mem_cons.mp he with rfl | he
    · exact hp
    · exact ih.2 e he

/-- An operator over the collection under a key, encoded as a lookup among what it gives for each key
in the range of this one. `Q` says how an entry comes from the collection under its key. -/
theorem keyed_lowers (hB : Faithful B S c) (hw : Walked S c origin G s) {t : Term Exact}
    (hnode : t.isNode = true) {cid : NodeId} {key : Term Exact}
    (hkey : (Term.node cid .collection [key]).WellBuilt origin) {handle : Handle ν} {first last : ℤ}
    {G₁ G₂ : Set (Handle ν)} {s₁ s₂ : LoweringState ν σ} {h : Handle ν}
    (hk : KeyLowered S c origin key G s handle first last G₁ s₁) (g₂ : S.Grows G₁ s₁ G₂ s₂)
    (w₂ : Walked S c origin G₂ s₂) (e₂ : S.Extends s₁ s₂ (ReadyAt S c origin s [t]))
    {entries : List (ℤ × Handle ν)} {Q : Reader c.workspace c.model → List ℤ → ℤ → Prop}
    (husable : ∀ e ∈ entries, S.Usable G₂ s₂ e.2)
    (hkeys : entries.map (·.1) = keyRange first last)
    (hentries : ∀ e ∈ entries, ∃ ms : List ℤ,
      Reader.CollectionAt c.workspace c.model e.1 (ms.map fun n : ℤ => Exact.finite n) ∧
        ∀ ρ r, S.Admits ρ s₂ → Matched S s ρ r → Q r ms (S.int ρ e.2))
    (hready : ∀ r : Reader c.workspace c.model, r.Ready origin t → r.Defined key ∧
      r.Near origin key ∧ ∀ k, r.Means origin key k → 0 ≤ k ∧ k < c.keyCount)
    (hholds : ∀ (r : Reader c.workspace c.model) ms n, r.Near origin key →
      r.Collects (.node cid .collection [key]) ms → Q r ms n → r.Holds origin t n)
    (hr : (B.element handle entries).Runs s₂ h s') :
    Lowered S c origin t G s h s' := by
  have hmem : ∀ e ∈ entries, first ≤ e.1 ∧ e.1 ≤ last := fun e he =>
    mem_keyRange.mp (hkeys ▸ List.mem_map_of_mem he)
  have hargs : ∀ a ∈ handle :: entries.map (·.2), S.Usable G₂ s₂ a := by
    intro a ha
    rcases List.mem_cons.mp ha with rfl | ha
    · exact hk.usable.mono g₂
    · obtain ⟨e, he, rfl⟩ := List.mem_map.mp ha
      exact husable e he
  obtain ⟨G₃, g₃, u₃, b₃, e₃⟩ := computes_element hB handle entries w₂.valid hargs hr
  have g₁₂ := hk.grows.trans g₂
  refine ⟨G₃, g₁₂.trans g₃.toGrows, w₂.step g₃, u₃, membersKnown_node hnode, ?_, ?_⟩
  · intro ρ r hρ hm
    have hρ₂ := g₃.admits ρ hρ
    have hmeans := hk.means ρ r (g₂.admits ρ hρ₂) hm
    obtain ⟨e, he, hindex, hvalue⟩ := b₃ ρ hρ
    obtain ⟨ms, hms, hQ⟩ := hentries e he
    refine hholds r ms _ (fun n hn hinf _ => ?_) (collects hkey hmeans.roundsTo (hindex ▸ hms)) ?_
    · have hfar := hk.near hinf
      have hle := (hmem e he).2
      rw [hn.unique hmeans, hindex]
      omega
    · rw [hvalue]
      exact hQ ρ r hρ₂ hm
  · have e₁₂ : S.Extends s s₂ (ReadyAt S c origin s [t]) := by
      refine hk.extends_.trans hk.grows g₂ e₂ ?_ fun ρ ρ₁ _ hD ha _ => hD.congr hB hw ha rfl (by simp)
      rintro ρ - ⟨r, hm, ht⟩
      have hrt := ht t (by simp)
      obtain ⟨hd, hn, hcount⟩ := hready r hrt
      exact ⟨r, hm, hd, hrt.bounded, hn, hcount⟩
    refine e₁₂.trans g₁₂ g₃.toGrows e₃ (fun _ _ h => h) ?_
    rintro ρ ρ₁ - ⟨r, hm, ht⟩ ha hρ₁
    have hrt := ht t (by simp)
    obtain ⟨-, hn, hcount⟩ := hready r hrt
    have hmeans := hk.means ρ₁ r (g₂.admits ρ₁ hρ₁) (hm.congr hB hw ha)
    obtain ⟨h0, hlt⟩ := hcount _ hmeans
    have hin : S.int ρ₁ handle ∈ entries.map (·.1) :=
      hkeys ▸ mem_keyRange.mpr (hk.range r _ hrt.bounded hn hmeans h0 hlt)
    obtain ⟨e, he, hindex⟩ := List.mem_map.mp hin
    exact ⟨e, he, hindex.symm⟩

/-! ### Aggregates of collections -/

/-- An aggregate with a value reads a collection under a key of the model. -/
theorem key_of_aggregate {w : Workspace Exact} {m : ModelId} {r : Reader w m} {id cid : NodeId}
    {name : String} {key : Term Exact} (hname : name ∈ ["sum", "avg", "count", "min", "max"])
    (ht : (Term.node id (.custom name) [.node cid .collection [key]]).WellBuilt origin)
    (hd : r.Defined (.node id (.custom name) [.node cid .collection [key]])) {k : ℤ}
    (hk : r.Means origin key k) : 0 ≤ k ∧ k < ((w.findModel m).map (·.keyCount)).getD 0 := by
  obtain ⟨evaluator, he⟩ : ∃ evaluator, Operator.builtin? (α := Exact) name = some evaluator := by
    simp only [List.mem_cons, List.not_mem_nil, or_false] at hname
    rcases hname with rfl | rfl | rfl | rfl | rfl <;> exact ⟨_, rfl⟩
  obtain ⟨x, hx⟩ := hd.custom he
  rw [arguments_single] at hx
  obtain ⟨cc, hcc⟩ := Option.isSome_iff_exists.mp
    (Reader.collection_argument (r := r) (some (.constant id 0)) (.node cid .collection [key]))
  obtain ⟨xs, hxs⟩ := Reader.exists_values_of_aggregate hname he hcc hx
  exact key_in_range (ht.operand (by simp)) hcc hxs hk

theorem aggregate_holds {r : Reader c.workspace c.model} {id cid : NodeId} {name : String}
    {key : Term Exact} {ms : List ℤ} {n : ℤ} {evaluator : CustomEvaluator Exact}
    (he : Operator.builtin? name = some evaluator) (hn : r.Near origin key)
    (hms : r.Collects (.node cid .collection [key]) ms)
    (hg : ∀ a, Reader.ReadsCollection a (ms.map fun n : ℤ => Exact.finite n) →
      r.Gives origin (evaluator [a]) n) :
    r.Holds origin (.node id (.custom name) [.node cid .collection [key]]) n := by
  refine ⟨Reader.means_custom he ?_, fun hreads => ?_⟩
  · rw [arguments_single]
    exact hg _ (hms _)
  · cases hreads with
    | operand hm _ _ hreads =>
      obtain rfl := List.mem_singleton.mp hm
      rw [hreads.eq_key]
      exact hn

/-- The aggregates of the collections under several keys. -/
theorem runs_aggregates (hB : Faithful B S c) (hc : IntegralCollections c)
    (origin : NodeId → Option (Term Exact)) {name : String} {keys : List ℤ}
    {entries : List (ℤ × Handle ν)} (hname : name ∈ ["sum", "avg", "count", "min", "max"])
    (hlim : S.limited → name ≠ "avg")
    (h : (keys.mapM fun k => (do
      let xs ← c.collection k
      return (k, ← B.constant (← aggregateValue name xs k)) :
        LowerM Exact ν σ (ℤ × Handle ν))).Runs s entries s') :
    s' = s ∧ entries.map (·.1) = keys ∧ ∀ e ∈ entries, ∃ (ms : List ℤ) (n : ℤ),
      Reader.CollectionAt c.workspace c.model e.1 (ms.map fun n : ℤ => Exact.finite n) ∧
        S.IsNumber e.2 n ∧ ∃ evaluator, Operator.builtin? name = some evaluator ∧
          ∀ {w : Workspace Exact} {m : ModelId} (r : Reader w m) (a : Argument Exact),
            Reader.ReadsCollection a (ms.map fun n : ℤ => Exact.finite n) →
              r.Gives origin (evaluator [a]) n := by
  obtain ⟨rfl, hall⟩ := runs_mapM_pure (P := fun k e => e.1 = k ∧ ∃ (ms : List ℤ) (n : ℤ),
      Reader.CollectionAt c.workspace c.model k (ms.map fun n : ℤ => Exact.finite n) ∧
        S.IsNumber e.2 n ∧ ∃ evaluator, Operator.builtin? name = some evaluator ∧
          ∀ {w : Workspace Exact} {m : ModelId} (r : Reader w m) (a : Argument Exact),
            Reader.ReadsCollection a (ms.map fun n : ℤ => Exact.finite n) →
              r.Gives origin (evaluator [a]) n) (fun k _ e s' he => by
    simp only [runs_bind, runs_collection, runs_pure] at he
    obtain ⟨xs, _, ⟨hxs, rfl⟩, y, _, hy, b, _, hb, rfl, rfl⟩ := he
    obtain ⟨ms, rfl⟩ := hc k xs hxs
    obtain ⟨rfl, hint, hgives⟩ := aggregateValue_gives origin hname hy
    obtain ⟨rfl, n, rfl, hn⟩ := hB.constant (fun hl => hint (hlim hl)) hb
    exact ⟨rfl, rfl, ms, n, hxs, hn, hgives n rfl⟩) h
  obtain ⟨hkeys, hentries⟩ := forall₂_entries hall fun _ _ h => h.1
  exact ⟨rfl, hkeys, fun e he => (hentries e he).2⟩

theorem aggregate_lowers (hB : Faithful B S c) (hc : IntegralCollections c) {id cid : NodeId}
    {name : String} {key : Term Exact} (hname : name ∈ ["sum", "avg", "count", "min", "max"])
    (hlim : S.limited → name ≠ "avg")
    (ht : (Term.node id (.custom name) [.node cid .collection [key]]).WellBuilt origin) :
    Lowers S c origin (.node id (.custom name) [.node cid .collection [key]])
      (lowerAggregate B c name (.node cid .collection [key])) := by
  have hkey : (Term.node cid .collection [key]).WellBuilt origin := ht.operand (by simp)
  intro G s h s' hw hr
  simp only [lowerAggregate, runs_bind, runs_keyOf, runs_lift] at hr
  obtain ⟨_, _, ⟨rfl, rfl⟩, _, _, ⟨hok, rfl⟩, hr⟩ := hr
  cases hok
  split at hr
  · rename_i x
    simp only [constantKey, runs_bind, runs_lift, runs_collection] at hr
    obtain ⟨k, _, ⟨hk, rfl⟩, xs, _, ⟨hxs, rfl⟩, y, s₁, hy, hr⟩ := hr
    obtain ⟨ms, rfl⟩ := hc k xs hxs
    obtain ⟨rfl, hint, hgives⟩ := aggregateValue_gives origin hname hy
    obtain ⟨rfl, n, rfl, hn⟩ := hB.constant (fun hl => hint (hlim hl)) hr
    refine ⟨G, .refl hw.valid, hw, usable_number hB hw.valid hn, membersKnown_node rfl, ?_, .refl⟩
    intro ρ r _ _
    rw [(hn.2 ρ).2]
    obtain ⟨evaluator, he, hg⟩ := hgives n rfl
    exact aggregate_holds he (near_const x) (collects hkey (Reader.roundsTo_const hk) hxs) (hg r)
  · simp only [runs_bind] at hr
    obtain ⟨⟨handle, keys⟩, s₁, hkd, entries, s₂, hmap, _, s₃, hlog, hr⟩ := hr
    obtain ⟨first, last, G₁, rfl, hk⟩ := keyDomain_lowers hB hw (hkey.operand (by simp)) hkd
    obtain ⟨rfl, hkeys, hentries⟩ := runs_aggregates hB hc origin hname hlim (by
      simpa only [runs_bind] using hmap)
    obtain ⟨g₃, w₃, e₃⟩ := hk.walked.log hB hlog
    refine keyed_lowers hB hw rfl hkey hk g₃.toGrows w₃ (e₃ _) (Q := fun r ms n => ∃ evaluator,
        Operator.builtin? name = some evaluator ∧ ∀ a, Reader.ReadsCollection a
          (ms.map fun n : ℤ => Exact.finite n) → r.Gives origin (evaluator [a]) n)
      (fun e he => ?_) hkeys (fun e he => ?_) (fun r hready => ?_)
      (fun r ms n hn hms hQ => hQ.elim fun _ h => aggregate_holds h.1 hn hms h.2) hr
    · obtain ⟨ms, n, -, hn, -⟩ := hentries e he
      exact usable_number hB w₃.valid hn
    · obtain ⟨ms, n, hms, hn, evaluator, hev, hg⟩ := hentries e he
      refine ⟨ms, hms, fun ρ r _ _ => ⟨evaluator, hev, fun a ha => ?_⟩⟩
      rw [(hn.2 ρ).2]
      exact hg r a ha
    · have hmem : Term.node cid .collection [key] ∈ [Term.node cid .collection [key]] := by simp
      exact ⟨(hready.defined.operand hmem).operand (by simp),
        hready.near (.operand hmem (by simp) (fun _ => ⟨rfl, rfl⟩) .collection),
        fun k hmeans => key_of_aggregate hname ht hready.defined hmeans⟩

/-! ### Membership -/

/-- The members of a collection of integers are numbers. -/
theorem runs_members (hB : Faithful B S c) {ms : List ℤ} {os : List (Option (Handle ν))}
    (h : ((ms.map fun n : ℤ => Exact.finite n).mapM B.constant?).Runs s os s') :
    s' = s ∧ ∃ hs, os = hs.map some ∧ List.Forall₂ (fun n h => S.IsNumber h n) ms hs := by
  induction ms generalizing os with
  | nil =>
    obtain ⟨rfl, rfl⟩ := runs_mapM_nil.mp h
    exact ⟨rfl, [], rfl, .nil⟩
  | cons m ms ih =>
    obtain ⟨o, s₁, os, h₁, h₂, rfl⟩ := runs_mapM_cons.mp h
    obtain ⟨rfl, a, rfl, ha⟩ := hB.constant? h₁
    obtain ⟨rfl, hs, rfl, hall⟩ := ih h₂
    exact ⟨rfl, a :: hs, rfl, .cons ha hall⟩

omit [Numeral ν] in
theorem exists_number_iff {ms : List ℤ} {hs : List (Handle ν)}
    (h : List.Forall₂ (fun n h => S.IsNumber h n) ms hs) (ρ : HandleId → V) {n : ℤ} :
    (∃ h ∈ hs, n = S.int ρ h) ↔ n ∈ ms := by
  induction h with
  | nil => simp
  | cons hn _ ih => simp [ih, (hn.2 ρ).2]

/-- Membership of a handle in a collection of integers. -/
theorem computes_membership (hB : Faithful B S c) (x : Handle ν) (ms : List ℤ) :
    S.Computes (do B.membership x (← (ms.map fun n : ℤ => Exact.finite n).mapM B.constant?)) [x]
      (fun ρ n => n = indicator (S.int ρ x ∈ ms)) fun _ => True := by
  intro G s h s' hv hargs hr
  obtain ⟨os, s₁, hos, hr⟩ := runs_bind.mp hr
  obtain ⟨rfl, hs, rfl, hall⟩ := runs_members hB hos
  have hargs' : ∀ a ∈ x :: hs, S.Usable G s₁ a := by
    intro a ha
    rcases List.mem_cons.mp ha with rfl | ha
    · exact hargs a (by simp)
    · obtain ⟨k, hk⟩ := List.getElem?_of_mem ha
      obtain ⟨n, -, hn⟩ := forall₂_getElem?_right hall hk
      exact usable_number hB hv hn
  obtain ⟨G₁, g₁, u₁, b₁, e₁⟩ := hB.membership x hs hv hargs' hr
  exact ⟨G₁, g₁, u₁, fun ρ hρ => (b₁ ρ hρ).trans (indicator_congr (exists_number_iff hall ρ)), e₁⟩

section

variable {w : Workspace Exact} {m : ModelId} {r : Reader w m} {id cid : NodeId} {name : String}
  {u key : Term Exact}

theorem arguments_pair (r : Reader w m) (id : NodeId) (t u : Term Exact) :
    r.arguments id [t, u] =
      [r.argument (some (.constant id 0)) t, r.argument (some (.constant id 1)) u] := by
  simp [Reader.arguments, Reader.argument, Assignment.arguments]

theorem stands_operand {op : Operator} {ts : List (Term Exact)} {k : ℕ} {t : Term Exact}
    (ht : (Term.node id op ts).WellBuilt origin) (hk : ts[k]? = some t) :
    Reader.Stands origin (some (.constant id k)) t := by
  rintro q ⟨⟩
  exact ⟨id, k, op, ts, rfl, ht.registered (.refl _) rfl, hk⟩

/-- A node over a term and a collection reads what the term reads and the key of the collection. -/
theorem near_operands (cid : NodeId) {op : Operator} {ts : List (Term Exact)}
    (hts : ∀ t ∈ ts, t = u ∨ t = .node cid .collection [key]) (hop : op ≠ .collection)
    (hu : ∀ {key' : Term Exact}, u.ReadsKey key' → r.Near origin key') (hn : r.Near origin key)
    {key' : Term Exact} (h : (Term.node id op ts).ReadsKey key') : r.Near origin key' := by
  cases h with
  | collection => exact absurd rfl hop
  | operand hm _ _ h =>
    rcases hts _ hm with rfl | rfl
    · exact hu h
    · rw [h.eq_key]
      exact hn

/-- Whether an integer is in a collection, as a node of any test of membership. -/
theorem membership_holds (ht : (Term.node id (.custom name) [u, .node cid .collection [key]]).WellBuilt
      origin) {v : ℤ} {ms : List ℤ} (hu : r.Holds origin u v) (hn : r.Near origin key)
    (hms : r.Collects (.node cid .collection [key]) ms) :
    r.Holds origin (.node id (.custom "element_of") [u, .node cid .collection [key]])
      (indicator (v ∈ ms)) := by
  refine ⟨Reader.means_custom rfl ?_, near_operands cid (by simp) (by simp) hu.near hn⟩
  rw [arguments_pair]
  exact Reader.membership_gives (hu.means _ (stands_operand ht rfl))
    (Reader.items_collection (hms _))

/-- Whether a constant is in a collection; it need not be an integer. -/
theorem constant_membership_holds {x : Exact} {n : ℤ} {ms : List ℤ} (hn : r.Near origin key)
    (hms : r.Collects (.node cid .collection [key]) ms)
    (h : Scalar.ofBool (Scalar.isMember x (ms.map fun n : ℤ => Exact.finite n)) = Exact.finite n) :
    r.Holds origin (.node id (.custom "element_of") [.const x, .node cid .collection [key]]) n := by
  refine ⟨Reader.means_custom rfl ?_,
    near_operands cid (u := .const x) (by simp) (by simp) (by rintro _ ⟨⟩) hn⟩
  rw [arguments_pair]
  obtain ⟨cc, hcc, hv, text, htext⟩ := hms (some (.constant id 1))
  have hany : ((ms.map fun n : ℤ => Exact.finite n).map Reading.computed).any
      (Reading.isSame ⟨x, some (.constant id 0)⟩) =
        Scalar.isMember x (ms.map fun n : ℤ => Exact.finite n) := by
    simp [Scalar.isMember, List.any_map, Function.comp_def, Reading.isSame, Reading.computed]
  simp only [Operator.evaluateMembership, Argument.nth, List.getElem?_cons_zero, List.tail_cons,
    Argument.withItems, Argument.items, Argument.soleCollection?, hcc, hv, Outcome.lift, htext]
  exact Reader.gives_value (hany ▸ h)

/-- A test of membership with a value reads a collection under a key of the model. -/
theorem ready_membership (ht : (Term.node id (.custom name) [u, .node cid .collection [key]]).WellBuilt
      origin)
    (h : r.Ready origin (.node id (.custom "element_of") [u, .node cid .collection [key]])) :
    r.Ready origin u ∧ r.Defined key ∧ r.Near origin key ∧
      ∀ k, r.Means origin key k → 0 ≤ k ∧ k < ((w.findModel m).map (·.keyCount)).getD 0 := by
  have hmem : Term.node cid .collection [key] ∈ [u, .node cid .collection [key]] := by simp
  refine ⟨h.operand (by simp) (by simp) (by simp), (h.defined.operand hmem).operand (by simp),
    h.near (.operand hmem (by simp) (by simp) .collection), fun k hk => ?_⟩
  obtain ⟨x, hx⟩ := h.defined.custom rfl
  rw [arguments_pair] at hx
  obtain ⟨cc, hcc⟩ := Option.isSome_iff_exists.mp
    (Reader.collection_argument (r := r) (some (.constant id 1)) (.node cid .collection [key]))
  obtain ⟨xs, hxs⟩ := Reader.exists_values_of_membership hcc hx
  exact key_in_range (ht.operand hmem) hcc hxs hk

end

/-- A variable, in a wrapper or not, has the value of the variable. -/
theorem variable_holds {w : Workspace Exact} {m : ModelId} {r : Reader w m} {u : Term Exact}
    {v : VarId} {n : ℤ} (hu : u.WellBuilt origin) (hv : u.unwrapped = .var v)
    (hread : r.read v = .ok (some ⟨.finite n, some (.stored v)⟩)) : r.Holds origin u n := by
  refine ⟨means_of_unwrapped (by simp [hv, Term.isNode]) (by simp [hv, Term.isConst])
    (hv ▸ Reader.means_var hread), fun hk => ?_⟩
  unfold Term.unwrapped at hv
  split at hv
  · obtain ⟨t, hts⟩ := hu.shape (.refl _)
    cases hts
    subst hv
    cases hk with
    | operand hm _ _ hk =>
      obtain rfl := List.mem_singleton.mp hm
      cases hk
  · subst hv
    cases hk

/-- One test of membership for each of several keys. -/
theorem runs_membershipTests (hB : Faithful B S c) (hc : IntegralCollections c) {a : Handle ν}
    {keys : List ℤ} {entries : List (ℤ × Handle ν)} (hv : S.Valid G s) (ha : S.Usable G s a)
    (h : (keys.mapM fun k => (do
      let xs ← c.collection k
      let members ← xs.mapM B.constant?
      return (k, ← B.membership a members) : LowerM Exact ν σ (ℤ × Handle ν))).Runs s entries s') :
    ∃ G', S.Step G s G' s' ∧ S.Extends s s' (fun _ => True) ∧ entries.map (·.1) = keys ∧
      ∀ e ∈ entries, S.Usable G' s' e.2 ∧ ∃ ms : List ℤ,
        Reader.CollectionAt c.workspace c.model e.1 (ms.map fun n : ℤ => Exact.finite n) ∧
          ∀ ρ, S.Admits ρ s' → S.int ρ e.2 = indicator (S.int ρ a ∈ ms) := by
  obtain ⟨G', g, hall, e⟩ := Semantics.steps_mapM (S := S) (·.2) [a]
    (K := fun k e => e.1 = k ∧ ∃ ms : List ℤ,
      Reader.CollectionAt c.workspace c.model k (ms.map fun n : ℤ => Exact.finite n))
    (P := fun k e ρ => ∀ ms : List ℤ,
      Reader.CollectionAt c.workspace c.model k (ms.map fun n : ℤ => Exact.finite n) →
        S.int ρ e.2 = indicator (S.int ρ a ∈ ms))
    (fun k _ G s e s' hv hargs he => by
      obtain ⟨xs, _, hread, he⟩ := runs_bind.mp he
      obtain ⟨hxs, rfl⟩ := runs_collection.mp hread
      obtain ⟨ms, rfl⟩ := hc k xs hxs
      obtain ⟨os, s₁, hos, he⟩ := runs_bind.mp he
      obtain ⟨b, s₂, hb, he⟩ := runs_bind.mp he
      obtain ⟨rfl, rfl⟩ := runs_pure.mp he
      obtain ⟨G', g', u', b', e'⟩ := computes_membership hB a ms hv hargs
        (runs_bind.mpr ⟨os, s₁, hos, hb⟩)
      refine ⟨⟨rfl, ms, hxs⟩, G', g', u', fun ρ hρ ms' hms' => ?_, e'⟩
      rw [b' ρ hρ, hms'.unique hxs]) hv (by simpa using ha) h
  obtain ⟨hkeys, hentries⟩ := forall₂_entries hall fun _ _ h => h.1.1
  refine ⟨G', g, e, hkeys, fun e he => ?_⟩
  obtain ⟨⟨-, ms, hms⟩, hu, hP⟩ := hentries e he
  exact ⟨hu, ms, hms, fun ρ hρ => hP ρ hρ ms hms⟩

/-- Membership of a handle under a key, by one test for each key: the key has to be one of them. -/
theorem membershipByKey_spec (hB : Faithful B S c) (hc : IntegralCollections c) {key a h : Handle ν}
    {lower : LowerM Exact ν σ (Handle ν)} {first last : ℤ} (hv : S.Valid G s)
    (hkey : S.Usable G s key) (ha : S.Usable G s a) (hlower : lower.Runs s a s)
    (hr : (membershipByKey B c key (keyRange first last) lower).Runs s h s') :
    ∃ G', S.Step G s G' s' ∧ S.Usable G' s' h ∧
      (∀ ρ, S.Admits ρ s' → first ≤ S.int ρ key ∧ S.int ρ key ≤ last ∧ ∃ xs,
        Reader.CollectionAt c.workspace c.model (S.int ρ key) xs ∧
          S.int ρ h = indicator (∃ x ∈ xs, x = .finite (S.int ρ a))) ∧
      S.Extends s s' fun ρ => first ≤ S.int ρ key ∧ S.int ρ key ≤ last := by
  simp only [membershipByKey, runs_bind] at hr
  obtain ⟨a', s₁, hrun, entries, s₂, hmap, hr⟩ := hr
  obtain ⟨rfl, rfl⟩ := runs_unique hrun hlower
  obtain ⟨G₂, g₂, e₂, hkeys, hentries⟩ := runs_membershipTests hB hc hv ha hmap
  have hmem : ∀ k, k ∈ entries.map (·.1) ↔ first ≤ k ∧ k ≤ last := fun k => by
    rw [hkeys, mem_keyRange]
  obtain ⟨G₃, g₃, u₃, b₃, e₃⟩ := computes_element hB key entries g₂.valid (fun b hb => by
    rcases List.mem_cons.mp hb with rfl | hb
    · exact hkey.mono g₂.toGrows
    · obtain ⟨e, he, rfl⟩ := List.mem_map.mp hb
      exact (hentries e he).1) hr
  refine ⟨G₃, g₂.trans g₃, u₃, fun ρ hρ => ?_, ?_⟩
  · obtain ⟨e, he, hindex, hvalue⟩ := b₃ ρ hρ
    obtain ⟨-, ms, hms, htest⟩ := hentries e he
    obtain ⟨hfirst, hlast⟩ := (hmem e.1).mp (List.mem_map_of_mem he)
    refine ⟨hindex ▸ hfirst, hindex ▸ hlast, _, hindex ▸ hms, ?_⟩
    rw [hvalue, htest ρ (g₃.admits ρ hρ)]
    exact indicator_congr (by simp)
  · refine e₂.trans g₂.toGrows g₃.toGrows e₃ (fun _ _ _ => trivial) fun ρ ρ₁ _ hrange ha _ => ?_
    rw [hB.int_congr hv.world hkey.mem ha] at hrange
    obtain ⟨e, he, hindex⟩ := List.mem_map.mp ((hmem _).mpr hrange)
    exact ⟨e, he, hindex.symm⟩

/-- The test for one constant, computed for each of several keys. -/
theorem runs_constantTests (hB : Faithful B S c) (hc : IntegralCollections c) {x : Exact}
    {keys : List ℤ} {entries : List (ℤ × Handle ν)}
    (h : (keys.mapM fun k => (do
      let xs ← c.collection k
      return (k, ← B.constant (Scalar.ofBool (Scalar.isMember x xs))) :
        LowerM Exact ν σ (ℤ × Handle ν))).Runs s entries s') :
    s' = s ∧ entries.map (·.1) = keys ∧ ∀ e ∈ entries, ∃ (ms : List ℤ) (n : ℤ),
      Reader.CollectionAt c.workspace c.model e.1 (ms.map fun n : ℤ => Exact.finite n) ∧
        S.IsNumber e.2 n ∧
          Scalar.ofBool (Scalar.isMember x (ms.map fun n : ℤ => Exact.finite n)) = Exact.finite n := by
  obtain ⟨rfl, hall⟩ := runs_mapM_pure (P := fun k e => e.1 = k ∧ ∃ (ms : List ℤ) (n : ℤ),
      Reader.CollectionAt c.workspace c.model k (ms.map fun n : ℤ => Exact.finite n) ∧
        S.IsNumber e.2 n ∧
          Scalar.ofBool (Scalar.isMember x (ms.map fun n : ℤ => Exact.finite n)) = Exact.finite n)
    (fun k _ e s' he => by
      simp only [runs_bind, runs_collection, runs_pure] at he
      obtain ⟨xs, _, ⟨hxs, rfl⟩, b, _, hb, rfl, rfl⟩ := he
      obtain ⟨ms, rfl⟩ := hc k xs hxs
      obtain ⟨rfl, n, hn, hnum⟩ := hB.constant (fun _ => Scalar.isInt_ofBool _) hb
      exact ⟨rfl, rfl, ms, n, hxs, hnum, hn⟩) h
  obtain ⟨hkeys, hentries⟩ := forall₂_entries hall fun _ _ h => h.1
  exact ⟨rfl, hkeys, fun e he => (hentries e he).2⟩

theorem membershipByKey_lowers (hB : Faithful B S c) (hc : IntegralCollections c) {id cid : NodeId}
    {name : String} {u key : Term Exact} {lower : LowerM Exact ν σ (Handle ν)} {handle h : Handle ν}
    {first last : ℤ} {G₁ : Set (Handle ν)} {s₁ : LoweringState ν σ}
    (ht : (Term.node id (.custom name) [u, .node cid .collection [key]]).WellBuilt origin)
    (hu : Lowers S c origin u lower) (hw : Walked S c origin G s)
    (hk : KeyLowered S c origin key G s handle first last G₁ s₁)
    (hr : (membershipByKey B c handle (keyRange first last) lower).Runs s₁ h s') :
    Lowered S c origin (.node id (.custom "element_of") [u, .node cid .collection [key]]) G s h
      s' := by
  simp only [membershipByKey, runs_bind] at hr
  obtain ⟨a, s₂, ha, entries, s₃, hmap, hr⟩ := hr
  obtain ⟨G₂, g₂, w₂, u₂, -, b₂, e₂⟩ := hu hk.walked ha
  obtain ⟨G₃, g₃, e₃, hkeys, hentries⟩ := runs_membershipTests hB hc w₂.valid u₂ hmap
  have hkey : (Term.node cid .collection [key]).WellBuilt origin := ht.operand (by simp)
  have e₂₃ : S.Extends s₁ s₃ (ReadyAt S c origin s
      [.node id (.custom "element_of") [u, .node cid .collection [key]]]) := by
    refine e₂.trans g₂ g₃.toGrows e₃ ?_ fun _ _ _ _ _ _ => trivial
    rintro ρ - ⟨r, hm, ht'⟩
    exact ⟨r, (matched_iff hk.grows.handles_eq).mpr hm,
      by simpa using (ready_membership ht (ht' _ (by simp))).1⟩
  exact keyed_lowers hB hw rfl hkey hk (g₂.trans g₃.toGrows) (w₂.step g₃) e₂₃
    (Q := fun r ms n => ∃ v, r.Holds origin u v ∧ n = indicator (v ∈ ms))
    (fun e he => (hentries e he).1) hkeys (fun e he => by
      obtain ⟨-, ms, hms, htest⟩ := hentries e he
      exact ⟨ms, hms, fun ρ r hρ hm => ⟨_, b₂ ρ r (g₃.admits ρ hρ)
        ((matched_iff hk.grows.handles_eq).mpr hm), htest ρ hρ⟩⟩)
    (fun r h => (ready_membership ht h).2) (fun r ms n hn hms hQ => by
      obtain ⟨v, hv, rfl⟩ := hQ
      exact membership_holds ht hv hn hms) hr

/-- The test for a constant is an element of the tests computed for each key. -/
theorem constantTests_lowers (hB : Faithful B S c) (hc : IntegralCollections c) {id cid : NodeId}
    {name : String} {x : Exact} {key : Term Exact} {handle h : Handle ν} {first last : ℤ}
    {G₁ : Set (Handle ν)} {s₁ : LoweringState ν σ}
    (ht : (Term.node id (.custom name) [.const x, .node cid .collection [key]]).WellBuilt origin)
    (hw : Walked S c origin G s) (hk : KeyLowered S c origin key G s handle first last G₁ s₁)
    (hr : (do
      let entries ← (keyRange first last).mapM fun k => (do
        let xs ← c.collection k
        return (k, ← B.constant (Scalar.ofBool (Scalar.isMember x xs))) :
          LowerM Exact ν σ (ℤ × Handle ν))
      B.element handle entries).Runs s₁ h s') :
    Lowered S c origin (.node id (.custom "element_of") [.const x, .node cid .collection [key]]) G s h
      s' := by
  obtain ⟨entries, s₂, hmap, hel⟩ := runs_bind.mp hr
  obtain ⟨rfl, hkeys, hentries⟩ := runs_constantTests hB hc hmap
  refine keyed_lowers hB hw rfl (ht.operand (by simp)) hk (.refl hk.walked.valid) hk.walked .refl
    (Q := fun _ ms n => Scalar.ofBool (Scalar.isMember _
      (ms.map fun n : ℤ => Exact.finite n)) = Exact.finite n) (fun e he => ?_) hkeys
    (fun e he => ?_) (fun r h => (ready_membership ht h).2)
    (fun r ms n hn hms hQ => constant_membership_holds hn hms hQ) hel
  · obtain ⟨ms, n, -, hn, -⟩ := hentries e he
    exact usable_number hB hk.walked.valid hn
  · obtain ⟨ms, n, hms, hn, htest⟩ := hentries e he
    refine ⟨ms, hms, fun ρ r _ _ => ?_⟩
    rw [(hn.2 ρ).2]
    exact htest

/-- The test for a variable by the encoding that the back-end has for a variable and a key. -/
theorem keyedMembership_lowers (hB : Faithful B S c) (hc : IntegralCollections c) {id cid : NodeId}
    {name : String} {u key : Term Exact} {v : VarId} {encode : LowerM Exact ν σ (Handle ν)}
    {handle h : Handle ν} {first last : ℤ} {G₁ : Set (Handle ν)} {s₁ : LoweringState ν σ}
    (ht : (Term.node id (.custom name) [u, .node cid .collection [key]]).WellBuilt origin)
    (hv : u.unwrapped = .var v) (hw : Walked S c origin G s)
    (hk : KeyLowered S c origin key G s handle first last G₁ s₁)
    (hencode : B.keyedMembership? c handle (keyRange first last) v = some encode)
    (hr : encode.Runs s₁ h s') :
    Lowered S c origin (.node id (.custom "element_of") [u, .node cid .collection [key]]) G s h
      s' := by
  obtain ⟨hv', hh, G₂, g₂, u₂, b₂, e₂⟩ := hB.keyedMembership hk.first_le hencode
    hk.walked.valid hk.usable (fun hv hh => ⟨hk.walked.handles hh,
      fun ρ hρ d hd => hk.walked.fits hh hd ρ hρ⟩) hr
  refine ⟨G₂, hk.grows.trans g₂.toGrows, hk.walked.step g₂, u₂, membersKnown_node rfl, ?_, ?_⟩
  · intro ρ r hρ hm
    have hmeans := hk.means ρ r (g₂.admits ρ hρ) hm
    obtain ⟨-, hlast, xs, hxs, hvalue⟩ := b₂ ρ hρ
    obtain ⟨ms, rfl⟩ := hc _ xs hxs
    have hval := variable_holds (ht.operand (by simp)) hv
      (hm v hv' (handle?_eq hk.grows.handles_eq v ▸ hh))
    rw [hvalue, indicator_congr (q := S.int ρ hv' ∈ ms) (by simp)]
    refine membership_holds ht hval (fun n hn hinf _ => ?_)
      (collects (ht.operand (by simp)) hmeans.roundsTo hxs)
    have hfar := hk.near hinf
    rw [hn.unique hmeans]
    omega
  · refine hk.extends_.trans hk.grows g₂.toGrows e₂ ?_ ?_
    · rintro ρ - ⟨r, hm, ht'⟩
      have hrt := ht' _ (List.mem_singleton_self _)
      obtain ⟨-, hd, hn, hcount⟩ := ready_membership ht hrt
      exact ⟨r, hm, hd, hrt.bounded, hn, hcount⟩
    · rintro ρ ρ₁ - ⟨r, hm, ht'⟩ ha hρ₁
      have hrt := ht' _ (List.mem_singleton_self _)
      obtain ⟨-, -, hn, hcount⟩ := ready_membership ht hrt
      have hmeans := hk.means ρ₁ r hρ₁ (hm.congr hB hw ha)
      obtain ⟨h0, hlt⟩ := hcount _ hmeans
      exact hk.range r _ hrt.bounded hn hmeans h0 hlt

/-- Membership in a collection is lowered as the node of `element_of` would be, whichever test it is
part of. -/
theorem membership_lowers (hB : Faithful B S c) (hc : IntegralCollections c) {id cid : NodeId}
    {name : String} {u key : Term Exact} {lower : LowerM Exact ν σ (Handle ν)}
    (ht : (Term.node id (.custom name) [u, .node cid .collection [key]]).WellBuilt origin)
    (hu : Lowers S c origin u lower) :
    Lowers S c origin (.node id (.custom "element_of") [u, .node cid .collection [key]])
      (lowerMembership B c ⟨u, lower⟩ (.node cid .collection [key])) := by
  have hkey : (Term.node cid .collection [key]).WellBuilt origin := ht.operand (by simp)
  intro G s h s' hw hr
  simp only [lowerMembership, runs_bind, runs_keyOf, runs_lift] at hr
  obtain ⟨_, _, ⟨rfl, rfl⟩, _, _, ⟨hok, rfl⟩, hr⟩ := hr
  cases hok
  split at hr
  · rename_i x
    obtain ⟨k, _, hround, hr₁⟩ := runs_bind.mp hr
    obtain ⟨hk, rfl⟩ := runs_lift.mp hround
    obtain ⟨xs, _, hread, hr₂⟩ := runs_bind.mp hr₁
    obtain ⟨hxs, rfl⟩ := runs_collection.mp hread
    obtain ⟨ms, rfl⟩ := hc k xs hxs
    have hms := fun r : Reader c.workspace c.model =>
      collects (r := r) hkey (Reader.roundsTo_const hk) hxs
    split at hr₂
    · obtain ⟨rfl, n, hn, hnum⟩ := hB.constant (fun _ => Scalar.isInt_ofBool _) hr₂
      refine ⟨G, .refl hw.valid, hw, usable_number hB hw.valid hnum, membersKnown_node rfl, ?_, .refl⟩
      intro ρ r _ _
      rw [(hnum.2 ρ).2]
      exact constant_membership_holds (near_const x) (hms r) hn
    · refine hu.compute hB rfl (fun a => computes_membership hB a ms) (fun a ρ r n ha hn => ?_)
        (fun r h => (ready_membership ht h).1) (fun _ _ _ _ _ => trivial) hw hr₂
      rw [hn]
      exact membership_holds ht ha (near_const x) (hms r)
  · simp only [runs_bind] at hr
    obtain ⟨⟨handle, keys⟩, s₁, hkd, hr⟩ := hr
    obtain ⟨first, last, G₁, rfl, hk⟩ := keyDomain_lowers hB hw (hkey.operand (by simp)) hkd
    dsimp only at hr
    split at hr
    · exact constantTests_lowers hB hc ht hw hk hr
    · rename_i v hnc hv
      split at hr
      · rename_i encode hencode
        exact keyedMembership_lowers hB hc ht hv hw hk hencode hr
      · exact membershipByKey_lowers hB hc ht hu hw hk hr
    · exact membershipByKey_lowers hB hc ht hu hw hk hr

end DecisionModel
