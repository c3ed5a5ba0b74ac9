import DecisionModel.Proofs.CpSat.Arithmetic

/-!
# Creation of variables for CP-SAT

A truth value is a literal, which its bounds may fix; an integer variable has the integers within its
bounds, as far as they are within the widest domain, as its domain. The members of a sequence are
one more than positions that all differ, so they are the permutations (`createSequence_spec`).
-/

namespace DecisionModel.CpSat

open LowerM

variable {G G' : Set Expr} {s s' : CpSatState} {h : Expr} {d : Variable Exact}

/-! ### Variables -/

theorem createBoolean_spec (hkind : d.kind = .boolean) (hv : semantics.Valid G s)
    (hr : (createBoolean d).Runs s h s') : ∃ G', semantics.Step G s G' s' ∧
      semantics.Usable G' s' h ∧ ∀ n, Allowed d n → semantics.Reaches s s' h n := by
  simp only [createBoolean, runs_bind, runs_lift] at hr
  obtain ⟨l, s₁, hleaf, _, s₂, hcall, _, _, hliterals, lower, _, ⟨hlower, rfl⟩, upper, s₃,
    ⟨hupper, rfl⟩, hr⟩ := hr
  obtain ⟨rfl, -⟩ := runs_leaf.mp hleaf
  have hvariable : (do
      let h ← leaf d.name true
      call (.newBoolean (.leaf ⟨s.nextHandle⟩ d.name true))
      return h : CpSatM Exact Expr).Runs s (.leaf ⟨s.nextHandle⟩ d.name true) s₂ :=
    runs_bind.mpr ⟨_, s₁, hleaf, runs_bind.mpr ⟨_, s₂, hcall, runs_pure.mpr ⟨rfl, rfl⟩⟩⟩
  obtain ⟨G₂, g₂, -, hmem, -, b₂, e₂⟩ := step_variable hv (by rfl) hvariable
  obtain ⟨g₃, e₃⟩ := step_literals g₂.valid hmem (fun ρ hρ => b₂ ρ hρ) hliterals
  have hcongr : ∀ {t : CpSatState}, s₂.nextHandle ≤ t.nextHandle → ∀ ρ ρ', Agree t.nextHandle ρ ρ' →
      value ρ (.leaf ⟨s.nextHandle⟩ d.name true) = value ρ' (.leaf ⟨s.nextHandle⟩ d.name true) :=
    fun hle ρ ρ' ha => value_congr (g₂.valid.world.mono hle) hmem ha
  have hbinary : ∀ ρ, Admitted ρ s₃ → Bounds.Contains ⟨0, 1⟩
      (value ρ (.leaf ⟨s.nextHandle⟩ d.name true)) := by
    intro ρ hρ
    rcases b₂ ρ (g₃.admits ρ hρ) with h0 | h1
    · simp [Bounds.Contains, h0]
    · simp [Bounds.Contains, h1]
  have hreach : ∀ n, Allowed d n →
      semantics.Reaches s s₃ (.leaf ⟨s.nextHandle⟩ d.name true) n := by
    intro n hn
    have hnew : semantics.Reaches s s₂ (.leaf ⟨s.nextHandle⟩ d.name true) n := fun ρ _ hρ =>
      e₂ ρ n (fun ρ' hρ' => (hn.truth hkind).imp hρ'.trans hρ'.trans) hρ
    exact hnew.extend g₂.toGrows g₃.toGrows (e₃ fun _ => True) (hcongr le_rfl) fun _ _ => trivial
  have hfixed : ∀ n, Allowed d n → lower ≤ n ∧ n ≤ upper := fun n hn =>
    ⟨(Exact.ceil_le_iff hlower).mpr hn.within.1, (Exact.le_floor_iff hupper).mpr hn.within.2⟩
  split at hr
  · rename_i heq
    obtain ⟨_, s₄, hrequire, htrack⟩ := runs_bind.mp hr
    obtain ⟨G₄, g₄, -, e₄⟩ := posts_require (α := Exact) _ handles_linear g₃.valid
      (by simpa using ⟨held_iff.mpr hmem, (usable_number g₃.valid lower).toHeld⟩) hrequire
    obtain ⟨rfl, g₅, u₅, e₅⟩ := step_track g₄.valid (g₄.subset hmem)
      (fun _ ρ hρ => hbinary ρ (g₄.admits ρ hρ)) htrack
    refine ⟨G₄, g₂.trans (g₃.trans (g₄.trans g₅)), u₅, fun n hn => ?_⟩
    have hposted := (hreach n hn).extend (g₂.trans g₃).toGrows g₄.toGrows e₄ (hcongr g₃.next_le)
      fun ρ hρ => by
        have hle := hfixed n hn
        rw [holds_linear, show value ρ _ = n from hρ, value_const]
        exact le_antisymm (heq ▸ hle.2) hle.1
    exact hposted.extend (g₂.trans (g₃.trans g₄)).toGrows g₅.toGrows (e₅ fun _ => True)
      (hcongr (g₃.trans g₄).next_le) fun _ _ => trivial
  · obtain ⟨rfl, g₅, u₅, e₅⟩ := step_track g₃.valid hmem (fun _ => hbinary) hr
    exact ⟨G₂, g₂.trans (g₃.trans g₅), u₅, fun n hn => (hreach n hn).extend (g₂.trans g₃).toGrows
      g₅.toGrows (e₅ fun _ => True) (hcongr g₃.next_le) fun _ _ => trivial⟩

/-- The least integer of a domain. -/
def leastOf {α : Type} [Scalar α] (d : Variable α) : Except Fault ℤ :=
  if (Scalar.exact d.lower).eq .negInf then .ok (-unboundedLimit)
  else (Scalar.exact d.lower).ceil.map (max (-unboundedLimit))

/-- The greatest integer of a domain. -/
def greatestOf {α : Type} [Scalar α] (d : Variable α) : Except Fault ℤ :=
  if (Scalar.exact d.upper).eq .posInf then .ok unboundedLimit
  else (Scalar.exact d.upper).floor.map (min unboundedLimit)

theorem domainOf_eq {α : Type} [Scalar α] (d : Variable α) :
    domainOf d = (leastOf d).bind fun l => (greatestOf d).map fun u => ⟨l, u⟩ := by
  unfold domainOf leastOf greatestOf
  split <;> split <;> rfl

theorem exists_of_map_ok {β γ : Type} {f : β → γ} {x : Except Fault β} {y : γ}
    (h : x.map f = .ok y) : ∃ a, x = .ok a ∧ f a = y := by
  cases x with
  | error e => cases h
  | ok a =>
    cases h
    exact ⟨a, rfl, rfl⟩

theorem exists_of_domainOf {α : Type} [Scalar α] {d : Variable α} {b : Bounds}
    (hb : domainOf d = .ok b) : leastOf d = .ok b.lower ∧ greatestOf d = .ok b.upper := by
  rw [domainOf_eq] at hb
  cases hl : leastOf d with
  | error f => simp [hl, Except.bind] at hb
  | ok l =>
    rw [hl] at hb
    obtain ⟨u, hu, rfl⟩ := exists_of_map_ok hb
    exact ⟨rfl, hu⟩

/-- A domain reaches no farther than that of a variable without bounds. -/
theorem domainOf_limited {α : Type} [Scalar α] {d : Variable α} {b : Bounds}
    (hb : domainOf d = .ok b) : -unboundedLimit ≤ b.lower ∧ b.upper ≤ unboundedLimit := by
  obtain ⟨hl, hu⟩ := exists_of_domainOf hb
  constructor
  · unfold leastOf at hl
    split at hl
    · exact (Except.ok.inj hl).le
    · obtain ⟨k, -, hk⟩ := exists_of_map_ok hl
      exact hk ▸ le_max_left _ _
  · unfold greatestOf at hu
    split at hu
    · exact (Except.ok.inj hu).ge
    · obtain ⟨k, -, hk⟩ := exists_of_map_ok hu
      exact hk ▸ min_le_left _ _

theorem leastOf_le {l n : ℤ} (hl : leastOf d = .ok l) (hn : Allowed d n) : l ≤ n := by
  unfold leastOf at hl
  split at hl
  · cases hl
    exact hn.limited.1
  · obtain ⟨k, hk, rfl⟩ := exists_of_map_ok hl
    exact max_le hn.limited.1 ((Exact.ceil_le_iff hk).mpr hn.within.1)

theorem le_greatestOf {u n : ℤ} (hu : greatestOf d = .ok u) (hn : Allowed d n) : n ≤ u := by
  unfold greatestOf at hu
  split at hu
  · cases hu
    exact hn.limited.2
  · obtain ⟨k, hk, rfl⟩ := exists_of_map_ok hu
    exact le_min hn.limited.2 ((Exact.le_floor_iff hk).mpr hn.within.2)

/-- The domain has all integers within the bounds and the limit of unbounded variables. -/
theorem domainOf_contains {b : Bounds} (hb : domainOf d = .ok b) {n : ℤ} (hn : Allowed d n) :
    b.Contains n := by
  obtain ⟨hl, hu⟩ := exists_of_domainOf hb
  exact ⟨leastOf_le hl hn, le_greatestOf hu hn⟩

theorem createVariable_spec (hv : semantics.Valid G s)
    (hr : (createVariable d).Runs s h s') : ∃ G', semantics.Step G s G' s' ∧
      semantics.Usable G' s' h ∧ ∀ n, Allowed d n → semantics.Reaches s s' h n := by
  unfold createVariable at hr
  split at hr
  · exact absurd hr runs_fail
  · exact createBoolean_spec ‹_› hv hr
  · obtain ⟨b, s₀, hdomain, hcreate⟩ := runs_bind.mp hr
    clear hr
    obtain ⟨hb, rfl⟩ := runs_lift.mp hdomain
    dsimp only at hcreate
    split at hcreate
    · exact absurd hcreate (by simp [runs_bind])
    · obtain ⟨l, s₁, hleaf, hcreate⟩ := runs_bind.mp hcreate
      obtain ⟨_, s₂, hcall, htrack⟩ := runs_bind.mp hcreate
      obtain ⟨rfl, -⟩ := runs_leaf.mp hleaf
      have hvariable : (do
          let h ← leaf d.name true
          call (.newInteger b.lower b.upper (.leaf ⟨s₀.nextHandle⟩ d.name true))
          return h : CpSatM Exact Expr).Runs s₀ (.leaf ⟨s₀.nextHandle⟩ d.name true) s₂ :=
        runs_bind.mpr ⟨_, s₁, hleaf, runs_bind.mpr ⟨_, s₂, hcall, runs_pure.mpr ⟨rfl, rfl⟩⟩⟩
      obtain ⟨G₂, g₂, -, hmem, -, b₂, e₂⟩ := step_variable hv (by rfl) hvariable
      obtain ⟨rfl, g₃, u₃, e₃⟩ := step_track g₂.valid hmem (fun _ => b₂) htrack
      refine ⟨G₂, g₂.trans g₃, u₃, fun n hn => ?_⟩
      have hnew : semantics.Reaches s₀ s₂ (.leaf ⟨s₀.nextHandle⟩ d.name true) n := fun ρ _ hρ =>
        e₂ ρ n (fun ρ' hρ' => by
          show b.Contains (value ρ' _)
          rw [hρ']
          exact domainOf_contains hb hn) hρ
      exact hnew.extend g₂.toGrows g₃.toGrows (e₃ fun _ => True)
        (fun ρ ρ' ha => value_congr g₂.valid.world hmem ha) fun _ _ => trivial

/-! ### Sequences -/

/-- New positions that can take any numbers from zero to below `n`. -/
theorem positions_spec {n : ℤ} {members : List String} (hv : semantics.Valid G s)
    {ps : List Expr} (hr : (members.mapM fun member => do
      let h ← leaf (member ++ ".pos") true
      call (.newInteger 0 (n - 1) h)
      return h : CpSatM Exact (List Expr)).Runs s ps s') :
    ps.length = members.length ∧ ∃ G', semantics.Step G s G' s' ∧ (∀ p ∈ ps, p ∈ G') ∧
      (∀ ρ, Admitted ρ s' → ∀ p ∈ ps, 0 ≤ value ρ p ∧ value ρ p ≤ n - 1) ∧
      ∀ ks : List ℤ, ks.length = members.length → (∀ k ∈ ks, 0 ≤ k ∧ k ≤ n - 1) →
        ∀ ρ, Admitted ρ s → ∃ ρ', Agree s.nextHandle ρ ρ' ∧ Admitted ρ' s' ∧
          ps.map (value ρ') = ks := by
  induction members generalizing G s ps with
  | nil =>
    obtain ⟨rfl, rfl⟩ := runs_mapM_nil.mp hr
    refine ⟨rfl, G, .refl hv, by simp, by simp, fun ks hks _ ρ hρ => ⟨ρ, .refl _ ρ, hρ, ?_⟩⟩
    rw [List.length_eq_zero_iff.mp hks]
    rfl
  | cons member members ih =>
    obtain ⟨p, s₁, ps, hfirst, hrest, rfl⟩ := runs_mapM_cons.mp hr
    obtain ⟨l, _, hleaf, hcall⟩ := runs_bind.mp hfirst
    obtain ⟨rfl, rfl⟩ := runs_leaf.mp hleaf
    have hvariable : (do
        let h ← leaf (member ++ ".pos") true
        call (.newInteger 0 (n - 1) (.leaf ⟨s.nextHandle⟩ (member ++ ".pos") true))
        return h : CpSatM Exact Expr).Runs s p s₁ := runs_bind.mpr ⟨_, _, hleaf, hcall⟩
    obtain ⟨G₁, g₁, hp, hmem, -, b₁, e₁⟩ := step_variable hv (by rfl) hvariable
    subst hp
    obtain ⟨hlen, G₂, g₂, hps, b₂, e₂⟩ := ih g₁.valid hrest
    refine ⟨by simp [hlen], G₂, g₁.trans g₂, ?_, fun ρ hρ => ?_, fun ks hks hrange ρ hρ => ?_⟩
    · simpa using ⟨g₂.subset hmem, hps⟩
    · exact List.forall_mem_cons.mpr ⟨b₁ ρ (g₂.admits ρ hρ), b₂ ρ hρ⟩
    · obtain ⟨k, ks, rfl⟩ := List.exists_cons_of_length_eq_add_one hks
      obtain ⟨ρ₁, ha₁, hρ₁, hvalue⟩ := e₁ ρ k (fun ρ' hρ' => by
        show 0 ≤ value ρ' _ ∧ value ρ' _ ≤ n - 1
        rw [hρ']
        exact hrange k (by simp)) hρ
      obtain ⟨ρ₂, ha₂, hρ₂, hvalues⟩ := e₂ ks (by simpa using hks)
        (fun k' hk' => hrange k' (by simp [hk'])) ρ₁ hρ₁
      refine ⟨ρ₂, ha₁.trans g₁.next_le ha₂, hρ₂, ?_⟩
      rw [List.map_cons, ← value_congr g₁.valid.world hmem ha₂, hvalue, hvalues]

/-- The members are one more than their positions. -/
theorem members_spec {n : ℤ} {ps hs : List Expr} (hv : semantics.Valid G s)
    (hps : ∀ p ∈ ps, p ∈ G)
    (hb : ∀ ρ, Admitted ρ s → ∀ p ∈ ps, 0 ≤ value ρ p ∧ value ρ p ≤ n - 1)
    (hr : (ps.mapM fun p => do track (← LowerM.add p (.const 1)) ⟨1, n⟩ :
      CpSatM Exact (List Expr)).Runs s hs s') :
    hs.length = ps.length ∧ ∃ G', semantics.Step G s G' s' ∧
      (∀ h ∈ hs, semantics.Usable G' s' h) ∧
      (∀ ρ, Admitted ρ s' → hs.map (value ρ) = ps.map fun p => value ρ p + 1) ∧
      semantics.Extends s s' fun _ => True := by
  induction ps generalizing G s hs with
  | nil =>
    obtain ⟨rfl, rfl⟩ := runs_mapM_nil.mp hr
    exact ⟨rfl, G, .refl hv, by simp, by simp, .refl⟩
  | cons p ps ih =>
    obtain ⟨h, s₁, hs, hfirst, hrest, rfl⟩ := runs_mapM_cons.mp hr
    obtain ⟨k, s₀, hadd, htrack⟩ := runs_bind.mp hfirst
    obtain ⟨G₀, g₀, u₀, b₀, e₀⟩ := derives_binary (f := (· + ·)) .add
      (fun id ρ => value_add) hv (by simpa using
        ⟨held_iff.mpr (hps p (by simp)), (usable_number hv 1).toHeld⟩) hadd
    have hvalue : ∀ ρ, Admitted ρ s₀ → value ρ k = value ρ p + 1 := fun ρ hρ =>
      (b₀ ρ hρ).trans (by rw [value_const])
    obtain ⟨rfl, g₁, u₁, e₁⟩ := step_track g₀.valid u₀.mem (fun _ ρ hρ => by
      obtain ⟨hlo, hhi⟩ := hb ρ (g₀.admits ρ hρ) p (by simp)
      rw [hvalue ρ hρ]
      exact ⟨by dsimp only; omega, by dsimp only; omega⟩) htrack
    have g := g₀.trans g₁
    obtain ⟨hlen, G₂, g₂, u₂, b₂, e₂⟩ := ih g.valid (fun q hq => g.subset (hps q (by simp [hq])))
      (fun ρ hρ q hq => hb ρ (g.admits ρ hρ) q (by simp [hq])) hrest
    refine ⟨by simp [hlen], G₂, g.trans g₂, ?_, fun ρ hρ => ?_, ?_⟩
    · simpa using ⟨u₁.mono g₂.toGrows, u₂⟩
    · rw [List.map_cons, List.map_cons, b₂ ρ hρ, hvalue ρ (g₁.admits ρ (g₂.admits ρ hρ))]
    · exact e₀.trans_always g₀.toGrows (g₁.trans g₂).toGrows ((e₁ _).trans g₁.toGrows g₂.toGrows e₂
        (fun _ _ h => h) fun _ _ _ _ _ _ => trivial)

/-- A permutation of the numbers from one on, less one each. -/
theorem perm_positions {k : ℕ} {ns : List ℤ}
    (h : ns.Perm ((List.range k).map fun i : ℕ => (i : ℤ) + 1)) :
    (ns.map (· - 1)).length = k ∧ (ns.map (· - 1)).Nodup ∧
      ∀ m ∈ ns.map (· - 1), 0 ≤ m ∧ m ≤ (k : ℤ) - 1 := by
  have hperm : (ns.map (· - 1)).Perm ((List.range k).map fun i : ℕ => (i : ℤ)) := by
    have hmap := h.map (· - 1)
    rw [List.map_map] at hmap
    have heq : ((fun x : ℤ => x - 1) ∘ fun i : ℕ => (i : ℤ) + 1) = fun i : ℕ => (i : ℤ) := by
      funext i
      simp
    rwa [heq] at hmap
  refine ⟨by simpa using hperm.length_eq, ?_, fun m hm => ?_⟩
  · exact hperm.nodup_iff.mpr (List.nodup_range.map Nat.cast_injective)
  · obtain ⟨i, hi, rfl⟩ := List.mem_map.mp (hperm.mem_iff.mp hm)
    have hlt := List.mem_range.mp hi
    omega

theorem createSequence_spec {members : List String} {hs : List Expr} (hv : semantics.Valid G s)
    (hr : (createSequence members : CpSatM Exact (List Expr)).Runs s hs s') :
    hs.length = members.length ∧ ∃ G', semantics.Step G s G' s' ∧
      (∀ h ∈ hs, semantics.Usable G' s' h) ∧
      (∀ ρ, Admitted ρ s' → ∀ h ∈ hs, 1 ≤ value ρ h ∧ value ρ h ≤ members.length) ∧
      ∀ ns : List ℤ, ns.Perm ((List.range members.length).map fun i : ℕ => (i : ℤ) + 1) →
        ∀ ρ, s'.solver.cut = false → Admitted ρ s → ∃ ρ', Agree s.nextHandle ρ ρ' ∧
          Admitted ρ' s' ∧ hs.map (value ρ') = ns := by
  obtain ⟨ps, s₁, hpositions, hr⟩ := runs_bind.mp hr
  obtain ⟨_, s₂, hrequire, hmembers⟩ := runs_bind.mp hr
  obtain ⟨hlen, G₁, g₁, hps, b₁, e₁⟩ := positions_spec hv hpositions
  obtain ⟨G₂, g₂, -, e₂⟩ := posts_require (α := Exact) ps (c := .allDifferent ps)
    (fun _ hx => hx) g₁.valid (fun p hp => held_iff.mpr (hps p hp)) hrequire
  have hb : ∀ ρ, Admitted ρ s₂ → ∀ p ∈ ps, 0 ≤ value ρ p ∧ value ρ p ≤ (members.length : ℤ) - 1 :=
    fun ρ hρ => b₁ ρ (g₂.admits ρ hρ)
  obtain ⟨hlen', G₃, g₃, u₃, b₃, e₃⟩ := members_spec g₂.valid (fun p hp => g₂.subset (hps p hp)) hb
    hmembers
  refine ⟨hlen'.trans hlen, G₃, g₁.trans (g₂.trans g₃), u₃, fun ρ hρ h hh => ?_,
    fun ns hns ρ hcalm hρ => ?_⟩
  · have hmem : value ρ h ∈ ps.map fun p => value ρ p + 1 :=
      b₃ ρ hρ ▸ List.mem_map_of_mem hh
    obtain ⟨p, hp, heq⟩ := List.mem_map.mp hmem
    have hrange := hb ρ (g₃.admits ρ hρ) p hp
    omega
  · obtain ⟨hcount, hnodup, hrange⟩ := perm_positions hns
    obtain ⟨ρ₁, ha₁, hρ₁, hvalues⟩ := e₁ _ hcount hrange ρ hρ
    obtain ⟨ρ₂, ha₂, hρ₂⟩ := e₂ ρ₁ (g₃.calm hcalm) hρ₁ (by
      show (ps.map (value ρ₁)).Nodup
      rwa [hvalues])
    obtain ⟨ρ₃, ha₃, hρ₃⟩ := e₃ ρ₂ hcalm hρ₂ trivial
    have hagree : Agree s₁.nextHandle ρ₁ ρ₃ := ha₂.trans g₂.next_le ha₃
    refine ⟨ρ₃, ha₁.trans g₁.next_le hagree, hρ₃, ?_⟩
    have hkeep : ps.map (value ρ₃) = ns.map (· - 1) := by
      rw [← hvalues]
      exact (List.map_congr_left fun p hp => value_congr g₁.valid.world (hps p hp) hagree).symm
    have hone : (ps.map fun p => value ρ₃ p + 1) = (ps.map (value ρ₃)).map (· + 1) := by
      rw [List.map_map]
      rfl
    have hback : ((· + 1) ∘ (· - 1) : ℤ → ℤ) = id := by
      funext k
      simp
    rw [b₃ ρ₃ hρ₃, hone, hkeep, List.map_map, hback, List.map_id]

end DecisionModel.CpSat
