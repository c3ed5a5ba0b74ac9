import DecisionModel.Proofs.Tolerant.Creation

/-!
# What a run adds

Whatever was lowered before, a run of an encoding adds variables and ranges to those that there are.
`Adds` says which, `Makes` says of new variables that any values can be given to them, and `Imposes`
says what the ranges that are added require of a point. None of it needs a tolerance: only numbers are
held against it, and what is constrained here are terms.
-/

namespace DecisionModel.Tolerant

open LowerM

variable {σ : Type} {P : Primitives Exact σ} {G G' G₁ : Set Expr} {s s' s₁ : TolerantState σ}
  {h k : Expr} {hs ks : List Expr} {cs ds : List (Created Exact)} {rs ts : List (Range Exact)}
  {ρ : HandleId → ℚ} {m n : ℕ} {kind : Kind} {lower upper : Exact}

/-- The variables `cs` and the ranges `rs` are added, and no constraint folds to false. -/
structure Adds (G : Set Expr) (s : TolerantState σ) (G' : Set Expr) (s' : TolerantState σ)
    (cs : List (Created Exact)) (rs : List (Range Exact)) : Prop where
  subset : G ⊆ G'
  world : World G' s'.nextHandle
  next_le : s.nextHandle ≤ s'.nextHandle
  created : s'.solver.created.toList = s.solver.created.toList ++ cs
  posted : s'.solver.posted.toList = s.solver.posted.toList ++ rs
  violated : s'.violated = s.violated

theorem Adds.refl (hw : World G s.nextHandle) : Adds G s G s [] [] :=
  ⟨subset_rfl, hw, le_rfl, (List.append_nil _).symm, (List.append_nil _).symm, rfl⟩

theorem Adds.trans (h₁ : Adds G s G₁ s₁ cs rs) (h₂ : Adds G₁ s₁ G' s' ds ts) :
    Adds G s G' s' (cs ++ ds) (rs ++ ts) where
  subset := h₁.subset.trans h₂.subset
  world := h₂.world
  next_le := h₁.next_le.trans h₂.next_le
  created := by rw [h₂.created, h₁.created, List.append_assoc]
  posted := by rw [h₂.posted, h₁.posted, List.append_assoc]
  violated := h₂.violated.trans h₁.violated

theorem Silent.adds (hs : Silent G s G' s') : Adds G s G' s' [] [] := by
  obtain ⟨own, hsame⟩ := hs.same
  refine ⟨hs.subset, hs.world, hs.next_le, ?_, ?_, ?_⟩ <;> rw [hsame]
  · exact (List.append_nil _).symm
  · exact (List.append_nil _).symm

theorem adds_auxiliary (hw : World G s.nextHandle) {hint name : String}
    (hr : (auxiliaryName hint : TolerantM Exact σ String).Runs s name s') :
    Adds G s G s' [] [] := by
  obtain ⟨-, rfl⟩ := runs_auxiliaryName.mp hr
  exact ⟨subset_rfl, hw, le_rfl, (List.append_nil _).symm, (List.append_nil _).symm, rfl⟩

/-! ### New variables -/

/-- Variables made since the counter of identities stood at `n`: any values can be given to them. -/
structure Free (n : ℕ) (hs : List Expr) : Prop where
  leaf : ∀ h ∈ hs, ∃ id name integral, h = .leaf id name integral
  takes (ρ : HandleId → ℚ) (qs : List ℚ) : qs.length = hs.length →
    ∃ ρ', Agree n ρ ρ' ∧ hs.map (value ρ') = qs.map Exact.finite

theorem Free.nil : Free n [] :=
  ⟨fun _ h => absurd h List.not_mem_nil, fun ρ qs hqs =>
    ⟨ρ, .refl _ ρ, by rw [List.length_eq_zero_iff.mp hqs]; rfl⟩⟩

theorem Free.mono (hh : Free n hs) (hmn : m ≤ n) : Free m hs where
  leaf := hh.leaf
  takes ρ qs hqs := by
    obtain ⟨ρ', ha, hvalues⟩ := hh.takes ρ qs hqs
    exact ⟨ρ', ha.mono hmn, hvalues⟩

theorem Free.append (hh : Free n hs) (hk : Free m ks) (hnm : n ≤ m) (hw : World G m)
    (hmem : ∀ h ∈ hs, h ∈ G) : Free n (hs ++ ks) where
  leaf h hmem := (List.mem_append.mp hmem).elim (hh.leaf h) (hk.leaf h)
  takes ρ qs hqs := by
    rw [List.length_append] at hqs
    obtain ⟨ρ₁, ha₁, h₁⟩ := hh.takes ρ (qs.take hs.length) (by simp; omega)
    obtain ⟨ρ₂, ha₂, h₂⟩ := hk.takes ρ₁ (qs.drop hs.length) (by simp; omega)
    refine ⟨ρ₂, ha₁.trans hnm ha₂, ?_⟩
    have hkeep : hs.map (value ρ₂) = hs.map (value ρ₁) :=
      List.map_congr_left fun h hh => (value_congr hw (hmem h hh) ha₂).symm
    rw [List.map_append, hkeep, h₁, h₂, ← List.map_append, List.take_append_drop]

/-- New variables of one kind between the same bounds. -/
structure Makes (kind : Kind) (lower upper : Exact) (G : Set Expr) (s : TolerantState σ)
    (G' : Set Expr) (s' : TolerantState σ) (cs : List (Created Exact)) : Prop
    extends Adds G s G' s' cs [] where
  mem : ∀ h ∈ cs.map (·.handle), h ∈ G'
  free : Free s.nextHandle (cs.map (·.handle))
  kind_eq : ∀ c ∈ cs, c.kind = kind ∧ c.lower = lower ∧ c.upper = upper

theorem Makes.trans (h₁ : Makes kind lower upper G s G₁ s₁ cs)
    (h₂ : Makes kind lower upper G₁ s₁ G' s' ds) : Makes kind lower upper G s G' s' (cs ++ ds) where
  toAdds := h₁.toAdds.trans h₂.toAdds
  mem h hh := by
    rw [List.map_append] at hh
    exact (List.mem_append.mp hh).elim (fun hh => h₂.subset (h₁.mem h hh)) (h₂.mem h)
  free := by
    rw [List.map_append]
    exact h₁.free.append h₂.free h₁.next_le h₁.world h₁.mem
  kind_eq c hc := (List.mem_append.mp hc).elim (h₁.kind_eq c) (h₂.kind_eq c)

theorem makes_variable (hP : Documented P) {name : String} (hw : World G s.nextHandle)
    (hr : (createVariable P kind lower upper name).Runs s h s') :
    ∃ G', Makes kind lower upper G s G' s' [⟨h, kind, lower, upper, name⟩] := by
  simp only [createVariable, runs_bind, runs_pure] at hr
  obtain ⟨l, s₁, hnew, _, s₂, hnote, rfl, rfl⟩ := hr
  obtain ⟨G₁, hsilent, hl, id, integral, rfl, hfresh⟩ := hP.newVariable hw hnew
  have hadds := hsilent.adds
  obtain rfl := runs_modifySolver.mp hnote
  refine ⟨G₁, ⟨⟨hadds.subset, hadds.world, hadds.next_le, ?_, hadds.posted, hadds.violated⟩, ?_, ?_, ?_⟩⟩
  · have hcreated := hadds.created
    rw [List.append_nil] at hcreated
    dsimp only
    rw [Array.toList_push, hcreated]
  · simpa using hl
  · refine ⟨fun h hh => ⟨id, name, integral, List.mem_singleton.mp hh⟩, fun ρ qs hqs => ?_⟩
    obtain ⟨q, rfl⟩ := List.length_eq_one_iff.mp (by simpa using hqs)
    exact ⟨Function.update ρ id q, Agree.update ρ hfresh q, by simp⟩
  · simp

theorem makes_binary (hP : Documented P) {hint : String} (hw : World G s.nextHandle)
    (hr : (newBinary P hint).Runs s h s') :
    ∃ G' name, Makes .binary (.finite 0) (.finite 1) G s G' s'
      [⟨h, .binary, .finite 0, .finite 1, name⟩] := by
  obtain ⟨name, s₁, haux, hcreate⟩ := runs_bind.mp hr
  have hadds := adds_auxiliary hw haux
  obtain ⟨G', hmakes⟩ := makes_variable hP hadds.world hcreate
  exact ⟨G', name, hadds.trans hmakes.toAdds, hmakes.mem, hmakes.free.mono hadds.next_le,
    hmakes.kind_eq⟩

/-- Steps that each make variables of one kind; `out` are the handles in the result of a step. -/
theorem makes_mapM {β γ : Type} {f : β → TolerantM Exact σ γ} (out : γ → List Expr) {xs : List β}
    {ys : List γ} (hf : ∀ x G s y s', World G s.nextHandle → (f x).Runs s y s' →
      ∃ G' cs, Makes kind lower upper G s G' s' cs ∧ cs.map (·.handle) = out y)
    (hw : World G s.nextHandle) (hr : (xs.mapM f).Runs s ys s') :
    ∃ G' cs, Makes kind lower upper G s G' s' cs ∧ cs.map (·.handle) = (ys.map out).flatten := by
  induction xs generalizing G s ys with
  | nil =>
    obtain ⟨rfl, rfl⟩ := runs_mapM_nil.mp hr
    exact ⟨G, [], ⟨Adds.refl hw, by simp, Free.nil, by simp⟩, rfl⟩
  | cons x xs ih =>
    obtain ⟨y, s₁, ys, hfirst, hrest, rfl⟩ := runs_mapM_cons.mp hr
    obtain ⟨G₁, cs, h₁, hcs⟩ := hf x G s y s₁ hw hfirst
    obtain ⟨G', ds, h₂, hds⟩ := ih h₁.world hrest
    exact ⟨G', cs ++ ds, h₁.trans h₂, by rw [List.map_append, hcs, hds]; rfl⟩

/-! ### Ranges -/

/-- The ranges that `m` adds hold of a point that satisfies `W` where `C` does. -/
def Imposes (m : TolerantM Exact σ Unit) (args : List Expr) (W C : (HandleId → ℚ) → Prop) : Prop :=
  ∀ ⦃G s s'⦄, World G s.nextHandle → (∀ a ∈ args, a ∈ G) → m.Runs s () s' →
    ∃ G' rs, Adds G s G' s' [] rs ∧ ∀ ρ, W ρ → ((∀ r ∈ rs, r.Holds ρ) ↔ C ρ)

variable {args : List Expr} {W C C₁ C₂ : (HandleId → ℚ) → Prop}

theorem Imposes.mono {m : TolerantM Exact σ Unit} {args' : List Expr}
    {W' : (HandleId → ℚ) → Prop} (h : Imposes m args W C) (hargs : ∀ a ∈ args, a ∈ args')
    (hW : ∀ ρ, W' ρ → W ρ) : Imposes m args' W' C := by
  intro G s s' hw hmem hr
  obtain ⟨G', rs, hadds, hrs⟩ := h hw (fun a ha => hmem a (hargs a ha)) hr
  exact ⟨G', rs, hadds, fun ρ hρ => hrs ρ (hW ρ hρ)⟩

theorem Imposes.seq {m₁ m₂ : TolerantM Exact σ Unit} (h₁ : Imposes m₁ args W C₁)
    (h₂ : Imposes m₂ args W C₂) : Imposes (do m₁; m₂) args W fun ρ => C₁ ρ ∧ C₂ ρ := by
  intro G s s' hw hmem hr
  obtain ⟨_, s₁, hr₁, hr₂⟩ := runs_bind.mp hr
  obtain ⟨G₁, rs, ha₁, hrs⟩ := h₁ hw hmem hr₁
  obtain ⟨G', ts, ha₂, hts⟩ := h₂ ha₁.world (fun a ha => ha₁.subset (hmem a ha)) hr₂
  refine ⟨G', rs ++ ts, ha₁.trans ha₂, fun ρ hρ => ?_⟩
  rw [List.forall_mem_append, hrs ρ hρ, hts ρ hρ]

theorem imposes_forM {β : Type} {f : β → TolerantM Exact σ Unit} {Q : β → (HandleId → ℚ) → Prop}
    {xs : List β} (hf : ∀ x ∈ xs, Imposes (f x) args W (Q x)) :
    Imposes (xs.forM f) args W fun ρ => ∀ x ∈ xs, Q x ρ := by
  intro G s s' hw hmem hr
  induction xs generalizing G s with
  | nil =>
    obtain rfl := runs_forM_nil.mp hr
    exact ⟨G, [], Adds.refl hw, fun ρ _ => by simp⟩
  | cons x xs ih =>
    obtain ⟨s₁, hfirst, hrest⟩ := runs_forM_cons.mp hr
    obtain ⟨hx, hxs⟩ := List.forall_mem_cons.mp hf
    obtain ⟨G₁, rs, ha₁, hrs⟩ := hx hw hmem hfirst
    obtain ⟨G', ts, ha₂, hts⟩ := ih hxs ha₁.world (fun a ha => ha₁.subset (hmem a ha)) hrest
    refine ⟨G', rs ++ ts, ha₁.trans ha₂, fun ρ hρ => ?_⟩
    rw [List.forall_mem_append, hrs ρ hρ, hts ρ hρ]
    exact (List.forall_mem_cons (p := fun x => Q x ρ)).symm

/-- A term is constrained by a range. -/
theorem adds_constrain (hP : Documented P) {a c : Number Exact} (hw : World G s.nextHandle)
    (hh : h ∈ G) (hterm : h.number? = none) (hr : (constrain P h a c).Runs s () s') :
    ∃ G' name, Adds G s G' s' [] [⟨h, a, c, name⟩] := by
  simp only [constrain, hterm, runs_bind] at hr
  obtain ⟨name, s₁, haux, _, s₂, hpost, hrange⟩ := hr
  have ha₁ := adds_auxiliary hw haux
  obtain rfl := runs_modifySolver.mp hpost
  obtain ⟨G', hsilent⟩ := hP.addRange (G := G) (by exact ha₁.world) hh hrange
  have ha₂ := hsilent.adds
  refine ⟨G', name, ⟨ha₁.subset.trans ha₂.subset, ha₂.world, ha₁.next_le.trans ha₂.next_le, ?_, ?_,
    ha₂.violated.trans ha₁.violated⟩⟩
  · rw [ha₂.created, List.append_nil]
    exact ha₁.created
  · rw [ha₂.posted, List.append_nil]
    dsimp only
    rw [Array.toList_push, ha₁.posted, List.append_nil]

/-- A sum of new variables is no number: it is zero where all of them are, and not where all are one. -/
theorem number?_total (hP : Documented P) (hleaf : ∀ h ∈ hs, ∃ id name integral, h = .leaf id name integral)
    (hne : hs ≠ []) (hw : World G s.nextHandle) (hmem : ∀ h ∈ hs, h ∈ G)
    (hr : (P.total hs).Runs s k s') : k.number? = none := by
  obtain ⟨G', -, -, hvalue⟩ := hP.total hw hmem hr
  have hconst : ∀ q : ℚ, value (fun _ => q) k = .finite (hs.length * q) := by
    intro q
    have hmap : hs.map (value fun _ => q) = (List.replicate hs.length q).map Exact.finite := by
      rw [List.map_replicate, List.eq_replicate_iff]
      refine ⟨List.length_map _, fun v hv => ?_⟩
      obtain ⟨h, hh, rfl⟩ := List.mem_map.mp hv
      obtain ⟨id, name, integral, rfl⟩ := hleaf h hh
      exact value_leaf ..
    rw [hvalue _ _ hmap, List.sum_replicate, nsmul_eq_mul]
  cases hk : k.number? with
  | none => rfl
  | some x =>
    obtain rfl := Handle.eq_const hk
    have h0 := hconst 0
    have h1 := hconst 1
    rw [value_const] at h0 h1
    rw [h0, mul_zero, mul_one, Exact.finite.injEq, eq_comm, Nat.cast_eq_zero] at h1
    exact absurd (List.length_eq_zero_iff.mp h1) hne

/-- The sum of new binary variables is required to be one. -/
theorem imposes_requireOne (hP : Documented P)
    (hleaf : ∀ h ∈ hs, ∃ id name integral, h = .leaf id name integral) (hne : hs ≠ []) :
    Imposes (requireOne P hs) hs (fun ρ => ∀ h ∈ hs, (semantics σ).Integral ρ h)
      fun ρ => (hs.map ((semantics σ).int ρ)).sum = 1 := by
  intro G s s' hw hmem hr
  obtain ⟨t, s₁, htotal, hconstrain⟩ := runs_bind.mp hr
  obtain ⟨G₁, hsilent, ht, hvalue⟩ := hP.total hw hmem htotal
  obtain ⟨G', name, hadds⟩ := adds_constrain hP hsilent.world ht
    (number?_total hP hleaf hne hw hmem htotal) hconstrain
  refine ⟨G', _, hsilent.adds.trans hadds, fun ρ hint => ?_⟩
  have hsum : value ρ t = .finite ((hs.map ((semantics σ).int ρ)).sum : ℤ) := by
    rw [hvalue ρ ((hs.map ((semantics σ).int ρ)).map Int.cast) ?_, Int.cast_list_sum]
    rw [List.map_map, List.map_map]
    exact List.map_congr_left fun h hh => value_eq (hint h hh)
  have hone : ((1 : ℚ) ≤ ((hs.map ((semantics σ).int ρ)).sum : ℤ) ∧
      (((hs.map ((semantics σ).int ρ)).sum : ℤ) : ℚ) ≤ 1) ↔ (hs.map ((semantics σ).int ρ)).sum = 1 := by
    norm_cast
    omega
  simpa [Range.Holds, Between, hsum, realOne] using hone

end DecisionModel.Tolerant
