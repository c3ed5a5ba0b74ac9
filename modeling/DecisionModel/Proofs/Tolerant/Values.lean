import DecisionModel.Proofs.Lowering.Key
import DecisionModel.Proofs.Tolerant.Keeps
import DecisionModel.Proofs.Tolerant.Selection

/-!
# Values of encodings, wherever they are made

`semantics` asks for integral models, and so do the specifications of the encodings that are proved from
it. A model with real variables is lowered all the same. What is proved here holds from any state: terms
have the values that they are made for (`Primitives.Evaluates`), and a point that satisfies the solver
later on satisfies what was posted on the way, because variables and ranges are added only
(`Accumulates`). So a lookup takes an entry at the index (`value_of_lookup`), whatever the index and the
entries are.
-/

namespace DecisionModel.Tolerant

open LowerM

/-! ### What accumulates -/

section

variable {α σ : Type}

/-- Variables and ranges are added, and what is known of terms and variables stays. -/
structure Accumulates (s s' : LoweringState (Number α) (Encoding α σ)) : Prop where
  remembers : Remembers s s'
  handles_kept : s.handles <+: s'.handles
  created_subset : s.solver.created.toList ⊆ s'.solver.created.toList
  posted_subset : s.solver.posted.toList ⊆ s'.solver.posted.toList

variable {s s₁ s' : LoweringState (Number α) (Encoding α σ)}

/-- Nothing of this changes. -/
theorem Accumulates.of_same (hmemo : s'.memo = s.memo) (hhandles : s'.handles = s.handles)
    (hcreated : s.solver.created.toList ⊆ s'.solver.created.toList)
    (hposted : s.solver.posted.toList ⊆ s'.solver.posted.toList) : Accumulates s s' where
  remembers id h hm := by rwa [LoweringState.memo?, hmemo]
  handles_kept := hhandles ▸ List.prefix_refl _
  created_subset := hcreated
  posted_subset := hposted

theorem Accumulates.with_solver {e : Encoding α σ}
    (hcreated : s.solver.created.toList ⊆ e.created.toList)
    (hposted : s.solver.posted.toList ⊆ e.posted.toList) : Accumulates s { s with solver := e } :=
  .of_same rfl rfl hcreated hposted

theorem Accumulates.of_apart (hmemo : s'.memo = s.memo) (hhandles : s'.handles = s.handles)
    (hsolver : s'.solver = s.solver) : Accumulates s s' :=
  .of_same hmemo hhandles (by rw [hsolver]; exact List.Subset.refl _)
    (by rw [hsolver]; exact List.Subset.refl _)

instance : Visited (Accumulates (α := α) (σ := σ)) where
  refl _ := .of_apart rfl rfl rfl
  trans _ _ _ h h' := ⟨fun id k hk => h'.remembers id k (h.remembers id k hk),
    h.handles_kept.trans h'.handles_kept, List.Subset.trans h.created_subset h'.created_subset,
    List.Subset.trans h.posted_subset h'.posted_subset⟩
  next _ := .of_apart rfl rfl rfl
  auxiliaries _ := .of_apart rfl rfl rfl
  violated _ _ := .of_apart rfl rfl rfl
  log _ _ := .of_apart rfl rfl rfl
  memo h hnone hs :=
    ⟨Visited.memo h hnone hs.remembers, hs.handles_kept, hs.created_subset, hs.posted_subset⟩

instance : Noted (Accumulates (α := α) (σ := σ)) where
  note hnotes := .with_solver hnotes.created_subset hnotes.posted_subset

theorem accumulates_modifyOwn (f : σ → σ) :
    Keeps Accumulates (modifyOwn f : TolerantM α σ Unit) :=
  keeps_modifySolver fun _ => .with_solver (List.Subset.refl _) (List.Subset.refl _)

variable [Scalar α] {P : Primitives α σ}

theorem Primitives.Contained.creates (hP : P.Contained) : P.Creates Accumulates :=
  (hP.keep accumulates_modifyOwn).creates

/-- A term that was lowered keeps its handle, if the entries of the memo and for variables stay. -/
theorem runs_translate_again {c : Context α} {t : Term α} {h : Handle (Number α)}
    {s₀ : LoweringState (Number α) (Encoding α σ)}
    (hr : (Backend.translate (backend P) c t).Runs s₀ h s₁) (hmemo : Remembers s₁ s)
    (hhandles : s₁.handles <+: s.handles) : (Backend.translate (backend P) c t).Runs s h s := by
  cases t with
  | const x =>
    obtain ⟨rfl, -⟩ := runs_pure.mp hr
    exact runs_pure.mpr ⟨rfl, rfl⟩
  | var v =>
    obtain ⟨hh, rfl⟩ := runs_variableHandle.mp hr
    exact runs_variableHandle.mpr ⟨handle?_of_entered hhandles hh, rfl⟩
  | selected id f i =>
    exact Backend.runs_translate_of_memo? rfl (hmemo _ _ (Backend.memo?_of_runs_translate rfl hr))
  | node id op ts =>
    exact Backend.runs_translate_of_memo? rfl (hmemo _ _ (Backend.memo?_of_runs_translate rfl hr))

end

variable {σ : Type} {P : Primitives Exact σ} {s s₁ s' : TolerantState σ} {h k b x y index : Expr}
  {ρ : HandleId → ℚ}

/-- A point that satisfies the solver later on satisfied it before. -/
theorem Accumulates.satisfied (hs : Accumulates s s') (hρ : s'.solver.Satisfied ρ) :
    s.solver.Satisfied ρ :=
  ⟨fun hc => hρ.created (hs.created_subset hc), fun hr => hρ.posted (hs.posted_subset hr)⟩

/-! ### Values of terms -/

/-- The terms that the primitives make have the values that they are made for. -/
structure Primitives.Evaluates (P : Primitives Exact σ) : Prop extends P.Contained where
  newVariable {kind : Kind} {lower upper : Exact} {name : String} {s s' : TolerantState σ} {h : Expr} :
    (P.newVariable kind lower upper name).Runs s h s' → h.number? = none
  gate {b h k : Expr} {s s' : TolerantState σ} {ρ : HandleId → ℚ} {q : ℚ} : (P.gate b h).Runs s k s' →
    value ρ h = .finite q →
      (value ρ b = .finite 0 → value ρ k = .finite 0) ∧ (value ρ b = .finite 1 → value ρ k = .finite q)
  total {hs : List Expr} {k : Expr} {s s' : TolerantState σ} {ρ : HandleId → ℚ} {qs : List ℚ} :
    (P.total hs).Runs s k s' → hs.map (value ρ) = qs.map Exact.finite → value ρ k = .finite qs.sum
  /-- A sum of terms is a term. -/
  number?_total {hs : List Expr} {k : Expr} {s s' : TolerantState σ} : (P.total hs).Runs s k s' →
    hs ≠ [] → (∀ h ∈ hs, h.number? = none) → k.number? = none

/-! ### Variables and ranges -/

/-- A new variable is noted. -/
theorem mem_created {kind : Kind} {lower upper : Exact} {name : String}
    (hr : (createVariable P kind lower upper name).Runs s h s') :
    ⟨h, kind, lower, upper, name⟩ ∈ s'.solver.created.toList := by
  obtain ⟨k, s₁, -, hr⟩ := runs_bind.mp hr
  obtain ⟨_, s₂, hnote, hr⟩ := runs_bind.mp hr
  obtain ⟨rfl, rfl⟩ := runs_pure.mp hr
  obtain rfl := runs_modifySolver.mp hnote
  simp

/-- It has a value of its kind within its bounds. -/
theorem holds_of_createVariable {kind : Kind} {lower upper : Exact} {name : String}
    (hr : (createVariable P kind lower upper name).Runs s h s') (hρ : s'.solver.Satisfied ρ) :
    (⟨h, kind, lower, upper, name⟩ : Created Exact).Holds ρ := hρ.created (mem_created hr)

theorem number?_createVariable (hP : P.Evaluates) {kind : Kind} {lower upper : Exact} {name : String}
    (hr : (createVariable P kind lower upper name).Runs s h s') : h.number? = none := by
  obtain ⟨k, s₁, hnew, hr⟩ := runs_bind.mp hr
  obtain ⟨_, s₂, -, hr⟩ := runs_bind.mp hr
  obtain ⟨rfl, -⟩ := runs_pure.mp hr
  exact hP.newVariable hnew

theorem term_of_newBinary (hP : P.Evaluates) {hint : String} (hr : (newBinary P hint).Runs s b s') :
    b.number? = none ∧ (s'.solver.Satisfied ρ → IsBinary (value ρ b)) := by
  obtain ⟨name, s₁, -, hr⟩ := runs_bind.mp hr
  exact ⟨number?_createVariable hP hr, fun hρ => (holds_of_createVariable hr hρ).kind⟩

theorem term_of_newInteger (hP : P.Evaluates) {first last : ℤ} {hint : String}
    (hr : (newInteger P first last hint).Runs s h s') : h.number? = none ∧
      (s'.solver.Satisfied ρ → ∃ n : ℤ, value ρ h = .finite n ∧ first ≤ n ∧ n ≤ last) := by
  simp only [newInteger, runs_bind, runs_lift, Scalar.ofInt?_exact, Except.ok.injEq] at hr
  obtain ⟨_, _, ⟨rfl, rfl⟩, _, _, ⟨rfl, rfl⟩, name, s₁, -, hr⟩ := hr
  refine ⟨number?_createVariable hP hr, fun hρ => ?_⟩
  obtain ⟨⟨n, hn⟩, hlower, hupper⟩ := holds_of_createVariable hr hρ
  simp only [hn, Exact.finite_le, decide_eq_true_eq, Int.cast_le] at hlower hupper
  exact ⟨n, hn, hlower, hupper⟩

/-- The handle is a variable that was created as an integer or a binary one. -/
def CreatedIntegral (h : Expr) (s : TolerantState σ) : Prop :=
  ∃ d ∈ s.solver.created.toList, d.handle = h ∧ d.kind ≠ .continuous

theorem CreatedIntegral.value (hh : CreatedIntegral h s) (hρ : s.solver.Satisfied ρ) :
    ∃ n : ℤ, Tolerant.value ρ h = .finite n := by
  obtain ⟨⟨h, kind, lower, upper, name⟩, hd, rfl, hkind⟩ := hh
  have hhas := (hρ.created hd).kind
  cases kind with
  | continuous => exact absurd rfl hkind
  | integer => exact hhas
  | binary => exact hhas.integral

theorem CreatedIntegral.later (hh : CreatedIntegral h s)
    (hs : s.solver.created.toList ⊆ s'.solver.created.toList) : CreatedIntegral h s' := by
  obtain ⟨d, hd, hcreated⟩ := hh
  exact ⟨d, hs hd, hcreated⟩

/-- The members of a sequence are integers. -/
theorem createdIntegral_member (hP : P.Contained) {name : String} {members : List String}
    {hs : List Expr} (hr : (createSequence P name members).Runs s hs s') (hh : h ∈ hs) :
    CreatedIntegral h s' := by
  obtain ⟨_, _, _, hcreate, hlater⟩ := exists_run_of_createSequence hP.creates hr hh
  exact CreatedIntegral.later ⟨_, mem_created hcreate, rfl, nofun⟩ hlater.created_subset

/-- A term that is constrained is between the bounds. -/
theorem between_of_constrain (hP : P.Contained) {lower upper : Number Exact} (hterm : h.number? = none)
    (hr : (constrain P h lower upper).Runs s () s') (hρ : s'.solver.Satisfied ρ) :
    Between lower.exact upper.exact (value ρ h) := by
  simp only [constrain, hterm] at hr
  obtain ⟨name, s₁, -, hr⟩ := runs_bind.mp hr
  obtain ⟨_, s₂, hpost, hadd⟩ := runs_bind.mp hr
  obtain rfl := runs_modifySolver.mp hpost
  have hs := related_of_runs (hP.creates.addRange _ _ _ _) hadd
  exact (hs.satisfied hρ).posted (r := ⟨h, lower, upper, name⟩) (by simp)

/-- Where the difference of two terms has to be zero, one of which is no number, they have one value. -/
theorem value_of_postEqual (hP : P.Contained) (hterm : x.number? = none ∨ y.number? = none)
    (hr : (postEqual P x y).Runs s () s') (hρ : s'.solver.Satisfied ρ) :
    ∃ q, value ρ x = .finite q ∧ value ρ y = .finite q := by
  obtain ⟨d, s₁, hsub, hconstrain⟩ := runs_bind.mp hr
  have hzero := between_of_constrain hP (number?_binary hsub hterm) hconstrain hρ
  rw [value_sub hsub] at hzero
  cases hx : value ρ x <;> cases hy : value ρ y <;> rw [hx, hy] at hzero
  case finite.finite p q =>
    have heq : 0 ≤ p - q ∧ p - q ≤ 0 := by simpa [Between, realZero] using hzero
    exact ⟨p, rfl, congrArg Exact.finite (by linarith)⟩
  all_goals exact absurd hzero (by simp [Between, Exact.sub, Exact.add, Exact.neg, Exact.le, Exact.lt,
    Exact.eq, realZero])

/-! ### Lookups -/

/-- Selectors of which one has to be one. -/
theorem sum_of_requireOne (hP : P.Evaluates) {bs : List Expr} (hne : bs ≠ [])
    (hbs : ∀ b ∈ bs, b.number? = none ∧ IsBinary (value ρ b))
    (hr : (requireOne P bs).Runs s () s') (hρ : s'.solver.Satisfied ρ) :
    (bs.map ((semantics σ).int ρ)).sum = 1 := by
  obtain ⟨t, s₁, htotal, hconstrain⟩ := runs_bind.mp hr
  have hterm := hP.number?_total htotal hne fun b hb => (hbs b hb).1
  have hone := between_of_constrain hP.toContained hterm hconstrain hρ
  rw [hP.total htotal (map_value_eq fun b hb => (hbs b hb).2), ← Int.cast_list_sum] at hone
  have hone : 1 ≤ (((bs.map ((semantics σ).int ρ)).sum : ℤ) : ℚ) ∧
      (((bs.map ((semantics σ).int ρ)).sum : ℤ) : ℚ) ≤ 1 := by simpa [Between, realOne] using hone
  exact le_antisymm (by exact_mod_cast hone.2) (by exact_mod_cast hone.1)

variable {β : Type} {f : β → ℤ} {pairs : List (β × Expr)}

theorem values_of_weighted {ts : List Expr} (hbinary : ∀ q ∈ pairs, IsBinary (value ρ q.2))
    (hr : (pairs.mapM fun q => LowerM.mul (integer (f q.1)) q.2 :
      TolerantM Exact σ (List Expr)).Runs s ts s') :
    ts.map (value ρ) =
      (pairs.map fun q => ((f q.1 * (semantics σ).int ρ q.2 : ℤ) : ℚ)).map Exact.finite := by
  induction pairs generalizing s ts with
  | nil =>
    obtain ⟨rfl, -⟩ := runs_mapM_nil.mp hr
    rfl
  | cons q pairs ih =>
    obtain ⟨hq, hpairs⟩ := List.forall_mem_cons.mp hbinary
    obtain ⟨t, s₁, ts, hmul, hrest, rfl⟩ := runs_mapM_cons.mp hr
    rw [List.map_cons, ih hpairs hrest, value_mul hmul, integer, value_const, exact_int,
      value_eq hq.integral, Exact.finite_mul, ← Int.cast_mul]
    rfl

/-- The position that is selected, as a sum over all positions but zero. -/
theorem value_of_positions (hP : P.Evaluates) (hbinary : ∀ q ∈ pairs, IsBinary (value ρ q.2))
    (hr : (do
      let positions ← (pairs.filter (f ·.1 ≠ 0)).mapM fun q => LowerM.mul (integer (f q.1)) q.2
      P.total positions : TolerantM Exact σ Expr).Runs s k s') :
    value ρ k =
      .finite ((pairs.map fun q => if (semantics σ).int ρ q.2 = 1 then f q.1 else 0).sum : ℤ) := by
  obtain ⟨ts, s₁, hmap, htotal⟩ := runs_bind.mp hr
  rw [hP.total htotal (values_of_weighted (fun q hq => hbinary q (List.mem_filter.mp hq).1) hmap),
    ← sum_weighted_filter hbinary, Int.cast_list_sum, List.map_map]
  rfl

theorem values_of_gated (hP : P.Evaluates) {pairs : List ((ℤ × Expr) × Expr)} {ts : List Expr}
    (hbinary : ∀ q ∈ pairs, IsBinary (value ρ q.2))
    (hfinite : ∀ q ∈ pairs, ∃ r, value ρ q.1.2 = .finite r)
    (hr : (pairs.mapM fun q => gated P q.2 q.1.2).Runs s ts s') :
    ts.map (value ρ) = (pairs.map fun q =>
      if (semantics σ).int ρ q.2 = 1 then ratOf (value ρ q.1.2) else 0).map Exact.finite := by
  induction pairs generalizing s ts with
  | nil =>
    obtain ⟨rfl, -⟩ := runs_mapM_nil.mp hr
    rfl
  | cons q pairs ih =>
    obtain ⟨hq, hpairs⟩ := List.forall_mem_cons.mp hbinary
    obtain ⟨⟨r, hr'⟩, hrest⟩ := List.forall_mem_cons.mp hfinite
    obtain ⟨t, s₁, ts, hgate, hmap, rfl⟩ := runs_mapM_cons.mp hr
    have hvalue := value_gated (fun _ _ hr => hP.gate hr hr') hgate hr'
    rw [List.map_cons, List.map_cons, List.map_cons, ih hpairs hrest hmap,
      value_of_gate (σ := σ) hq hr' hvalue]

/-- A lookup takes an entry whose position is the index; the index need not be integral. -/
theorem value_of_lookup (hP : P.Evaluates) {entries : List (ℤ × Expr)} (hterm : index.number? = none)
    (hne : entries ≠ []) (hr : (lookup P index entries).Runs s k s') (hρ : s'.solver.Satisfied ρ) :
    ∃ e ∈ entries, value ρ index = .finite e.1 ∧
      ((∀ e ∈ entries, ∃ q, value ρ e.2 = .finite q) → value ρ k = value ρ e.2) := by
  obtain ⟨bs, s₁, hselectors, hr⟩ := runs_bind.mp hr
  obtain ⟨_, s₂, hone, hr⟩ := runs_bind.mp hr
  obtain ⟨positions, s₃, hpositions, hr⟩ := runs_bind.mp hr
  obtain ⟨chosen, s₄, htotal, hr⟩ := runs_bind.mp hr
  obtain ⟨d, s₅, hsub, hr⟩ := runs_bind.mp hr
  obtain ⟨_, s₆, hconstrain, hr⟩ := runs_bind.mp hr
  have hcreates := hP.creates
  -- The point satisfies all that is posted on the way.
  have hρ₆ := (related_of_runs (keeps_bind (keeps_mapM fun _ _ => keeps_gated hcreates.toSteps _ _)
    fun _ => hcreates.total _) hr).satisfied hρ
  have hρ₂ := (related_of_runs (keeps_bind (keeps_mapM fun _ _ => keeps_mul _ _) fun _ =>
    keeps_bind (hcreates.total _) fun _ => keeps_postEqual hcreates.toSteps index _)
      (runs_bind.mpr ⟨positions, s₃, hpositions, runs_bind.mpr ⟨chosen, s₄, htotal,
        runs_bind.mpr ⟨d, s₅, hsub, hconstrain⟩⟩⟩)).satisfied hρ₆
  have hρ₁ := (related_of_runs (keeps_requireOne hcreates.toSteps _) hone).satisfied hρ₂
  have hlen := length_of_runs_mapM hselectors
  have hbs : ∀ b ∈ bs, b.number? = none ∧ IsBinary (value ρ b) := fun b hb => by
    obtain ⟨_, -, t, t', -, hnew, hlater⟩ :=
      exists_run_of_mem_mapM (fun _ _ => keeps_newBinary hcreates.toSteps _) hselectors hb
    obtain ⟨hb, hbinary⟩ := term_of_newBinary hP hnew
    exact ⟨hb, hbinary (hlater.satisfied hρ₁)⟩
  have hbne : bs ≠ [] := by
    rintro rfl
    exact hne (List.length_eq_zero_iff.mp hlen.symm)
  have hbinary : ∀ q ∈ entries.zip bs, IsBinary (value ρ q.2) := fun q hq =>
    (hbs q.2 (List.of_mem_zip hq).2).2
  have hsum := sum_of_requireOne hP hbne hbs hone hρ₂
  obtain ⟨e, b, hmem, -, hselected⟩ := exists_selected_term hlen (fun b hb => (hbs b hb).2) hsum
  have he := (List.of_mem_zip hmem).1
  have hchosen := value_of_positions hP (f := fun e : ℤ × Expr => e.1) hbinary
    (runs_bind.mpr ⟨positions, s₃, hpositions, htotal⟩)
  obtain ⟨q, hindex, hq⟩ := value_of_postEqual hP.toContained (.inl hterm)
    (runs_bind.mpr ⟨d, s₅, hsub, hconstrain⟩) hρ₆
  refine ⟨e, he, ?_, fun hfinite => ?_⟩
  · rw [hindex, ← hq, hchosen, hselected fun e => e.1]
  · obtain ⟨ts, s₇, hmap, htotal⟩ := runs_bind.mp hr
    have hts := values_of_gated hP hbinary (fun q hq => hfinite _ (List.of_mem_zip hq).1) hmap
    rw [hP.total htotal hts, hselected fun e => ratOf (value ρ e.2), ← value_eq_ratOf (hfinite e he)]

end DecisionModel.Tolerant
