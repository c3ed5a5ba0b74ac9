import DecisionModel.Proofs.Lowering.Inline
import DecisionModel.Proofs.Lowering.Memo

/-!
# The walk over terms

`translate_lowers` says of every well-built term that the walk lowers it: by induction on the term,
each node from its operands (`lowerNode_lowers`). A back-end that is limited lowers terms that are
`Term.Integral`.
-/

namespace DecisionModel

open LowerM Backend

variable {ν σ V : Type} [Numeral ν] {B : Backend Exact ν σ} {S : Semantics ν σ V} {c : Context Exact}
  {origin : NodeId → Option (Term Exact)} {G : Set (Handle ν)} {s s' : LoweringState ν σ}

/-- The constants of the term are integers, and integers are all that its operators make of them. -/
structure Term.Integral (t : Term Exact) : Prop where
  const {x : Exact} : Within (.const x) t → x.IsInt
  quotient {id : NodeId} {ts : List (Term Exact)} : ¬ Within (.node id .quotient ts) t
  average {id : NodeId} {ts : List (Term Exact)} : ¬ Within (.node id (.custom "avg") ts) t
  power {id : NodeId} {ts : List (Term Exact)} : Within (.node id (.custom "pow") ts) t →
    ∃ k : ℕ, ts[1]? = some (.const (.finite (k : ℤ)))

theorem Term.Integral.within {t u : Term Exact} (h : t.Integral) (hu : Within u t) : u.Integral where
  const hw := h.const (hw.trans hu)
  quotient hw := h.quotient (hw.trans hu)
  average hw := h.average (hw.trans hu)
  power hw := h.power (hw.trans hu)

theorem Term.integral_const {x : Exact} (hx : x.IsInt) : (Term.const x).Integral where
  const hw := by
    cases hw
    exact hx
  quotient hw := nomatch hw
  average hw := nomatch hw
  power hw := nomatch hw

theorem Term.integral_var (v : VarId) : (Term.var v : Term Exact).Integral where
  const hw := nomatch hw
  quotient hw := nomatch hw
  average hw := nomatch hw
  power hw := nomatch hw

theorem Term.integral_selected (id : NodeId) (f : FamilyId) (i : VarId) :
    (Term.selected id f i : Term Exact).Integral where
  const hw := nomatch hw
  quotient hw := nomatch hw
  average hw := nomatch hw
  power hw := nomatch hw

theorem Term.integral_node {id : NodeId} {op : Operator} {ts : List (Term Exact)}
    (hquotient : op ≠ .quotient) (haverage : op ≠ .custom "avg") (hpower : op ≠ .custom "pow")
    (hts : ∀ t ∈ ts, t.Integral) : (Term.node id op ts).Integral where
  const hw := by
    cases hw with
    | operand hm hw => exact (hts _ hm).const hw
  quotient hw := by
    cases hw with
    | refl => exact hquotient rfl
    | operand hm hw => exact (hts _ hm).quotient hw
  average hw := by
    cases hw with
    | refl => exact haverage rfl
    | operand hm hw => exact (hts _ hm).average hw
  power hw := by
    cases hw with
    | refl => exact absurd rfl hpower
    | operand hm hw => exact (hts _ hm).power hw

/-! ### Reading of collections -/

omit [Numeral ν] in
theorem soleCollection?_eq_none {operands : List (Operand Exact ν σ)}
    (h : Operand.soleCollection? operands = none) : Separate operands := by
  rintro o rfl
  simpa [Operand.soleCollection?] using h

/-- A test of membership gives zero or one. -/
theorem membership_truth {w : Workspace Exact} {m : ModelId} {r : Reader w m}
    {args : List (Argument Exact)} {n : ℤ}
    (h : r.Gives origin (Operator.evaluateMembership args) n) : n = 0 ∨ n = 1 := by
  obtain ⟨x, hx, hn, -⟩ := h
  obtain ⟨y, -, hy⟩ := Outcome.exists_of_andThen hx
  unfold Argument.withItems at hy
  split at hy
  · rename_i xs _ _
    cases hy
    have hvalue : (if xs.any y.isSame then 1 else 0 : ℚ) = n := by
      have hbool := Scalar.ofBool_exact (xs.any y.isSame)
      exact Exact.finite.inj (hbool.symm.trans hn)
    split at hvalue
    · exact .inr (by exact_mod_cast hvalue.symm)
    · exact .inl (by exact_mod_cast hvalue.symm)
  · cases hy
  · cases hy

/-- A negated test is ready when the test is. -/
theorem ready_elementOf {w : Workspace Exact} {m : ModelId} {r : Reader w m} {id : NodeId}
    {ts : List (Term Exact)} (h : r.Ready origin (.node id (.custom "not_element_of") ts)) :
    r.Ready origin (.node id (.custom "element_of") ts) where
  defined t hw hc := by
    cases hw with
    | refl =>
      obtain ⟨x, hx⟩ := h.defined.custom rfl
      obtain ⟨y, hy, -⟩ := Outcome.exists_of_andThen hx
      refine ⟨y, ?_⟩
      rw [Reader.value_node]
      simp only [Operator.evaluate, Reader.custom_eq]
      exact hy
    | operand hm hw => exact h.defined t (.operand hm hw) hc
  bounded := h.bounded
  near hk := by
    cases hk with
    | operand hm _ _ hk => exact h.near (.operand hm (by simp) (by simp) hk)

theorem notMember_lowers (hB : Faithful B S c) (hc : IntegralCollections c) {id cid : NodeId}
    {u key : Term Exact} {lower : LowerM Exact ν σ (Handle ν)}
    (ht : (Term.node id (.custom "not_element_of") [u, .node cid .collection [key]]).WellBuilt origin)
    (hu : Lowers S c origin u lower) :
    Lowers S c origin (.node id (.custom "not_element_of") [u, .node cid .collection [key]])
      (do B.complement (← lowerMembership B c ⟨u, lower⟩ (.node cid .collection [key]))) := by
  refine (membership_lowers hB hc ht hu).compute hB rfl hB.complement ?_ (fun r => ready_elementOf)
    fun _ _ _ _ _ => trivial
  rintro a ρ r n ha rfl
  have hgives : r.Gives origin (Operator.evaluateMembership
      (r.arguments id [u, .node cid .collection [key]])) (S.int ρ a) := by
    have h := ha.means.gives
    rw [Reader.value_node] at h
    simp only [Operator.evaluate, Reader.custom_eq] at h
    exact h
  refine ⟨Reader.means_custom rfl ?_, fun hk => ?_⟩
  · have h := Reader.nonMembership_gives hgives
    rcases membership_truth hgives with h0 | h1
    · simpa [h0, indicator] using h
    · simpa [h1, indicator] using h
  · cases hk with
    | operand hm _ _ hk => exact ha.near (.operand hm (by simp) (by simp) hk)

/-! ### Named operators -/

section

variable {id : NodeId} {name : String} {operands : List (Operand Exact ν σ)}
  (ht : ∀ o ∈ operands, Lowers S c origin o.term o.lower)
  (hconst : ∀ o ∈ operands, ∀ x, o.term = .const x → o.lower = B.constant x)
  (hint : S.limited → (Term.node id (.custom name) (operands.map (·.term))).Integral)
  (hw : (Term.node id (.custom name) (operands.map (·.term))).WellBuilt origin)
include ht hconst hint hw

theorem inline_lowers (hB : Faithful B S c)
    (hsole : name ∈ ["sum", "avg", "count", "min", "max"] → Separate operands)
    (htail : name ∈ ["element_of", "not_element_of", "at"] → Separate operands.tail) :
    Lowers S c origin (.node id (.custom name) (operands.map (·.term)))
      (lowerInline B name operands) := by
  unfold lowerInline
  split
  · exact count_lowers hB (hsole (by simp))
  · exact sum_lowers ht hB (hsole (by simp)) hw
  · exact average_lowers ht hB (fun hl => (hint hl).average (.refl _)) (hsole (by simp)) hw
  · exact minimum_lowers ht hB (hsole (by simp)) hw
  · exact maximum_lowers ht hB (hsole (by simp)) hw
  · exact absolute_lowers ht hB hw
  · exact power_lowers ht hB hconst (fun hl => (hint hl).power (.refl _)) hw
  · exact conditional_lowers ht hB hw
  · exact firstMatch_lowers ht hB hw
  · exact elementOf_lowers ht hB (htail (by simp)) hw
  · exact notElementOf_lowers ht hB (htail (by simp)) hw
  · exact inlineEntry_lowers ht hB (htail (by simp)) hw
  · intro G s h s' _ hr
    exact absurd hr runs_fail

theorem custom_lowers (hB : Faithful B S c) (hc : IntegralCollections c) :
    Lowers S c origin (.node id (.custom name) (operands.map (·.term)))
      (lowerCustom B c name operands) := by
  have hinline := fun hsole htail => inline_lowers ht hconst hint hw hB hsole htail
  unfold lowerCustom
  rcases hcoll : Operand.soleCollection? operands with _ | container
  · have hsole := soleCollection?_eq_none hcoll
    dsimp only
    rcases operands with _ | ⟨first, rest⟩
    · exact hinline (fun _ => hsole) fun _ o h => nomatch h
    rcases htail : Operand.soleCollection? rest with _ | container
    · simp only [List.tail_cons, htail]
      exact hinline (fun _ => hsole) fun _ => soleCollection?_eq_none htail
    · obtain ⟨o, rfl, rfl, hterm⟩ := soleCollection?_eq_some htail
      obtain ⟨cid, key, hkey⟩ := (hw.operand (by simp)).exists_key hterm
      simp only [List.tail_cons, htail]
      have hfirst := ht first (by simp)
      split
      · simp only [List.map_cons, List.map_nil, hkey] at hw ⊢
        exact membership_lowers hB hc hw hfirst
      · simp only [List.map_cons, List.map_nil, hkey] at hw ⊢
        exact notMember_lowers hB hc hw hfirst
      · simp only [List.map_cons, List.map_nil, hkey] at hw ⊢
        exact entry_lowers hB hc (entryOf_named hw) hfirst
      · exact hinline (fun _ => hsole) fun h => by simp_all
  · obtain ⟨o, rfl, rfl, hterm⟩ := soleCollection?_eq_some hcoll
    by_cases hname : name ∈ ["sum", "avg", "count", "min", "max"]
    · obtain ⟨cid, key, hkey⟩ := (hw.operand (by simp)).exists_key hterm
      simp only [List.map_cons, List.map_nil, hkey] at hw hint ⊢
      rw [if_pos hname]
      have hmean : S.limited → name ≠ "avg" := by
        rintro hl rfl
        exact (hint hl).average (.refl _)
      simpa using aggregate_lowers hB hc hname hmean hw
    · dsimp only
      rw [if_neg hname]
      exact hinline (fun h => absurd h hname) fun _ o h => nomatch h

end

/-! ### Nodes -/

omit [Numeral ν] in
theorem computes_pure (x : Handle ν) :
    S.Computes (pure x : LowerM Exact ν σ _) [x] (fun ρ n => n = S.int ρ x) fun _ => True := by
  intro G s h s' hv hargs hr
  obtain ⟨rfl, rfl⟩ := runs_pure.mp hr
  exact ⟨G, .refl hv, hargs x (by simp), fun _ _ => rfl, .refl⟩

/-- A comparison of two numbers is folded as it would be encoded. -/
theorem computes_comparison (hB : Faithful B S c) (k : Comparison) (x y : Handle ν) :
    S.Computes (lowerComparison B k x y) [x, y]
      (fun ρ n => n = indicator (k.Relates (S.int ρ x) (S.int ρ y))) fun _ => True := by
  intro G s h s' hv hargs hr
  unfold lowerComparison at hr
  split at hr
  · rename_i a b ha hb
    obtain ⟨rfl, n, hn, hnum⟩ := hB.constant (fun _ => Scalar.isInt_ofBool _) hr
    refine ⟨G, .refl hv, usable_number hB hv hnum, fun ρ hρ => ?_, .refl⟩
    obtain rfl := Handle.eq_const ha
    obtain rfl := Handle.eq_const hb
    have hx := (hargs (.const a) (by simp)).integral ρ hρ
    have hy := (hargs (.const b) (by simp)).integral ρ hρ
    rw [hB.holds_eq k hx hy, Scalar.ofBool_indicator] at hn
    rw [(hnum.2 ρ).2]
    exact (Int.cast_inj.mp (Exact.finite.inj hn)).symm
  · exact hB.reify k x y hv hargs hr

theorem foldl_mul (n : ℤ) (ns : List ℤ) : ns.foldl (· * ·) n = (n :: ns).prod := by
  induction ns generalizing n with
  | nil => simp
  | cons m ns ih => simp [ih, mul_assoc]

section

variable {id : NodeId} {op : Operator} {operands : List (Operand Exact ν σ)}
  (ht : ∀ o ∈ operands, Lowers S c origin o.term o.lower)
  (hw : (Term.node id op (operands.map (·.term))).WellBuilt origin)
include ht hw

/-- A node of one operand. -/
theorem unary_lowers (hB : Faithful B S c) (hshape : ∃ t, operands.map (·.term) = [t])
    (hop : op ≠ .collection) (hcount : op ≠ .custom "count")
    {f : Handle ν → LowerM Exact ν σ (Handle ν)} {R : ℤ → ℤ → Prop}
    (hf : ∀ x, S.Computes (f x) [x] (fun ρ n => R (S.int ρ x) n) fun _ => True)
    (hg : ∀ (r : Reader c.workspace c.model) text args k n, r.GivesAll origin args [k] → R k n →
      r.Gives origin (op.evaluate r.assignment.custom text args) n) :
    Lowers S c origin (.node id op (operands.map (·.term)))
      (do f (← Operand.lowerNth operands 0)) := by
  obtain ⟨t, hshape⟩ := hshape
  obtain ⟨o, rfl, -⟩ := List.map_eq_singleton_iff.mp hshape
  rw [lowerNth_eq rfl]
  refine (ht o (by simp)).compute hB rfl hf ?_
    (fun r h => ready_operands hop hcount h o.term (by simp)) fun _ _ _ _ _ => trivial
  intro a ρ r n ha hR
  exact node_holds hw hop (.cons ha .nil) fun hall => hg r _ _ _ n hall hR

/-- A node whose operands are combined along a chain. -/
theorem chained_lowers (hB : Faithful B S c) (hop : op ≠ .collection) (hcount : op ≠ .custom "count")
    {f : Handle ν → Handle ν → LowerM Exact ν σ (Handle ν)} {P : ℤ → ℤ → ℤ → Prop}
    (hf : ∀ x y, S.Computes (f x y) [x, y] (fun ρ n => P (S.int ρ x) (S.int ρ y) n) fun _ => True)
    (hg : ∀ (r : Reader c.workspace c.model) text args n ms q, r.GivesAll origin args (n :: ms) →
      FoldsTo P n ms q → r.Gives origin (op.evaluate r.assignment.custom text args) q) :
    Lowers S c origin (.node id op (operands.map (·.term))) (chain f operands) := by
  refine (chain_lowers hB hf ht).lowers rfl ?_ fun r => ready_operands hop hcount
  rintro r ns q h ⟨n, ms, rfl, hfold⟩
  exact node_holds hw hop h fun hall => hg r _ _ n ms q hall hfold

/-- A node that combines the handles of all operands. -/
theorem connective_lowers (hB : Faithful B S c) (hop : op ≠ .collection) (hcount : op ≠ .custom "count")
    {f : List (Handle ν) → LowerM Exact ν σ (Handle ν)} {R : List ℤ → ℤ → Prop}
    (hf : ∀ hs, S.Computes (f hs) hs (fun ρ n => R (hs.map (S.int ρ)) n) fun _ => True)
    (hg : ∀ (r : Reader c.workspace c.model) text args ns n, r.GivesAll origin args ns → R ns n →
      r.Gives origin (op.evaluate r.assignment.custom text args) n) :
    Lowers S c origin (.node id op (operands.map (·.term))) (do f (← lowerAll operands)) := by
  refine (lowersAll_operands hB ht).compute hB (fun hs => hs)
    (R := fun hs ρ n => R (hs.map (S.int ρ)) n) rfl (fun _ _ _ h => h) (fun hs _ => hf hs) ?_
    (fun r => ready_operands hop hcount) fun _ _ _ _ _ _ => trivial
  intro hs ρ r n _ hh hn
  exact node_holds hw hop hh fun hall => hg r _ _ _ n hall hn

theorem comparison_lowers (hB : Faithful B S c) {k : Comparison} (hop : op = .comparison k) :
    Lowers S c origin (.node id op (operands.map (·.term))) (do
      let x ← Operand.lowerNth operands 0
      let y ← Operand.lowerNth operands 1
      lowerComparison B k x y) := by
  subst hop
  obtain ⟨t, u, htu⟩ := hw.shape (.refl _)
  have hlen : (operands.map (·.term)).length = 2 := by rw [htu]; rfl
  obtain ⟨o₁, o₂, rfl⟩ := List.length_eq_two.mp ((List.length_map _).symm.trans hlen)
  rw [lowerNth_eq (k := 0) rfl, lowerNth_eq (k := 1) rfl]
  intro G s h s' hwk hr
  simp only [runs_bind] at hr
  obtain ⟨x, s₁, hx, y, s₂, hy, hr⟩ := hr
  refine (lowersAll_operands hB ht).compute
    (f := fun hs => lowerComparison B k (hs.headD x) (hs.getD 1 y)) hB (fun hs => hs)
    (R := fun hs ρ n => n = indicator (k.Relates (S.int ρ (hs.headD x)) (S.int ρ (hs.getD 1 y))))
    (D := fun _ _ => True) rfl (fun _ _ _ h => h) ?_ ?_
    (fun r => ready_operands (by simp) (by simp)) (fun _ _ _ _ _ _ => trivial) hwk
    (runs_bind.mpr ⟨[x, y], s₂, ?_, hr⟩)
  · intro hs hl
    obtain ⟨a, b, rfl⟩ := List.length_eq_two.mp (hl.trans hlen)
    exact computes_comparison hB k a b
  · rintro hs ρ r n hl hh rfl
    obtain ⟨a, b, rfl⟩ := List.length_eq_two.mp (hl.trans hlen)
    exact node_holds hw (by simp) hh Reader.evaluate_comparison
  · exact runs_mapM_cons.mpr ⟨x, s₁, [y], hx, runs_mapM_cons.mpr
      ⟨y, s₂, [], hy, runs_mapM_nil.mpr ⟨rfl, rfl⟩, rfl⟩, rfl⟩

theorem lowerNode_lowers (hB : Faithful B S c) (hc : IntegralCollections c)
    (hconst : ∀ o ∈ operands, ∀ x, o.term = .const x → o.lower = B.constant x)
    (hint : S.limited → (Term.node id op (operands.map (·.term))).Integral)
    (text : Unit → Except Fault String) :
    Lowers S c origin (.node id op (operands.map (·.term))) (lowerNode B c op text operands) := by
  have hshape := hw.shape (.refl _)
  cases op with
  | wrapper =>
    have h := unary_lowers ht hw hB hshape (by simp) (by simp) (R := fun k n => n = k) computes_pure
      fun r text args k n hall hn => hn ▸ Reader.evaluate_wrapper hall
    simpa [lowerNode] using h
  | negation =>
    exact unary_lowers ht hw hB hshape (by simp) (by simp) (R := fun k n => n = -k) hB.negate
      fun r text args k n hall hn => hn ▸ Reader.evaluate_negation hall
  | complement =>
    exact unary_lowers ht hw hB hshape (by simp) (by simp) (R := fun k n => n = indicator (k = 0))
      hB.complement fun r text args k n hall hn => hn ▸ Reader.evaluate_complement hall
  | sum =>
    refine chained_lowers ht hw hB (by simp) (by simp) (P := fun n m k => k = n + m) hB.add
      fun r text args n ms q hall hfold => ?_
    rw [FoldsTo.eq_foldl (f := (· + ·)) hfold, foldl_add]
    exact Reader.evaluate_sum hall
  | difference =>
    refine chained_lowers ht hw hB (by simp) (by simp) (P := fun n m k => k = n - m) hB.subtract
      fun r text args n ms q hall hfold => ?_
    rw [FoldsTo.eq_foldl (f := (· - ·)) hfold]
    exact Reader.evaluate_difference hall
  | product =>
    refine chained_lowers ht hw hB (by simp) (by simp) (P := fun n m k => k = n * m) hB.multiply
      fun r text args n ms q hall hfold => ?_
    rw [FoldsTo.eq_foldl (f := (· * ·)) hfold, foldl_mul]
    exact Reader.evaluate_product hall
  | quotient =>
    have hlim : ¬ S.limited := fun hl => (hint hl).quotient (.refl _)
    exact chained_lowers ht hw hB (by simp) (by simp) (P := fun n m k => m ≠ 0 ∧ k * m = n)
      (fun x y => hB.divide x y hlim) fun r text args n ms q hall hfold =>
        Reader.evaluate_quotient hall hfold
  | comparison k => exact comparison_lowers ht hw hB rfl
  | conjunction =>
    refine connective_lowers ht hw hB (by simp) (by simp)
      (R := fun ns n => n = indicator (∀ k ∈ ns, k ≠ 0)) (fun hs => ?_)
      fun r text args ns n hall hn => hn ▸ Reader.evaluate_conjunction hall
    simpa using hB.conjoin hs
  | disjunction =>
    refine connective_lowers ht hw hB (by simp) (by simp)
      (R := fun ns n => n = indicator (∃ k ∈ ns, k ≠ 0)) (fun hs => ?_)
      fun r text args ns n hall hn => hn ▸ Reader.evaluate_disjunction hall
    simpa using hB.disjoin hs
  | entry =>
    obtain ⟨container, index, hterms, hcoll⟩ := hshape
    have hlen : (operands.map (·.term)).length = 2 := by rw [hterms]; rfl
    obtain ⟨o₁, o₂, rfl⟩ := List.length_eq_two.mp ((List.length_map _).symm.trans hlen)
    obtain ⟨rfl, rfl⟩ : o₁.term = container ∧ o₂.term = index := by simpa using hterms
    obtain ⟨cid, key, hkey⟩ := (hw.operand (by simp)).exists_key hcoll
    have hindex := ht o₂ (by simp)
    simp only [List.map_cons, List.map_nil, hkey] at hw ⊢
    simpa [lowerNode, Operand.nth, hkey] using entry_lowers hB hc (entryOf_indexed hw) hindex
  | custom name => exact custom_lowers ht hconst hint hw hB hc
  | collection =>
    intro G s h s' _ hr
    simp [lowerNode, runs_bind] at hr

end

/-! ### Terms -/

theorem constant_lowers (hB : Faithful B S c) {x : Exact} (hint : S.limited → x.IsInt) :
    Lowers S c origin (.const x) (B.constant x) := by
  intro G s h s' hw hr
  obtain ⟨rfl, n, rfl, hnum⟩ := hB.constant hint hr
  refine ⟨G, .refl hw.valid, hw, usable_number hB hw.valid hnum, ?_, fun ρ r _ _ => ?_, .refl⟩
  · rintro id f i ⟨⟩
  · rw [(hnum.2 ρ).2]
    exact ⟨Reader.means_const n, fun hk => nomatch hk⟩

/-- The walk lowers every well-built term. -/
theorem translate_lowers (hB : Faithful B S c) (hc : IntegralCollections c) {t : Term Exact}
    (ht : t.WellBuilt origin) (hint : S.limited → t.Integral) :
    Lowers S c origin t (translate B c t) := by
  induction t using Term.induction with
  | const x =>
    rw [Backend.translate]
    exact constant_lowers hB fun hl => (hint hl).const (.refl _)
  | var v =>
    rw [Backend.translate]
    exact var_lowers v
  | selected id f i =>
    rw [Backend.translate]
    exact memoized_lowers hB (ht.registered (.refl _) rfl) (selected_lowers hB id f i)
  | node id op ts ih =>
    rw [Backend.translate, operandsOf_eq]
    have hoperands : ∀ o ∈ ts.map fun t => (⟨t, translate B c t⟩ : Operand Exact ν σ),
        Lowers S c origin o.term o.lower := by
      intro o ho
      obtain ⟨t, hm, rfl⟩ := List.mem_map.mp ho
      exact ih t hm (ht.operand hm) fun hl => (hint hl).within (.of_mem hm)
    have hconst : ∀ o ∈ ts.map fun t => (⟨t, translate B c t⟩ : Operand Exact ν σ), ∀ x,
        o.term = .const x → o.lower = B.constant x := by
      intro o ho x hx
      obtain ⟨t, hm, rfl⟩ := List.mem_map.mp ho
      cases hx
      rw [Backend.translate]
    have hterms : (ts.map fun t => (⟨t, translate B c t⟩ : Operand Exact ν σ)).map (·.term) = ts := by
      simp [Function.comp_def]
    have h := lowerNode_lowers hoperands (hterms.symm ▸ ht) hB hc hconst (hterms.symm ▸ hint)
      fun _ => op.write (c.workspace.pieces ts)
    rw [hterms] at h
    exact memoized_lowers hB (ht.registered (.refl _) rfl) h

end DecisionModel
