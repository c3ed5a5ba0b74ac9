import DecisionModel.Proofs.Evaluation.Reading
import DecisionModel.Proofs.Lowering.Entry

/-!
# Lowering of operators over inline operands

Operators of two operands are applied along a chain (`chain_lowers`), functions of a list to the
handles of all operands. What comes out is what evaluation gives of the operands, one theorem for
each operator.
-/

namespace DecisionModel

open LowerM Backend

variable {ν σ V : Type} [Numeral ν] {B : Backend Exact ν σ} {S : Semantics ν σ V} {c : Context Exact}
  {origin : NodeId → Option (Term Exact)} {G : Set (Handle ν)} {s s' : LoweringState ν σ}

/-- Running `m` lowers the terms to one handle, which is related by `Q` to their values. -/
def Combines (S : Semantics ν σ V) (c : Context Exact) (origin : NodeId → Option (Term Exact))
    (ts : List (Term Exact)) (m : LowerM Exact ν σ (Handle ν)) (Q : List ℤ → ℤ → Prop) : Prop :=
  ∀ ⦃G s h s'⦄, Walked S c origin G s → m.Runs s h s' →
    ∃ G', S.Grows G s G' s' ∧ Walked S c origin G' s' ∧ S.Usable G' s' h ∧
      (∀ ρ (r : Reader c.workspace c.model), S.Admits ρ s' → Matched S s ρ r →
        ∃ ns, List.Forall₂ (r.Holds origin) ts ns ∧ Q ns (S.int ρ h)) ∧
      S.Extends s s' (ReadyAt S c origin s ts)

omit [Numeral ν] in
theorem Combines.lowers {t : Term Exact} {ts : List (Term Exact)} {Q : List ℤ → ℤ → Prop}
    {m : LowerM Exact ν σ (Handle ν)} (h : Combines S c origin ts m Q) (hnode : t.isNode = true)
    (hQ : ∀ (r : Reader c.workspace c.model) ns n, List.Forall₂ (r.Holds origin) ts ns → Q ns n →
      r.Holds origin t n)
    (hready : ∀ r : Reader c.workspace c.model, r.Ready origin t → ∀ u ∈ ts, r.Ready origin u) :
    Lowers S c origin t m := by
  intro G s a s' hw hr
  obtain ⟨G', g, w, u, b, e⟩ := h hw hr
  refine ⟨G', g, w, u, membersKnown_node hnode, fun ρ r hρ hm => ?_, e.mono ?_⟩
  · obtain ⟨ns, hns, hn⟩ := b ρ r hρ hm
    exact hQ r ns _ hns hn
  · rintro ρ - ⟨r, hm, ht⟩
    exact ⟨r, hm, hready r (ht t (by simp))⟩

omit [Numeral ν] in
theorem Combines.compute {ts : List (Term Exact)} {m : LowerM Exact ν σ (Handle ν)}
    {f : Handle ν → LowerM Exact ν σ (Handle ν)} {Q Q' : List ℤ → ℤ → Prop} {R : ℤ → ℤ → Prop}
    (h : Combines S c origin ts m Q)
    (hf : ∀ a, S.Computes (f a) [a] (fun ρ n => R (S.int ρ a) n) fun _ => True)
    (hQ : ∀ ns k n, Q ns k → R k n → Q' ns n) : Combines S c origin ts (m >>= f) Q' := by
  intro G s a s' hw hr
  obtain ⟨x, s₁, hr₁, hr₂⟩ := runs_bind.mp hr
  obtain ⟨G₁, g₁, w₁, u₁, b₁, e₁⟩ := h hw hr₁
  obtain ⟨G₂, g₂, u₂, b₂, e₂⟩ := hf x w₁.valid (by simpa using u₁) hr₂
  refine ⟨G₂, g₁.trans g₂.toGrows, w₁.step g₂, u₂, fun ρ r hρ hm => ?_, ?_⟩
  · obtain ⟨ns, hns, hk⟩ := b₁ ρ r (g₂.admits ρ hρ) hm
    exact ⟨ns, hns, hQ ns _ _ hk (b₂ ρ hρ)⟩
  · exact e₁.trans_always g₁ g₂.toGrows e₂

/-! ### Chains -/

section

variable {P : ℤ → ℤ → ℤ → Prop} {f : Handle ν → Handle ν → LowerM Exact ν σ (Handle ν)}

/-- The steps of a chain from a handle on. -/
theorem fold_lowers (hB : Faithful B S c)
    (hf : ∀ x y, S.Computes (f x y) [x, y] (fun ρ n => P (S.int ρ x) (S.int ρ y) n) fun _ => True)
    {operands : List (Operand Exact ν σ)} (ho : ∀ o ∈ operands, Lowers S c origin o.term o.lower)
    {h k : Handle ν} (hw : Walked S c origin G s) (hu : S.Usable G s h)
    (hr : (operands.foldlM (fun h (o : Operand Exact ν σ) => do f h (← o.lower)) h :
      LowerM Exact ν σ (Handle ν)).Runs s k s') :
    ∃ G', S.Grows G s G' s' ∧ Walked S c origin G' s' ∧ S.Usable G' s' k ∧
      (∀ ρ (r : Reader c.workspace c.model), S.Admits ρ s' → Matched S s ρ r →
        ∃ ns, List.Forall₂ (r.Holds origin) (operands.map (·.term)) ns ∧
          FoldsTo P (S.int ρ h) ns (S.int ρ k)) ∧
      S.Extends s s' (ReadyAt S c origin s (operands.map (·.term))) := by
  induction operands generalizing G s h with
  | nil =>
    obtain ⟨rfl, rfl⟩ := runs_foldlM_nil.mp hr
    exact ⟨G, .refl hw.valid, hw, hu, fun ρ r _ _ => ⟨[], .nil, rfl⟩, .refl⟩
  | cons o os ih =>
    obtain ⟨y, s₂, hstep, hrest⟩ := runs_foldlM_cons.mp hr
    obtain ⟨x, s₁, hx, hy⟩ := runs_bind.mp hstep
    obtain ⟨G₁, g₁, w₁, u₁, -, b₁, e₁⟩ := ho o (by simp) hw hx
    obtain ⟨G₂, g₂, u₂, b₂, e₂⟩ := hf h x w₁.valid (by simpa using ⟨hu.mono g₁, u₁⟩) hy
    obtain ⟨G₃, g₃, w₃, u₃, b₃, e₃⟩ := ih (fun o ho' => ho o (by simp [ho'])) (w₁.step g₂) u₂ hrest
    have g₁₂ := g₁.trans g₂.toGrows
    refine ⟨G₃, g₁₂.trans g₃, w₃, u₃, fun ρ r hρ hm => ?_, ?_⟩
    · have hρ₂ := g₃.admits ρ hρ
      obtain ⟨ns, hns, hfold⟩ := b₃ ρ r hρ ((matched_iff g₁₂.handles_eq).mpr hm)
      exact ⟨S.int ρ x :: ns, .cons (b₁ ρ r (g₂.admits ρ hρ₂) hm) hns, _, b₂ ρ hρ₂, hfold⟩
    · have e₁₂ : S.Extends s s₂ (ReadyAt S c origin s ((o :: os).map (·.term))) :=
        e₁.trans g₁ g₂.toGrows e₂ (fun ρ _ h => h.congr hB hw (Agree.refl _ ρ) rfl (by simp))
          fun _ _ _ _ _ _ => trivial
      refine e₁₂.trans g₁₂ g₃ e₃ (fun _ _ h => h) fun ρ ρ₂ _ h ha _ => ?_
      exact h.congr hB hw ha g₁₂.handles_eq fun t ht => by simp_all

theorem chain_lowers (hB : Faithful B S c)
    (hf : ∀ x y, S.Computes (f x y) [x, y] (fun ρ n => P (S.int ρ x) (S.int ρ y) n) fun _ => True)
    {operands : List (Operand Exact ν σ)} (ho : ∀ o ∈ operands, Lowers S c origin o.term o.lower) :
    Combines S c origin (operands.map (·.term)) (chain f operands)
      fun ns q => ∃ n ms, ns = n :: ms ∧ FoldsTo P n ms q := by
  intro G s k s' hw hr
  cases operands with
  | nil => exact absurd hr runs_fail
  | cons o os =>
    obtain ⟨h, s₁, hh, hr⟩ := runs_bind.mp hr
    obtain ⟨G₁, g₁, w₁, u₁, -, b₁, e₁⟩ := ho o (by simp) hw hh
    obtain ⟨G₂, g₂, w₂, u₂, b₂, e₂⟩ :=
      fold_lowers hB hf (fun o ho' => ho o (List.mem_cons_of_mem _ ho')) w₁ u₁ hr
    refine ⟨G₂, g₁.trans g₂, w₂, u₂, fun ρ r hρ hm => ?_, ?_⟩
    · obtain ⟨ns, hns, hfold⟩ := b₂ ρ r hρ ((matched_iff g₁.handles_eq).mpr hm)
      exact ⟨S.int ρ h :: ns, .cons (b₁ ρ r (g₂.admits ρ hρ) hm) hns, _, ns, rfl, hfold⟩
    · refine e₁.trans g₁ g₂ e₂ (fun ρ _ h => h.congr hB hw (Agree.refl _ ρ) rfl (by simp)) ?_
      exact fun ρ ρ₁ _ h ha _ => h.congr hB hw ha g₁.handles_eq fun t ht => by simp_all

end

/-! ### Nodes over operands that are lowered -/

section

variable {w : Workspace Exact} {m : ModelId} {r : Reader w m} {id : NodeId} {op : Operator}
  {ts : List (Term Exact)} {ns : List ℤ} {n : ℤ}

/-- A node is what its operator gives, if it gives this of operands that are integers. -/
theorem node_holds (ht : (Term.node id op ts).WellBuilt origin) (hop : op ≠ .collection)
    (h : List.Forall₂ (r.Holds origin) ts ns)
    (hg : r.GivesAll origin (r.arguments id ts) ns → r.Gives origin (op.evaluate
      r.assignment.custom (fun _ => op.write (w.pieces ts)) (r.arguments id ts)) n) :
    r.Holds origin (.node id op ts) n where
  means := by
    have hall : r.MeansAll origin ts ns := h.imp fun _ _ hh => hh.means
    exact Reader.means_node (hg (hall.givesAll ht))
  near hk := by
    cases hk with
    | collection => exact absurd rfl hop
    | operand hm _ _ hk =>
      obtain ⟨k, hget⟩ := List.getElem?_of_mem hm
      obtain ⟨_, -, hh⟩ := forall₂_getElem?_left h hget
      exact hh.near hk

theorem custom_holds {name : String} {evaluator : CustomEvaluator Exact}
    (ht : (Term.node id (.custom name) ts).WellBuilt origin)
    (he : Operator.builtin? name = some evaluator) (h : List.Forall₂ (r.Holds origin) ts ns)
    (hg : r.GivesAll origin (r.arguments id ts) ns →
      r.Gives origin (evaluator (r.arguments id ts)) n) :
    r.Holds origin (.node id (.custom name) ts) n := by
  refine node_holds ht (by simp) h fun hall => ?_
  simp only [Operator.evaluate, Reader.custom_eq, he]
  exact hg hall

theorem ready_operands (hop : op ≠ .collection) (hcount : op ≠ .custom "count")
    (h : r.Ready origin (.node id op ts)) : ∀ t ∈ ts, r.Ready origin t :=
  fun _ ht => h.operand ht hop fun hc => absurd hc hcount

end

omit [Numeral ν] in
theorem lowerNth_eq {operands : List (Operand Exact ν σ)} {o : Operand Exact ν σ} {k : ℕ}
    (h : operands[k]? = some o) : Operand.lowerNth operands k = o.lower := by
  simp [Operand.lowerNth, Operand.nth, h]

theorem foldl_add (n : ℤ) (ns : List ℤ) : ns.foldl (· + ·) n = (n :: ns).sum := by
  induction ns generalizing n with
  | nil => simp
  | cons m ns ih => simp [ih, add_assoc]

/-! ### Named operators -/

section

variable {id : NodeId} {operands : List (Operand Exact ν σ)}

/-- The operands are no reference to a collection alone. -/
def Separate (operands : List (Operand Exact ν σ)) : Prop :=
  ∀ o, operands = [o] → o.term.isCollection = false

omit [Numeral ν] in
theorem Separate.arguments (h : Separate operands) {w : Workspace Exact} {m : ModelId}
    (r : Reader w m) (k : ℕ) :
    Argument.soleCollection? (r.assignment.arguments w r.read id k (operands.map (·.term))) = none := by
  refine Reader.soleCollection_arguments fun t ht => ?_
  obtain ⟨o, rfl, rfl⟩ := List.map_eq_singleton_iff.mp ht
  exact h o rfl

theorem count_lowers (hB : Faithful B S c) (hs : Separate operands) :
    Lowers S c origin (.node id (.custom "count") (operands.map (·.term)))
      (B.constant (Scalar.ofInt operands.length)) := by
  intro G s h s' hw hr
  obtain ⟨rfl, n, hn, hnum⟩ := hB.constant (fun _ => ⟨_, rfl⟩) hr
  refine ⟨G, .refl hw.valid, hw, usable_number hB hw.valid hnum, membersKnown_node rfl, ?_, .refl⟩
  intro ρ r _ _
  rw [(hnum.2 ρ).2]
  refine ⟨Reader.means_custom rfl ?_, fun hk => ?_⟩
  · simp only [Operator.evaluateCount, Reader.arguments, hs.arguments r 0, Assignment.length_arguments,
      List.length_map]
    exact Reader.gives_value hn
  · cases hk with
    | operand hm _ hcount hk =>
      obtain ⟨hsole, hcoll⟩ := hcount rfl
      obtain ⟨o, rfl, rfl⟩ := List.map_eq_singleton_iff.mp hsole
      simp [hs o rfl] at hcoll

variable (ht : ∀ o ∈ operands, Lowers S c origin o.term o.lower)
include ht

theorem sum_lowers (hB : Faithful B S c) (hs : Separate operands)
    (hw : (Term.node id (.custom "sum") (operands.map (·.term))).WellBuilt origin) :
    Lowers S c origin (.node id (.custom "sum") (operands.map (·.term)))
      (if operands.isEmpty then B.constant Scalar.zero else chain B.add operands) := by
  split
  · rename_i hempty
    obtain rfl : operands = [] := by simpa using hempty
    intro G s h s' hw' hr
    obtain ⟨rfl, n, hn, hnum⟩ := hB.constant (fun _ => ⟨0, by simp⟩) hr
    obtain rfl : n = 0 := by simpa [eq_comm] using hn
    refine ⟨G, .refl hw'.valid, hw', usable_number hB hw'.valid hnum, membersKnown_node rfl,
      fun ρ r _ _ => ?_, .refl⟩
    rw [(hnum.2 ρ).2]
    exact custom_holds hw rfl .nil fun h => Reader.evaluateSum_gives (Reader.items_inline h rfl)
  · refine (chain_lowers (P := fun n m k => k = n + m) hB hB.add ht).lowers rfl ?_
      fun r => ready_operands (by simp) (by simp)
    rintro r ns q h ⟨n, ms, rfl, hfold⟩
    refine custom_holds hw rfl h fun hall => ?_
    have hq : q = (n :: ms).sum := (FoldsTo.eq_foldl (f := (· + ·)) hfold).trans (foldl_add n ms)
    exact hq ▸ Reader.evaluateSum_gives (Reader.items_inline hall (hs.arguments r 0))

omit ht in
/-- A quotient by a number. -/
theorem computes_divide_int (hB : Faithful B S c) (hlim : ¬ S.limited) (x : Handle ν) (k : ℕ) :
    S.Computes (do B.divide x (← B.constant (Scalar.ofInt k))) [x]
      (fun ρ n => (k : ℤ) ≠ 0 ∧ n * k = S.int ρ x) fun _ => True := by
  intro G s h s' hv hargs hr
  obtain ⟨y, s₁, hy, hdivide⟩ := runs_bind.mp hr
  obtain ⟨rfl, n, hn, hnum⟩ := hB.constant (fun _ => ⟨_, rfl⟩) hy
  obtain rfl : (k : ℤ) = n := Int.cast_inj.mp (Exact.finite.inj hn)
  obtain ⟨G₁, g₁, u₁, b₁, e₁⟩ := hB.divide x y hlim hv
    (by simpa using ⟨hargs x (by simp), usable_number hB hv hnum⟩) hdivide
  refine ⟨G₁, g₁, u₁, fun ρ hρ => ?_, e₁⟩
  simpa [(hnum.2 ρ).2] using b₁ ρ hρ

theorem average_lowers (hB : Faithful B S c) (hlim : ¬ S.limited) (hs : Separate operands)
    (hw : (Term.node id (.custom "avg") (operands.map (·.term))).WellBuilt origin) :
    Lowers S c origin (.node id (.custom "avg") (operands.map (·.term))) (do
      let total ← chain B.add operands
      B.divide total (← B.constant (Scalar.ofInt operands.length))) := by
  have htotal : Combines S c origin (operands.map (·.term)) (do
      let total ← chain B.add operands
      B.divide total (← B.constant (Scalar.ofInt operands.length)))
      fun ns q => ∃ n ms, ns = n :: ms ∧ q * operands.length = ns.sum := by
    refine (chain_lowers (P := fun n m k => k = n + m) hB hB.add ht).compute
      (R := fun k n => (operands.length : ℤ) ≠ 0 ∧ n * operands.length = k)
      (fun a => computes_divide_int hB hlim a _) ?_
    rintro ns k q ⟨n, ms, rfl, hfold⟩ ⟨-, rfl⟩
    exact ⟨n, ms, rfl, (FoldsTo.eq_foldl (f := (· + ·)) hfold).trans (foldl_add n ms)⟩
  refine htotal.lowers rfl ?_ fun r => ready_operands (by simp) (by simp)
  rintro r ns q h ⟨n, ms, rfl, hq⟩
  refine custom_holds hw rfl h fun hall => ?_
  refine Reader.average_gives (Reader.items_inline hall (hs.arguments r 0)) ?_
  have hlen := h.length_eq
  simp only [List.length_map, List.length_cons] at hlen
  rw [← hq, hlen]
  push_cast
  rfl

theorem minimum_lowers (hB : Faithful B S c) (hs : Separate operands)
    (hw : (Term.node id (.custom "min") (operands.map (·.term))).WellBuilt origin) :
    Lowers S c origin (.node id (.custom "min") (operands.map (·.term)))
      (do B.minimum (← lowerAll operands)) := by
  refine (lowersAll_operands hB ht).compute hB (fun hs => hs) rfl (fun _ _ _ h => h)
    (fun hs _ => hB.minimum hs) ?_ (fun r => ready_operands (by simp) (by simp)) fun _ _ _ _ _ _ => trivial
  rintro hs' ρ r n - h ⟨⟨a, ha, rfl⟩, hle⟩
  cases hs' with
  | nil => cases ha
  | cons b bs =>
    refine custom_holds hw rfl h fun hall => ?_
    refine Reader.least_gives (Reader.items_inline hall (hs.arguments r 0)) ?_ ?_
    · exact List.mem_map_of_mem (f := S.int ρ) ha
    · simpa using hle

theorem maximum_lowers (hB : Faithful B S c) (hs : Separate operands)
    (hw : (Term.node id (.custom "max") (operands.map (·.term))).WellBuilt origin) :
    Lowers S c origin (.node id (.custom "max") (operands.map (·.term)))
      (do B.maximum (← lowerAll operands)) := by
  refine (lowersAll_operands hB ht).compute hB (fun hs => hs) rfl (fun _ _ _ h => h)
    (fun hs _ => hB.maximum hs) ?_ (fun r => ready_operands (by simp) (by simp)) fun _ _ _ _ _ _ => trivial
  rintro hs' ρ r n - h ⟨⟨a, ha, rfl⟩, hle⟩
  cases hs' with
  | nil => cases ha
  | cons b bs =>
    refine custom_holds hw rfl h fun hall => ?_
    refine Reader.greatest_gives (Reader.items_inline hall (hs.arguments r 0)) ?_ ?_
    · exact List.mem_map_of_mem (f := S.int ρ) ha
    · simpa using hle

theorem absolute_lowers (hB : Faithful B S c)
    (hw : (Term.node id (.custom "abs") (operands.map (·.term))).WellBuilt origin) :
    Lowers S c origin (.node id (.custom "abs") (operands.map (·.term)))
      (do B.absolute (← Operand.lowerNth operands 0)) := by
  have hlen : (operands.map (·.term)).length = 1 := (hw.shape (.refl _)).1 1 rfl
  obtain ⟨o, rfl⟩ := List.length_eq_one_iff.mp ((List.length_map _).symm.trans hlen)
  rw [lowerNth_eq rfl]
  refine (ht o (by simp)).compute hB rfl hB.absolute ?_
    (fun r h => ready_operands (by simp) (by simp) h o.term (by simp)) fun _ _ _ _ _ => trivial
  rintro a ρ r n ha rfl
  exact custom_holds hw rfl (.cons ha .nil) fun hall => Reader.absolute_gives hall rfl

/-- An exponent that is an integer constant is a number when the power is made; any other exponent is
left to the back-end. -/
theorem power_lowers (hB : Faithful B S c)
    (hconst : ∀ o ∈ operands, ∀ x, o.term = .const x → o.lower = B.constant x)
    (hlim : S.limited → ∃ k : ℕ, (operands.map (·.term))[1]? = some (.const (.finite (k : ℤ))))
    (hw : (Term.node id (.custom "pow") (operands.map (·.term))).WellBuilt origin) :
    Lowers S c origin (.node id (.custom "pow") (operands.map (·.term))) (do
      let base ← Operand.lowerNth operands 0
      let exponent ← Operand.lowerNth operands 1
      B.power base exponent) := by
  have hlen : (operands.map (·.term)).length = 2 := (hw.shape (.refl _)).1 2 rfl
  obtain ⟨o₁, o₂, rfl⟩ := List.length_eq_two.mp ((List.length_map _).symm.trans hlen)
  rw [lowerNth_eq (k := 0) rfl, lowerNth_eq (k := 1) rfl]
  have hready : ∀ r : Reader c.workspace c.model,
      r.Ready origin (.node id (.custom "pow") [o₁.term, o₂.term]) →
        ∀ t ∈ [o₁.term, o₂.term], r.Ready origin t := fun r => ready_operands (by simp) (by simp)
  intro G s h s' hwk hr
  obtain ⟨x, s₁, hx, hr₁⟩ := runs_bind.mp hr
  obtain ⟨y, s₂, hy, hr₂⟩ := runs_bind.mp hr₁
  by_cases hl : S.limited
  · obtain ⟨k, hk⟩ := hlim hl
    have hterm : o₂.term = .const (.finite (k : ℤ)) := by simpa using hk
    rw [hconst o₂ (by simp) _ hterm] at hy
    obtain ⟨rfl, n, hn, hnum⟩ := hB.constant (fun _ => ⟨k, rfl⟩) hy
    obtain rfl : (k : ℤ) = n := Int.cast_inj.mp (Exact.finite.inj hn)
    refine (ht o₁ (by simp)).compute (f := fun a => B.power a y)
      (R := fun a ρ n => n = S.int ρ a ^ k) (D := fun _ _ => True) hB rfl ?_ ?_
      (fun r h => hready r h _ (by simp)) (fun _ _ _ _ _ => trivial) hwk
      (runs_bind.mpr ⟨x, _, hx, hr₂⟩)
    · intro a G s h s' hv hargs hr
      obtain ⟨G₁, g₁, u₁, b₁, e₁⟩ := hB.power a y (fun _ => ⟨k, hnum⟩) hv
        (by simpa using ⟨hargs a (by simp), usable_number hB hv hnum⟩) hr
      refine ⟨G₁, g₁, u₁, fun ρ hρ => ?_, e₁⟩
      obtain ⟨j, hj, hvalue⟩ := b₁ ρ hρ
      obtain rfl : k = j := by
        rw [(hnum.2 ρ).2] at hj
        exact_mod_cast hj
      exact hvalue
    · rintro a ρ r n ha rfl
      have hexp : r.Holds origin o₂.term k := by
        rw [hterm]
        exact ⟨Reader.means_const k, fun hk => nomatch hk⟩
      exact custom_holds hw rfl (.cons ha (.cons hexp .nil)) fun hall => Reader.power_gives hall rfl
  · refine (lowersAll_operands hB ht).compute (f := fun hs => B.power (hs.headD x) (hs.getD 1 y)) hB
      (fun hs => hs) (R := fun hs ρ n => ∃ k : ℕ, S.int ρ (hs.getD 1 y) = k ∧
        n = S.int ρ (hs.headD x) ^ k) (D := fun _ _ => True) rfl (fun _ _ _ h => h) ?_ ?_ hready
      (fun _ _ _ _ _ _ => trivial) hwk (runs_bind.mpr ⟨[x, y], s₂, ?_, hr₂⟩)
    · intro hs hl'
      obtain ⟨a, b, rfl⟩ := List.length_eq_two.mp (hl'.trans hlen)
      exact hB.power a b fun h => absurd h hl
    · rintro hs ρ r n hl' hh ⟨k, hk, rfl⟩
      obtain ⟨a, b, rfl⟩ := List.length_eq_two.mp (hl'.trans hlen)
      exact custom_holds hw rfl hh fun hall => Reader.power_gives hall hk
    · exact runs_mapM_cons.mpr ⟨x, s₁, [y], hx, runs_mapM_cons.mpr
        ⟨y, s₂, [], hy, runs_mapM_nil.mpr ⟨rfl, rfl⟩, rfl⟩, rfl⟩

theorem conditional_lowers (hB : Faithful B S c)
    (hw : (Term.node id (.custom "if_then_else") (operands.map (·.term))).WellBuilt origin) :
    Lowers S c origin (.node id (.custom "if_then_else") (operands.map (·.term))) (do
      let condition ← Operand.lowerNth operands 0
      let thenValue ← Operand.lowerNth operands 1
      let elseValue ← Operand.lowerNth operands 2
      B.conditional condition thenValue elseValue) := by
  have hlen : (operands.map (·.term)).length = 3 := (hw.shape (.refl _)).1 3 rfl
  obtain ⟨o₁, o₂, o₃, rfl⟩ := List.length_eq_three.mp ((List.length_map _).symm.trans hlen)
  rw [lowerNth_eq (k := 0) rfl, lowerNth_eq (k := 1) rfl, lowerNth_eq (k := 2) rfl]
  intro G s h s' hwk hr
  simp only [runs_bind] at hr
  obtain ⟨x, s₁, hx, y, s₂, hy, z, s₃, hz, hr⟩ := hr
  refine (lowersAll_operands hB ht).compute
    (f := fun hs => B.conditional (hs.headD x) (hs.getD 1 y) (hs.getD 2 z)) hB (fun hs => hs)
    (R := fun hs ρ n => n = if S.int ρ (hs.headD x) = 0 then S.int ρ (hs.getD 2 z)
      else S.int ρ (hs.getD 1 y)) (D := fun _ _ => True) rfl (fun _ _ _ h => h) ?_ ?_
    (fun r => ready_operands (by simp) (by simp)) (fun _ _ _ _ _ _ => trivial) hwk
    (runs_bind.mpr ⟨[x, y, z], s₃, ?_, hr⟩)
  · intro hs hl
    obtain ⟨a, b, d, rfl⟩ := List.length_eq_three.mp (hl.trans hlen)
    exact hB.conditional a b d
  · rintro hs ρ r n hl hh rfl
    obtain ⟨a, b, d, rfl⟩ := List.length_eq_three.mp (hl.trans hlen)
    exact custom_holds hw rfl hh fun hall => Reader.conditional_gives hall rfl rfl rfl
  · exact runs_mapM_cons.mpr ⟨x, s₁, [y, z], hx, runs_mapM_cons.mpr ⟨y, s₂, [z], hy,
      runs_mapM_cons.mpr ⟨z, s₃, [], hz, runs_mapM_nil.mpr ⟨rfl, rfl⟩, rfl⟩, rfl⟩, rfl⟩

omit ht in
theorem evens_cons {β : Type} (x : β) (xs : List β) : evens (x :: xs) = x :: evens xs.tail := by
  cases xs <;> rfl

omit ht in
theorem evens_map {β γ : Type} (f : β → γ) (xs : List β) : evens (xs.map f) = (evens xs).map f := by
  fun_induction evens xs with
  | case1 => rfl
  | case2 x => rfl
  | case3 x y xs ih => simp [evens, ih]

omit ht in
theorem mem_of_mem_evens {β : Type} {x : β} {xs : List β} (h : x ∈ evens xs) : x ∈ xs := by
  fun_induction evens xs with
  | case1 => exact h
  | case2 y => exact h
  | case3 y z xs ih =>
    rcases List.mem_cons.mp h with rfl | h
    · simp
    · simp [ih h]

omit ht in
/-- Conditions and values by their places, the last argument apart, choose as a first match does. -/
theorem chosen_evens (ns : List ℤ) (k : ℤ) :
    chosen ((evens ns).zip (evens ns.tail)) k = Reader.firstMatch (ns ++ [k]) := by
  fun_induction evens ns with
  | case1 => rfl
  | case2 n => simp [evens, chosen, Reader.firstMatch]
  | case3 n m ns ih =>
    rw [List.tail_cons, evens_cons, List.zip_cons_cons, chosen, ih]
    simp [Reader.firstMatch]

theorem firstMatch_lowers (hB : Faithful B S c)
    (hw : (Term.node id (.custom "n_ary_if") (operands.map (·.term))).WellBuilt origin) :
    Lowers S c origin (.node id (.custom "n_ary_if") (operands.map (·.term))) (do
      let handles ← lowerAll operands
      match handles.getLast? with
      | none => .fail (.fault .missingOperand)
      | some otherwise =>
        let pairs := handles.dropLast
        B.firstMatch (evens pairs) (evens pairs.tail) otherwise) := by
  refine (lowersAll_operands hB ht).compute hB (fun hs => hs)
    (R := fun hs ρ n => hs ≠ [] ∧ n = Reader.firstMatch (hs.map (S.int ρ))) (D := fun _ _ => True) rfl
    (fun _ _ _ h => h) ?_ ?_ (fun r => ready_operands (by simp) (by simp))
    fun _ _ _ _ _ _ => trivial
  · intro hs _ G s h s' hv hargs hr
    rcases List.eq_nil_or_concat hs with rfl | ⟨pairs, otherwise, rfl⟩
    · exact absurd hr runs_fail
    · simp only [List.concat_eq_append, List.getLast?_concat, List.dropLast_concat] at hr hargs ⊢
      have hsub : ∀ a ∈ evens pairs ++ evens pairs.tail ++ [otherwise], a ∈ pairs ++ [otherwise] := by
        intro a ha
        simp only [List.mem_append] at ha ⊢
        rcases ha with (ha | ha) | ha
        · exact .inl (mem_of_mem_evens ha)
        · exact .inl (List.mem_of_mem_tail (mem_of_mem_evens ha))
        · exact .inr ha
      obtain ⟨G₁, g₁, u₁, b₁, e₁⟩ := hB.firstMatch (evens pairs) (evens pairs.tail) otherwise hv
        (fun a ha => hargs a (hsub a ha)) hr
      refine ⟨G₁, g₁, u₁, fun ρ hρ => ⟨by simp, ?_⟩, e₁⟩
      rw [b₁ ρ hρ, ← evens_map, ← evens_map, List.map_tail, chosen_evens, List.map_append,
        List.map_singleton]
  · rintro hs ρ r n - hh ⟨hne, rfl⟩
    exact custom_holds hw rfl hh fun hall => Reader.firstMatch_gives hall (by simpa using hne)

/-- Membership among inline operands, as a node of any test of membership. -/
theorem inlineMembership_lowers (hB : Faithful B S c) {name : String}
    {evaluator : CustomEvaluator Exact} {k : ℤ → ℤ} (htail : Separate operands.tail)
    (hname : name ≠ "count") (he : Operator.builtin? name = some evaluator)
    (hg : ∀ {w : Workspace Exact} {m : ModelId} {r : Reader w m} {args : List (Argument Exact)} {n : ℤ},
      r.Gives origin (Operator.evaluateMembership args) n → r.Gives origin (evaluator args) (k n))
    {f : Handle ν → List (Handle ν) → LowerM Exact ν σ (Handle ν)}
    (hf : ∀ x hs, S.Computes (f x hs) (x :: hs)
      (fun ρ n => n = k (indicator (∃ h ∈ hs, S.int ρ x = S.int ρ h))) fun _ => True)
    (hw : (Term.node id (.custom name) (operands.map (·.term))).WellBuilt origin) :
    Lowers S c origin (.node id (.custom name) (operands.map (·.term))) (do
      let value ← Operand.lowerNth operands 0
      f value (← lowerAll operands.tail)) := by
  cases operands with
  | nil =>
    intro G s h s' _ hr
    simp [Operand.lowerNth, Operand.nth, runs_bind] at hr
  | cons o os =>
    rw [lowerNth_eq rfl, List.tail_cons]
    intro G s h s' hwk hr
    simp only [runs_bind] at hr
    obtain ⟨x, s₁, hx, hs, s₂, hhs, hr⟩ := hr
    refine (lowersAll_operands hB ht).compute (f := fun hs => f (hs.headD x) hs.tail) hB (fun hs => hs)
      (R := fun hs ρ n => ∃ a as, hs = a :: as ∧
        n = k (indicator (∃ h ∈ as, S.int ρ a = S.int ρ h))) (D := fun _ _ => True) rfl
      (fun _ _ _ h => h) ?_ ?_ (fun r => ready_operands (by simp) (by simp [hname]))
      (fun _ _ _ _ _ _ => trivial) hwk
      (runs_bind.mpr ⟨x :: hs, s₂, runs_mapM_cons.mpr ⟨x, s₁, hs, hx, hhs, rfl⟩, hr⟩)
    · intro hs hl G s h s' hv hargs hr
      obtain ⟨a, as, rfl⟩ := List.exists_cons_of_length_eq_add_one hl
      obtain ⟨G₁, g₁, u₁, b₁, e₁⟩ := hf a as hv hargs hr
      exact ⟨G₁, g₁, u₁, fun ρ hρ => ⟨a, as, rfl, b₁ ρ hρ⟩, e₁⟩
    · rintro _ ρ r n - hh ⟨a, as, rfl, rfl⟩
      refine custom_holds hw he hh fun hall => hg ?_
      rw [indicator_congr (q := S.int ρ a ∈ as.map (S.int ρ)) (by simp [eq_comm])]
      obtain _ | ⟨hfirst, hrest⟩ := hall
      exact Reader.membership_gives hfirst (Reader.items_inline hrest (htail.arguments r 1))

theorem elementOf_lowers (hB : Faithful B S c) (htail : Separate operands.tail)
    (hw : (Term.node id (.custom "element_of") (operands.map (·.term))).WellBuilt origin) :
    Lowers S c origin (.node id (.custom "element_of") (operands.map (·.term))) (do
      let value ← Operand.lowerNth operands 0
      B.membership value ((← lowerAll operands.tail).map some)) :=
  inlineMembership_lowers ht (k := fun n => n) (f := fun x hs => B.membership x (hs.map some)) hB htail
    (by simp) rfl (fun h => h) hB.membership hw

omit ht in
/-- The complement of an indicator. -/
theorem computes_complement (hB : Faithful B S c) {m : LowerM Exact ν σ (Handle ν)}
    {args : List (Handle ν)} {p : (HandleId → V) → Prop} [∀ ρ, Decidable (p ρ)]
    (hm : S.Computes m args (fun ρ n => n = indicator (p ρ)) fun _ => True) :
    S.Computes (m >>= B.complement) args (fun ρ n => n = 1 - indicator (p ρ)) fun _ => True := by
  refine hm.bind (fun x => (hB.complement x).of_subset _ (by simp)) ?_
  rintro ρ x n hx rfl
  rw [← indicator_not, indicator_congr (q := ¬ p ρ)]
  rw [hx, indicator_eq_zero]

theorem notElementOf_lowers (hB : Faithful B S c) (htail : Separate operands.tail)
    (hw : (Term.node id (.custom "not_element_of") (operands.map (·.term))).WellBuilt origin) :
    Lowers S c origin (.node id (.custom "not_element_of") (operands.map (·.term))) (do
      let value ← Operand.lowerNth operands 0
      B.complement (← B.membership value ((← lowerAll operands.tail).map some))) :=
  inlineMembership_lowers ht (k := fun n => 1 - n)
    (f := fun x hs => B.membership x (hs.map some) >>= B.complement) hB htail (by simp) rfl
    Reader.nonMembership_gives (fun x hs => computes_complement hB (hB.membership x hs)) hw

/-- An entry of the operands after the first, which are lowered before it. -/
theorem inlineEntry_lowers (hB : Faithful B S c) (htail : Separate operands.tail)
    (hw : (Term.node id (.custom "at") (operands.map (·.term))).WellBuilt origin) :
    Lowers S c origin (.node id (.custom "at") (operands.map (·.term))) (do
      let values ← lowerAll operands.tail
      let index ← Operand.lowerNth operands 0
      B.element index (values.mapIdx fun i h => ((i : ℤ) + 1, h))) := by
  cases operands with
  | nil =>
    intro G s h s' _ hr
    simp [Operand.lowerNth, Operand.nth, runs_bind] at hr
  | cons o os =>
    rw [lowerNth_eq rfl, List.tail_cons]
    intro G s h s' hwk hr
    simp only [runs_bind] at hr
    obtain ⟨hs, s₁, hhs, x, s₂, hx, hr⟩ := hr
    obtain ⟨G₁, g₁, w₁, u₁, l₁, b₁, e₁⟩ :=
      lowersAll_operands hB (fun o' ho' => ht o' (List.mem_cons_of_mem _ ho')) hwk hhs
    obtain ⟨G₂, g₂, w₂, u₂, -, b₂, e₂⟩ := ht o (by simp) w₁ hx
    have hargs : ∀ a ∈ x :: hs, S.Usable G₂ s₂ a := by
      intro a ha
      rcases List.mem_cons.mp ha with rfl | ha
      · exact u₂
      · exact (u₁ a ha).mono g₂
    obtain ⟨G₃, g₃, u₃, b₃, e₃⟩ := computes_entry hB x hs w₂.valid hargs hr
    have g₁₂ := g₁.trans g₂
    have hready : ∀ r : Reader c.workspace c.model,
        r.Ready origin (.node id (.custom "at") (o.term :: os.map (·.term))) →
          ∀ t ∈ o.term :: os.map (·.term), r.Ready origin t := fun r =>
      ready_operands (by simp) (by simp)
    refine ⟨G₃, g₁₂.trans g₃.toGrows, w₂.step g₃, u₃, membersKnown_node rfl, ?_, ?_⟩
    · intro ρ r hρ hm
      have hρ₂ := g₃.admits ρ hρ
      have hvalues := b₁ ρ r (g₂.admits ρ hρ₂) hm
      have hindex := b₂ ρ r hρ₂ ((matched_iff g₁.handles_eq).mpr hm)
      refine custom_holds hw rfl (.cons hindex hvalues) fun hall => ?_
      obtain _ | ⟨hfirst, hrest⟩ := hall
      exact Reader.entry_inline hfirst hrest (htail.arguments r 1) (b₃ ρ hρ)
    · have e₁₂ : S.Extends s s₂ (ReadyAt S c origin s
          [.node id (.custom "at") (o.term :: os.map (·.term))]) := by
        refine e₁.trans g₁ g₂ e₂ ?_ ?_
        · rintro ρ - ⟨r, hm, h⟩
          exact ⟨r, hm, fun t hmem => hready r (h _ (by simp)) t (List.mem_cons_of_mem _ hmem)⟩
        · rintro ρ ρ₁ - ⟨r, hm, h⟩ ha -
          exact ⟨r, (matched_iff g₁.handles_eq).mpr (hm.congr hB hwk ha),
            fun t hmem => hready r (h _ (by simp)) t (by simp_all)⟩
      refine e₁₂.trans g₁₂ g₃.toGrows e₃ (fun _ _ h => h) ?_
      rintro ρ ρ₂ - ⟨r, hm, h⟩ ha hρ₂
      have hindex := b₂ ρ₂ r hρ₂ ((matched_iff g₁.handles_eq).mpr (hm.congr hB hwk ha))
      obtain ⟨y, hy⟩ := (h _ (List.mem_singleton_self _)).defined.custom rfl
      obtain ⟨h1, hlen⟩ := Reader.position_of_entry_inline
        (hindex.means _ (stands_operand hw rfl)) (htail.arguments r 1) hy
      rw [Assignment.length_arguments] at hlen
      exact ⟨h1, l₁ ▸ hlen⟩

end

end DecisionModel
