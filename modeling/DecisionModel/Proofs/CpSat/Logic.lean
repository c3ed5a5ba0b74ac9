import DecisionModel.Proofs.CpSat.Tables

/-!
# Logic for CP-SAT

A new literal is tied to a constraint by two enforced constraints: the constraint itself where the
literal is true, and its opposite where the negation of the literal is. Conjunctions and
disjunctions are taken over the literals that stand for the truth of their arguments, and a number
among them that decides the result ends the search (`computes_junction`).
-/

namespace DecisionModel.CpSat

open LowerM

variable {α : Type} {G G' : Set Expr} {s s' : CpSatState} {h k x y : Expr} {m n : ℤ}
  {ρ ρ' : HandleId → ℤ} {args hs ls : List Expr}

/-! ### Literals for constraints -/

/-- A new literal that is true exactly where a constraint holds. -/
theorem computes_literal {hint : String} {c c' : Constraint} (p : (HandleId → ℤ) → Prop)
    [∀ ρ, Decidable (p ρ)] (hp : ∀ ρ, c.Holds ρ ↔ p ρ) (hp' : ∀ ρ, c'.Holds ρ ↔ ¬ p ρ)
    (hc : ∀ h ∈ c.handles, h ∈ args) (hc' : ∀ h ∈ c'.handles, h ∈ args) :
    semantics.Computes (α := α) (do
      let literal ← newLiteral hint
      requireIf literal c
      requireIf (← negation literal) c'
      return literal) args (fun ρ n => n = indicator (p ρ)) fun _ => True := by
  have hcongr : ∀ ⦃G n ρ ρ'⦄, World G n → (∀ a ∈ args, a ∈ G) → Agree n ρ ρ' → p ρ → p ρ' :=
    fun G n ρ ρ' hw hargs ha hρ => (hp ρ').mp
      (Constraint.holds_congr (fun h hh => value_congr hw (hargs h (hc h hh)) ha) ((hp ρ).mpr hρ))
  have hpost : ∀ l : Expr, l.number? = none → semantics.Imposes (α := α) (do
      requireIf l c
      requireIf (← negation l) c') (l :: args)
      (fun ρ => (value ρ l = 1 → p ρ) ∧ (value ρ l = 0 → ¬ p ρ))
      fun ρ => value ρ l = indicator (p ρ) ∧ True := by
    intro l hl
    have htrue := posts_requireIf (α := α) (List.mem_cons_self (a := l) (l := args))
      fun h hh => List.mem_cons_of_mem _ (hc h hh)
    have hfalse := posts_unless (α := α) (List.mem_cons_self (a := l) (l := args)) hl
      fun h hh => List.mem_cons_of_mem _ (hc' h hh)
    refine (Posts.append htrue hfalse ?_).imposes.mono (fun ρ hρ => ?_) fun ρ hρ => ?_
    · intro G n ρ ρ' hw hargs ha hρ h0
      rw [← value_congr hw (hargs l (by simp)) ha] at h0
      exact Constraint.holds_congr
        (fun h hh => value_congr hw (hargs h (List.mem_cons_of_mem _ (hc' h hh))) ha) (hρ h0)
    · exact ⟨fun h1 => (hp ρ).mp (hρ.1 h1), fun h0 => (hp' ρ).mp (hρ.2 h0)⟩
    · rw [hp, hp', hρ.1, indicator_eq_one, indicator_eq_zero]
      exact ⟨fun h => h, fun h => h⟩
  have hnew := computes_new (α := α) args (newLiteral hint)
    (P := fun n => n = 0 ∨ n = 1) (R := fun ρ n => n = indicator (p ρ))
    (Q := fun ρ n => (n = 1 → p ρ) ∧ (n = 0 → ¬ p ρ)) (D := fun _ => True)
    (fun ρ => indicator (p ρ)) ?_ hpost ?_ ?_
  · simpa only [bind_assoc] using hnew
  · intro G s h s' hv _ hr
    obtain ⟨G₁, g₁, u₁, hnum, b₁, e₁⟩ := newLiteral_spec hv hr
    exact ⟨G₁, g₁, u₁, hnum, b₁, fun ρ hcalm hρ _ => e₁ _ indicator_cases ρ hcalm hρ⟩
  · rintro ρ n (rfl | rfl) ⟨h1, h0⟩
    · exact (indicator_eq_zero.mpr (h0 rfl)).symm
    · exact (indicator_eq_one.mpr (h1 rfl)).symm
  · exact fun G n ρ ρ' hw hargs ha =>
      ⟨indicator_congr ⟨hcongr hw hargs ha, hcongr hw hargs ha.symm⟩, fun h => h⟩

theorem computes_reify (k : Comparison) (x y : Expr) :
    semantics.Computes (α := α) (reify k x y) [x, y]
      (fun ρ n => n = indicator (k.Relates (value ρ x) (value ρ y))) fun _ => True :=
  computes_literal (fun ρ => k.Relates (value ρ x) (value ρ y)) (fun _ => holds_linear)
    (fun ρ => by simp) handles_linear handles_linear

/-! ### Truth -/

/-- Where the point is admitted, the term is zero or one. -/
structure Literal (G : Set Expr) (s : CpSatState) (h : Expr) : Prop
    extends semantics.Usable G s h where
  binary : ∀ ρ, semantics.Admits ρ s → value ρ h = 0 ∨ value ρ h = 1

theorem Literal.mono (hl : Literal G s h) (hg : semantics.Grows G s G' s') : Literal G' s' h where
  toUsable := hl.toUsable.mono hg
  binary ρ hρ := hl.binary ρ (hg.admits ρ hρ)

theorem truth_spec (hv : semantics.Valid G s) (hu : semantics.Usable G s h) {l : Expr}
    (hr : (truth h : CpSatM α Expr).Runs s l s') :
    ∃ G', semantics.Step G s G' s' ∧ Literal G' s' l ∧
      (∀ ρ, semantics.Admits ρ s' → value ρ l = indicator (value ρ h ≠ 0)) ∧
      semantics.Extends s s' fun _ => True := by
  unfold truth at hr
  split at hr
  · rename_i n hn
    obtain rfl := Handle.eq_const hn
    obtain ⟨rfl, rfl⟩ := runs_pure.mp hr
    have hvalue : ∀ ρ : HandleId → ℤ, value ρ (.const (if n = 0 then 0 else 1)) =
        indicator (value ρ (.const n) ≠ 0) := by
      intro ρ
      rw [value_const, value_const, indicator]
      split <;> simp_all
    exact ⟨G, .refl hv, ⟨usable_number hv _, fun ρ _ => hvalue ρ ▸ indicator_cases⟩,
      fun ρ _ => hvalue ρ, .refl⟩
  · rename_i hn hid
    exact absurd hid (Handle.id?_ne_none hn)
  · rename_i id hn hid
    simp only [runs_bind, runs_getSolver] at hr
    obtain ⟨_, s, ⟨rfl, rfl⟩, hr⟩ := hr
    split at hr
    · rename_i hl
      obtain ⟨rfl, rfl⟩ := runs_pure.mp hr
      have hbinary : ∀ ρ, semantics.Admits ρ s → value ρ h = 0 ∨ value ρ h = 1 := fun ρ hρ =>
        hv.tables.literals (by simpa using hl) hu.mem hid hρ
      refine ⟨G, .refl hv, ⟨hu, hbinary⟩, fun ρ hρ => ?_, .refl⟩
      rw [eq_indicator (hbinary ρ hρ)]
      exact indicator_congr (by rcases hbinary ρ hρ with h0 | h1 <;> simp [*])
    · obtain ⟨G₁, g₁, u₁, b₁, e₁⟩ := computes_reify .ne h (.const 0) hv
        (by simpa using ⟨hu, usable_number hv 0⟩) hr
      refine ⟨G₁, g₁, ⟨u₁, fun ρ hρ => ?_⟩, fun ρ hρ => ?_, e₁⟩
      · rw [show value ρ l = _ from b₁ ρ hρ]
        exact indicator_cases
      · exact (b₁ ρ hρ).trans (indicator_congr (by simp [Comparison.Relates]))

theorem computes_truth (x : Expr) : semantics.Computes (α := α) (truth x) [x]
    (fun ρ n => n = indicator (value ρ x ≠ 0)) fun _ => True := by
  intro G s h s' hv hargs hr
  obtain ⟨G₁, g₁, l₁, b₁, e₁⟩ := truth_spec hv (hargs x (by simp)) hr
  exact ⟨G₁, g₁, l₁.toUsable, b₁, e₁⟩

theorem computes_complement (x : Expr) : semantics.Computes (α := α) (complement x) [x]
    (fun ρ n => n = indicator (value ρ x = 0)) fun _ => True := by
  intro G s h s' hv hargs hr
  obtain ⟨l, s₁, htruth, hr⟩ := runs_bind.mp hr
  obtain ⟨G₁, g₁, l₁, b₁, e₁⟩ := truth_spec hv (hargs x (by simp)) htruth
  have hvalue : ∀ ρ, semantics.Admits ρ s₁ → 1 - value ρ l = indicator (value ρ x = 0) := by
    intro ρ hρ
    rw [b₁ ρ hρ, ← indicator_not]
    exact indicator_congr not_not
  split at hr
  · rename_i n hn
    obtain rfl := Handle.eq_const hn
    obtain ⟨rfl, rfl⟩ := runs_pure.mp hr
    refine ⟨G₁, g₁, usable_number g₁.valid _, fun ρ hρ => ?_, e₁⟩
    show value ρ (.const (1 - n)) = _
    rw [← hvalue ρ hρ, value_const, value_const]
  · rename_i hn
    obtain ⟨k, s₂, hneg, htrack⟩ := runs_bind.mp hr
    obtain ⟨G₂, g₂, hk, hneg, e₂⟩ := negation_spec g₁.valid l₁.mem hn hneg
    have hbinary : ∀ ρ, Admitted ρ s₂ → value ρ k = 0 ∨ value ρ k = 1 := by
      intro ρ hρ
      rw [hneg]
      rcases l₁.binary ρ (g₂.admits ρ hρ) with h0 | h1 <;> omega
    obtain ⟨rfl, g₃, u₃, e₃⟩ := step_trackLiteral g₂.valid hk hbinary htrack
    refine ⟨G₂, g₁.trans (g₂.trans g₃), u₃, fun ρ hρ => ?_, ?_⟩
    · exact (hneg ρ).trans (hvalue ρ (g₂.admits ρ (g₃.admits ρ hρ)))
    · refine e₁.trans_always g₁.toGrows (g₂.trans g₃).toGrows ?_
      exact (e₂ fun _ => True).trans g₂.toGrows g₃.toGrows (e₃ fun _ => True) (fun _ _ h => h)
        fun _ _ _ _ _ _ => trivial

/-! ### Conjunctions and disjunctions -/

/-- The number if it is among the truth values, else the other truth value. -/
def junction (a : ℤ) (truths : List ℤ) : ℤ := if a ∈ truths then a else 1 - a

/-- The terms are no numbers, and zero or one where the point is admitted. -/
def Literals (G : Set Expr) (s : CpSatState) (ls : List Expr) : Prop :=
  ∀ l ∈ ls, Literal G s l ∧ l.number? = none

/-- The truth values of terms. -/
def truths (ρ : HandleId → ℤ) (hs : List Expr) : List ℤ :=
  hs.map fun h => indicator (value ρ h ≠ 0)

theorem openLiterals_spec {a : ℤ} (hv : semantics.Valid G s)
    (hargs : ∀ h ∈ hs, semantics.Usable G s h) {o : Option (List Expr)}
    (hr : (openLiterals a hs : CpSatM α (Option (List Expr))).Runs s o s') :
    ∃ G', semantics.Step G s G' s' ∧ semantics.Extends s s' (fun _ => True) ∧
      (o = none → ∀ ρ, semantics.Admits ρ s' → a ∈ truths ρ hs) ∧
      ∀ ls, o = some ls → Literals G' s' ls ∧ ∀ ρ, semantics.Admits ρ s' →
        (a ∈ truths ρ hs ↔ a ∈ ls.map (value ρ)) := by
  induction hs generalizing G s o with
  | nil =>
    obtain ⟨rfl, rfl⟩ := runs_pure.mp hr
    refine ⟨G, .refl hv, .refl, (fun h => by cases h), fun ls hls => ?_⟩
    cases hls
    exact ⟨by simp [Literals], fun ρ _ => by simp [truths]⟩
  | cons h hs ih =>
    obtain ⟨l, s₁, htruth, hr⟩ := runs_bind.mp hr
    obtain ⟨G₁, g₁, l₁, b₁, e₁⟩ := truth_spec hv (hargs h (by simp)) htruth
    have hargs₁ : ∀ h ∈ hs, semantics.Usable G₁ s₁ h :=
      fun h hh => (hargs h (by simp [hh])).mono g₁.toGrows
    have hcons : ∀ ρ, semantics.Admits ρ s₁ →
        (a ∈ truths ρ (h :: hs) ↔ a = value ρ l ∨ a ∈ truths ρ hs) := by
      intro ρ hρ
      rw [b₁ ρ hρ]
      simp [truths]
    split at hr
    · rename_i n hn
      obtain rfl := Handle.eq_const hn
      split at hr
      · rename_i ha
        obtain ⟨rfl, rfl⟩ := runs_pure.mp hr
        refine ⟨G₁, g₁, e₁, fun _ ρ hρ => (hcons ρ hρ).mpr (.inl ?_), fun ls hls => by cases hls⟩
        rw [value_const, ha]
      · rename_i ha
        obtain ⟨G₂, g₂, e₂, hnone, hsome⟩ := ih g₁.valid hargs₁ hr
        refine ⟨G₂, g₁.trans g₂, ?_, fun ho ρ hρ => ?_, fun ls hls => ?_⟩
        · exact e₁.trans_always g₁.toGrows g₂.toGrows e₂
        · exact (hcons ρ (g₂.admits ρ hρ)).mpr (.inr (hnone ho ρ hρ))
        · obtain ⟨hlits, hiff⟩ := hsome ls hls
          refine ⟨hlits, fun ρ hρ => ?_⟩
          rw [hcons ρ (g₂.admits ρ hρ), hiff ρ hρ, value_const]
          exact or_iff_right fun h => ha h.symm
    · rename_i hn
      obtain ⟨o', s₂, hrest, hr⟩ := runs_bind.mp hr
      obtain ⟨rfl, rfl⟩ := runs_pure.mp hr
      obtain ⟨G₂, g₂, e₂, hnone, hsome⟩ := ih g₁.valid hargs₁ hrest
      refine ⟨G₂, g₁.trans g₂, ?_, fun ho ρ hρ => ?_, fun ls hls => ?_⟩
      · exact e₁.trans_always g₁.toGrows g₂.toGrows e₂
      · exact (hcons ρ (g₂.admits ρ hρ)).mpr (.inr (hnone (Option.map_eq_none_iff.mp ho) ρ hρ))
      · obtain ⟨ls, rfl, rfl⟩ := Option.map_eq_some_iff.mp hls
        obtain ⟨hlits, hiff⟩ := hsome ls rfl
        refine ⟨fun k hk => ?_, fun ρ hρ => ?_⟩
        · rcases List.mem_cons.mp hk with rfl | hk
          · exact ⟨l₁.mono g₂.toGrows, hn⟩
          · exact hlits k hk
        · rw [hcons ρ (g₂.admits ρ hρ), hiff ρ hρ, List.map_cons, List.mem_cons]

/-- A junction of terms, given one of literals. -/
theorem computes_junction {a b : ℤ} (ha : a = 0 ∨ a = 1) (hb : b = 1 - a)
    {make : List Expr → CpSatM α Expr}
    (hmake : ∀ ls : List Expr, (∀ l ∈ ls, l.number? = none) → semantics.Computes (make ls) ls
      (fun ρ n => (∀ l ∈ ls, value ρ l = 0 ∨ value ρ l = 1) → n = junction a (ls.map (value ρ)))
      fun ρ => ∀ l ∈ ls, value ρ l = 0 ∨ value ρ l = 1) (hs : List Expr) :
    semantics.Computes (do
      match ← openLiterals a hs with
      | none => return .const a
      | some [] => return .const b
      | some [literal] => return literal
      | some literals => make literals) hs (fun ρ n => n = junction a (truths ρ hs))
      fun _ => True := by
  subst hb
  intro G s h s' hv hargs hr
  obtain ⟨o, s₁, hopen, hr⟩ := runs_bind.mp hr
  obtain ⟨G₁, g₁, e₁, hnone, hsome⟩ := openLiterals_spec hv hargs hopen
  split at hr
  · obtain ⟨rfl, rfl⟩ := runs_pure.mp hr
    refine ⟨G₁, g₁, usable_number g₁.valid _, fun ρ hρ => ?_, e₁⟩
    show value ρ (.const a) = junction a (truths ρ hs)
    rw [junction, if_pos (hnone rfl ρ hρ), value_const]
  · obtain ⟨rfl, rfl⟩ := runs_pure.mp hr
    obtain ⟨-, hiff⟩ := hsome [] rfl
    refine ⟨G₁, g₁, usable_number g₁.valid _, fun ρ hρ => ?_, e₁⟩
    show value ρ (.const (1 - a)) = junction a (truths ρ hs)
    rw [junction, if_neg (fun h => by simpa using (hiff ρ hρ).mp h), value_const]
  · rename_i l
    obtain ⟨rfl, rfl⟩ := runs_pure.mp hr
    obtain ⟨hlits, hiff⟩ := hsome [l] rfl
    obtain ⟨hl, -⟩ := hlits l (by simp)
    refine ⟨G₁, g₁, hl.toUsable, fun ρ hρ => ?_, e₁⟩
    have hmem := hiff ρ hρ
    rw [List.map_singleton, List.mem_singleton] at hmem
    show value ρ l = junction a (truths ρ hs)
    rw [junction, if_congr hmem rfl rfl]
    split
    · exact Eq.symm ‹_›
    · rcases hl.binary ρ hρ with h | h <;> omega
  · rename_i ls _ _
    obtain ⟨hlits, hiff⟩ := hsome ls rfl
    obtain ⟨G₂, g₂, u₂, b₂, e₂⟩ := hmake ls (fun l hl => (hlits l hl).2) g₁.valid
      (fun l hl => (hlits l hl).1.toUsable) hr
    have hbinary : ∀ ρ, semantics.Admits ρ s₁ → ∀ l ∈ ls, value ρ l = 0 ∨ value ρ l = 1 :=
      fun ρ hρ l hl => (hlits l hl).1.binary ρ hρ
    refine ⟨G₂, g₁.trans g₂, u₂, fun ρ hρ => ?_, ?_⟩
    · have hρ₁ := g₂.admits ρ hρ
      refine (b₂ ρ hρ (hbinary ρ hρ₁)).trans ?_
      rw [junction, junction, if_congr (hiff ρ hρ₁) rfl rfl]
    · exact e₁.trans g₁.toGrows g₂.toGrows e₂ (fun _ _ h => h) fun _ ρ₁ _ _ _ hρ₁ => hbinary ρ₁ hρ₁

/-- The negations of several terms. -/
theorem negations_spec (hv : semantics.Valid G s) (hls : ∀ l ∈ ls, l ∈ G ∧ l.number? = none)
    {ks : List Expr} (hr : (ls.mapM negation : CpSatM α (List Expr)).Runs s ks s') :
    ∃ G', semantics.Step G s G' s' ∧
      List.Forall₂ (fun l k => k ∈ G' ∧ ∀ ρ, value ρ k = 1 - value ρ l) ls ks ∧
      ∀ D, semantics.Extends s s' D := by
  induction ls generalizing G s ks with
  | nil =>
    obtain ⟨rfl, rfl⟩ := runs_mapM_nil.mp hr
    exact ⟨G, .refl hv, .nil, fun _ => .refl⟩
  | cons l ls ih =>
    obtain ⟨k, s₁, ks, hneg, hrest, rfl⟩ := runs_mapM_cons.mp hr
    obtain ⟨hl, hnum⟩ := hls l (by simp)
    obtain ⟨G₁, g₁, hk, hval, e₁⟩ := negation_spec hv hl hnum hneg
    obtain ⟨G₂, g₂, hks, e₂⟩ := ih g₁.valid
      (fun l hl => ⟨g₁.subset (hls l (by simp [hl])).1, (hls l (by simp [hl])).2⟩) hrest
    exact ⟨G₂, g₁.trans g₂, .cons ⟨g₂.subset hk, hval⟩ hks, fun D => (e₁ D).trans g₁.toGrows
      g₂.toGrows (e₂ fun _ => True) (fun _ _ h => h) fun _ _ _ _ _ _ => trivial⟩

/-- A constraint about the negations of terms that stands where the negation of `r` is true. -/
theorem posts_unless_negations {r : Expr} {c : List Expr → Constraint}
    {q : (HandleId → ℤ) → Prop} (hr : r.number? = none) (hls : ∀ l ∈ ls, l.number? = none)
    (hhandles : ∀ ks, (c ks).handles = ks)
    (hc : ∀ ρ ks, List.Forall₂ (fun l k => value ρ k = 1 - value ρ l) ls ks →
      ((c ks).Holds ρ ↔ q ρ))
    (hq : ∀ ρ ρ', (∀ l ∈ ls, value ρ l = value ρ' l) → q ρ → q ρ') :
    semantics.Posts (α := α) (do
      let negations ← ls.mapM negation
      requireIf (← negation r) (c negations)) (r :: ls)
      (fun ρ => value ρ r = 0 → q ρ) fun ρ => value ρ r = 0 → q ρ := by
  intro G s s' hv hargs hrun
  obtain ⟨ks, s₁, hnegs, hrun⟩ := runs_bind.mp hrun
  obtain ⟨G₁, g₁, hks, e₁⟩ := negations_spec hv
    (fun l hl => ⟨(hargs l (by simp [hl])).mem, hls l hl⟩) hnegs
  have hkmem : ∀ k ∈ ks, k ∈ G₁ := by
    intro k hk
    obtain ⟨i, hi⟩ := List.mem_iff_getElem?.mp hk
    obtain ⟨l, -, h, -⟩ := forall₂_getElem?_right hks hi
    exact h
  have hiff : ∀ ρ, (c ks).Holds ρ ↔ q ρ := fun ρ => hc ρ ks (hks.imp fun _ _ h => h.2 ρ)
  obtain ⟨G₂, g₂, b₂, e₂⟩ := posts_unless (α := α) (List.mem_cons_self (a := r) (l := ks)) hr
    (fun k hk => by rw [hhandles] at hk; simp [hk]) g₁.valid
    (fun a ha => by
      rcases List.mem_cons.mp ha with rfl | ha
      · exact (hargs a (by simp)).mono g₁.toGrows
      · exact held_iff.mpr (hkmem a ha)) hrun
  refine ⟨G₂, g₁.trans g₂, fun ρ hρ h0 => (hiff ρ).mp (b₂ ρ hρ h0), ?_⟩
  refine (e₁ _).trans g₁.toGrows g₂.toGrows e₂ (fun _ _ h => h) fun ρ ρ₁ _ hD ha _ h0 => ?_
  have hsame : ∀ a ∈ r :: ls, value ρ a = value ρ₁ a :=
    fun a hm => value_congr hv.world (hargs a hm).mem ha
  refine (hiff ρ₁).mpr (hq ρ ρ₁ (fun l hl => hsame l (by simp [hl])) (hD ?_))
  rw [hsame r (by simp), h0]

theorem junction_binary {a : ℤ} (ha : a = 0 ∨ a = 1) (ns : List ℤ) :
    junction a ns = 0 ∨ junction a ns = 1 := by
  unfold junction
  split <;> omega

theorem junction_zero {ns : List ℤ} : junction 0 ns = 1 ↔ 0 ∉ ns := by
  unfold junction
  split <;> simp [*]

theorem junction_one {ns : List ℤ} : junction 1 ns = 1 ↔ 1 ∈ ns := by
  unfold junction
  split <;> simp [*]

/-- A new literal for a junction of literals: `c` stands where it is true, and `c'` of the negations
where it is not. -/
theorem computes_gate {a : ℤ} {hint : String} {c d : List Expr → Constraint}
    {p q : (HandleId → ℤ) → Prop} (ha : a = 0 ∨ a = 1) (hls : ∀ l ∈ ls, l.number? = none)
    (hhandles : (c ls).handles = ls) (hhandles' : ∀ ks, (d ks).handles = ks)
    (hc : ∀ ρ, (c ls).Holds ρ ↔ p ρ)
    (hc' : ∀ ρ ks, List.Forall₂ (fun l k => value ρ k = 1 - value ρ l) ls ks →
      ((d ks).Holds ρ ↔ q ρ))
    (hq : ∀ ρ ρ', (∀ l ∈ ls, value ρ l = value ρ' l) → q ρ → q ρ')
    (hp : ∀ ρ, (∀ l ∈ ls, value ρ l = 0 ∨ value ρ l = 1) →
      (p ρ ↔ junction a (ls.map (value ρ)) = 1) ∧ (q ρ ↔ junction a (ls.map (value ρ)) ≠ 1)) :
    semantics.Computes (α := α) (do
      let result ← newLiteral hint
      requireIf result (c ls)
      let negations ← ls.mapM negation
      requireIf (← negation result) (d negations)
      return result) ls
      (fun ρ n => (∀ l ∈ ls, value ρ l = 0 ∨ value ρ l = 1) → n = junction a (ls.map (value ρ)))
      fun ρ => ∀ l ∈ ls, value ρ l = 0 ∨ value ρ l = 1 := by
  have hpost : ∀ r : Expr, r.number? = none → semantics.Imposes (α := α) (do
      requireIf r (c ls)
      let negations ← ls.mapM negation
      requireIf (← negation r) (d negations)) (r :: ls)
      (fun ρ => (value ρ r = 1 → p ρ) ∧ (value ρ r = 0 → q ρ))
      fun ρ => value ρ r = junction a (ls.map (value ρ)) ∧
        ∀ l ∈ ls, value ρ l = 0 ∨ value ρ l = 1 := by
    intro r hr
    have htrue := posts_requireIf (α := α) (List.mem_cons_self (a := r) (l := ls))
      (c := c ls) fun h hh => List.mem_cons_of_mem _ (hhandles ▸ hh)
    have hfalse := posts_unless_negations (α := α) hr hls hhandles' hc' hq
    refine (Posts.append htrue hfalse ?_).imposes.mono (fun ρ hρ => ?_) fun ρ hρ => ?_
    · intro G n ρ ρ' hw hargs ha hρ h0
      have hsame : ∀ b ∈ r :: ls, value ρ b = value ρ' b := fun b hb => value_congr hw (hargs b hb) ha
      exact hq ρ ρ' (fun l hl => hsame l (by simp [hl])) (hρ (by rw [hsame r (by simp), h0]))
    · exact ⟨fun h1 => (hc ρ).mp (hρ.1 h1), hρ.2⟩
    · obtain ⟨hpρ, hqρ⟩ := hp ρ hρ.2
      rw [hρ.1, hc, hpρ, hqρ]
      exact ⟨fun h => h, fun h => by omega⟩
  have hnew := computes_new (α := α) ls (newLiteral hint)
    (P := fun n => n = 0 ∨ n = 1) (Q := fun ρ n => (n = 1 → p ρ) ∧ (n = 0 → q ρ))
    (R := fun ρ n => (∀ l ∈ ls, value ρ l = 0 ∨ value ρ l = 1) → n = junction a (ls.map (value ρ)))
    (D := fun ρ => ∀ l ∈ ls, value ρ l = 0 ∨ value ρ l = 1)
    (fun ρ => junction a (ls.map (value ρ))) ?_ hpost ?_ ?_
  · simpa only [bind_assoc] using hnew
  · intro G s h s' hv _ hr
    obtain ⟨G₁, g₁, u₁, hnum, b₁, e₁⟩ := newLiteral_spec hv hr
    exact ⟨G₁, g₁, u₁, hnum, b₁, fun ρ hcalm hρ _ =>
      e₁ _ (junction_binary ha _) ρ hcalm hρ⟩
  · rintro ρ n (rfl | rfl) ⟨h1, h0⟩ hbinary
    · have h := (hp ρ hbinary).2.mp (h0 rfl)
      exact ((junction_binary ha _).resolve_right h).symm
    · exact ((hp ρ hbinary).1.mp (h1 rfl)).symm
  · intro G n ρ ρ' hw hargs ha
    have hsame : ∀ l ∈ ls, value ρ l = value ρ' l := fun l hl => value_congr hw (hargs l hl) ha
    exact ⟨by rw [List.map_congr_left hsame], fun h l hl => hsame l hl ▸ h l hl⟩

theorem exists_negation {ks : List Expr}
    (hks : List.Forall₂ (fun l k => value ρ k = 1 - value ρ l) ls ks) :
    (∃ k ∈ ks, value ρ k = 1) ↔ ∃ l ∈ ls, value ρ l = 0 := by
  induction hks with
  | nil => simp
  | cons h _ ih =>
    simp only [List.exists_mem_cons_iff, ih, h]
    exact or_congr_left (by omega)

theorem forall_negation {ks : List Expr}
    (hks : List.Forall₂ (fun l k => value ρ k = 1 - value ρ l) ls ks) :
    (∀ k ∈ ks, value ρ k = 1) ↔ ∀ l ∈ ls, value ρ l = 0 := by
  induction hks with
  | nil => simp
  | cons h _ ih =>
    simp only [List.forall_mem_cons, ih, h]
    exact and_congr_left fun _ => by omega

theorem computes_conjoin (hs : List Expr) : semantics.Computes (α := α) (conjoin hs) hs
    (fun ρ n => n = indicator (∀ h ∈ hs, value ρ h ≠ 0)) fun _ => True := by
  refine (computes_junction (a := 0) (.inl rfl) rfl (fun ls hls => ?_) hs).mono fun ρ n hn => ?_
  · refine computes_gate (c := .conjunction) (d := .disjunction)
      (p := fun ρ => ∀ l ∈ ls, value ρ l = 1) (.inl rfl) hls rfl (fun _ => rfl) (fun _ => Iff.rfl)
      (fun _ _ => exists_negation) (fun ρ ρ' hsame => ?_) fun ρ hbinary => ?_
    · rintro ⟨l, hl, h0⟩
      exact ⟨l, hl, hsame l hl ▸ h0⟩
    · have hmem : 0 ∈ ls.map (value ρ) ↔ ∃ l ∈ ls, value ρ l = 0 := by simp
      have hall : (∀ l ∈ ls, value ρ l = 1) ↔ ¬ ∃ l ∈ ls, value ρ l = 0 := by
        push Not
        exact forall₂_congr fun l hl => by have := hbinary l hl; omega
      rw [hall, ne_eq, junction_zero, hmem]
      exact ⟨Iff.rfl, not_not.symm⟩
  · rw [hn, junction, indicator, ← ite_not]
    exact if_congr (by simp [truths]) rfl rfl

theorem computes_disjoin (hs : List Expr) : semantics.Computes (α := α) (disjoin hs) hs
    (fun ρ n => n = indicator (∃ h ∈ hs, value ρ h ≠ 0)) fun _ => True := by
  refine (computes_junction (a := 1) (.inr rfl) rfl (fun ls hls => ?_) hs).mono fun ρ n hn => ?_
  · refine computes_gate (c := .disjunction) (d := .conjunction)
      (p := fun ρ => ∃ l ∈ ls, value ρ l = 1) (.inr rfl) hls rfl (fun _ => rfl) (fun _ => Iff.rfl)
      (fun _ _ => forall_negation) (fun ρ ρ' hsame => ?_) fun ρ hbinary => ?_
    · exact fun h l hl => hsame l hl ▸ h l hl
    · have hmem : 1 ∈ ls.map (value ρ) ↔ ∃ l ∈ ls, value ρ l = 1 := by simp
      have hall : (∀ l ∈ ls, value ρ l = 0) ↔ ¬ ∃ l ∈ ls, value ρ l = 1 := by
        push Not
        exact forall₂_congr fun l hl => by have := hbinary l hl; omega
      rw [hall, ne_eq, junction_one, hmem]
      exact ⟨Iff.rfl, Iff.rfl⟩
  · rw [hn, junction, indicator]
    exact if_congr (by simp [truths]) rfl rfl

/-! ### Membership -/

theorem mem_insertAscending {ns : List ℤ} : m ∈ insertAscending n ns ↔ m = n ∨ m ∈ ns := by
  induction ns with
  | nil => simp [insertAscending]
  | cons k ns ih =>
    unfold insertAscending
    split
    · simp
    · split
      · simp_all
      · simp [ih, or_left_comm]

@[simp] theorem mem_ascending {ns : List ℤ} : n ∈ ascending ns ↔ n ∈ ns := by
  induction ns with
  | nil => simp [ascending]
  | cons k ns ih =>
    rw [List.mem_cons, ← ih]
    exact mem_insertAscending

/-- A literal for membership in a list of numbers. -/
theorem computes_inDomain (x : Expr) (ns : List ℤ) : semantics.Computes (α := α) (do
      let literal ← newLiteral "in"
      requireIf literal (.inDomain x ns false)
      requireIf (← negation literal) (.inDomain x ns true)
      return literal) [x] (fun ρ n => n = indicator (value ρ x ∈ ns)) fun _ => True :=
  computes_literal (fun ρ => value ρ x ∈ ns) (fun ρ => by simp [Constraint.Holds])
    (fun ρ => by simp [Constraint.Holds]) (by simp [Constraint.handles])
    (by simp [Constraint.handles])

/-- The tests against terms, and one for all numbers, make up membership. -/
theorem exists_mem_iff {ts : List Expr} (hts : List.Forall₂
      (fun h t => value ρ t = indicator (value ρ x = value ρ h)) (hs.filter fun h => !h.isNumber) ts) :
    (∃ h ∈ hs, value ρ x = value ρ h) ↔
      (∃ t ∈ ts, value ρ t ≠ 0) ∨ value ρ x ∈ hs.filterMap Handle.number? := by
  have hterms : (∃ t ∈ ts, value ρ t ≠ 0) ↔
      ∃ h ∈ hs.filter fun h => !h.isNumber, value ρ x = value ρ h := by
    generalize hs.filter (fun h => !h.isNumber) = terms at hts
    induction hts with
    | nil => simp
    | cons h _ ih =>
      simp only [List.exists_mem_cons_iff, ih, h]
      simp
  rw [hterms, List.mem_filterMap]
  constructor
  · rintro ⟨h, hh, heq⟩
    cases h with
    | const n => exact .inr ⟨_, hh, by rw [heq, value_const]; rfl⟩
    | leaf id name integral => exact .inl ⟨_, List.mem_filter.mpr ⟨hh, rfl⟩, heq⟩
    | node id f args => exact .inl ⟨_, List.mem_filter.mpr ⟨hh, rfl⟩, heq⟩
  · rintro (⟨h, hh, heq⟩ | ⟨h, hh, heq⟩)
    · exact ⟨h, (List.mem_filter.mp hh).1, heq⟩
    · exact ⟨h, hh, by rw [Handle.eq_const heq, value_const]⟩

/-- One of the tests succeeds, or the term is one of the numbers. -/
theorem computes_tests (x : Expr) (ts : List Expr) (ns : List ℤ) :
    semantics.Computes (α := α) (do
      let literal ← newLiteral "in"
      requireIf literal (.inDomain x ns false)
      requireIf (← negation literal) (.inDomain x ns true)
      disjoin (ts ++ [literal])) (x :: ts)
      (fun ρ n => n = indicator ((∃ t ∈ ts, value ρ t ≠ 0) ∨ value ρ x ∈ ns)) fun _ => True := by
  have h := ((computes_inDomain (α := α) x ns).of_subset (x :: ts) (by simp)).bind
    (Q := fun ρ n => n = indicator ((∃ t ∈ ts, value ρ t ≠ 0) ∨ value ρ x ∈ ns))
    (fun l => (computes_disjoin (ts ++ [l])).of_subset (l :: x :: ts) (by simp; tauto)) ?_
  · simpa only [bind_assoc, pure_bind] using h
  · intro ρ l n hl hn
    have hl' : value ρ l ≠ 0 ↔ value ρ x ∈ ns := by
      rw [show value ρ l = _ from hl, ne_eq, indicator_eq_zero, not_not]
    refine hn.trans (indicator_congr ?_)
    rw [← hl']
    simp [or_and_right, exists_or]

/-- No number equals the term if the term is a number that is not among them, or there are none. -/
theorem not_mem_of_decided {ns : List ℤ}
    (hnot : ¬ (x.number?.any ((ascending ns).contains ·)) = true)
    (hnumbers : ((ascending ns).isEmpty || x.isNumber) = true) : value ρ x ∉ ns := by
  intro hmem
  rw [← mem_ascending] at hmem
  rcases Bool.or_eq_true_iff.mp hnumbers with hempty | hnum
  · rw [List.isEmpty_iff.mp hempty] at hmem
    exact absurd hmem List.not_mem_nil
  · cases x with
    | const n =>
      rw [value_const] at hmem
      exact hnot ((Option.any_eq_true _ _).mpr ⟨n, rfl, List.contains_iff_mem.mpr hmem⟩)
    | leaf id name integral => exact absurd hnum (by simp [Handle.isNumber])
    | node id f args => exact absurd hnum (by simp [Handle.isNumber])

theorem computes_membership (x : Expr) (hs : List Expr) :
    semantics.Computes (α := α) (membership x (hs.map some)) (x :: hs)
      (fun ρ n => n = indicator (∃ h ∈ hs, value ρ x = value ρ h)) fun _ => True := by
  intro G s h s' hv hargs hr
  have hfilter : (hs.map some).filterMap id = hs := by simp [List.filterMap_map]
  unfold membership at hr
  simp only [hfilter] at hr
  split at hr
  · rename_i hmem
    obtain ⟨rfl, rfl⟩ := runs_pure.mp hr
    obtain ⟨n, hn, hmem⟩ := (Option.any_eq_true _ _).mp hmem
    obtain rfl := Handle.eq_const hn
    obtain ⟨k, hk, hkn⟩ := List.mem_filterMap.mp (mem_ascending.mp (List.contains_iff_mem.mp hmem))
    obtain rfl := Handle.eq_const hkn
    refine ⟨G, .refl hv, usable_number hv 1, fun ρ _ => ?_, .refl⟩
    exact (value_const (ρ := ρ) 1).trans (indicator_eq_one.mpr ⟨_, hk, rfl⟩).symm
  · rename_i hnot
    obtain ⟨ts, s₁, htests, hr⟩ := runs_bind.mp hr
    obtain ⟨G₁, g₁, hts, e₁⟩ := Semantics.steps_mapM (S := semantics) id (x :: hs)
      (K := fun _ _ => True) (P := fun h t ρ => value ρ t = indicator (value ρ x = value ρ h))
      (fun h hh G s t s' hv hargs hr => by
        obtain ⟨G₁, g₁, u₁, b₁, e₁⟩ := computes_reify .eq x h hv
          (by simpa using ⟨hargs x (by simp), hargs h (by simp [(List.mem_filter.mp hh).1])⟩) hr
        exact ⟨trivial, G₁, g₁, u₁, b₁, e₁⟩) hv hargs htests
    have husable : ∀ t ∈ x :: ts, semantics.Usable G₁ s₁ t := by
      intro t ht
      rcases List.mem_cons.mp ht with rfl | ht
      · exact (hargs t (by simp)).mono g₁.toGrows
      · obtain ⟨i, hi⟩ := List.mem_iff_getElem?.mp ht
        obtain ⟨_, -, -, hu, -⟩ := forall₂_getElem?_right hts hi
        exact hu
    have hrest : ∃ G₂, semantics.Step G₁ s₁ G₂ s' ∧ semantics.Usable G₂ s' h ∧
        (∀ ρ, semantics.Admits ρ s' → value ρ h =
          indicator ((∃ t ∈ ts, value ρ t ≠ 0) ∨ value ρ x ∈ hs.filterMap Handle.number?)) ∧
        semantics.Extends s₁ s' fun _ => True := by
      split at hr
      · rename_i hnumbers
        have hno : ∀ ρ, value ρ x ∉ hs.filterMap Handle.number? :=
          fun ρ => not_mem_of_decided hnot hnumbers
        obtain ⟨G₂, g₂, u₂, b₂, e₂⟩ := computes_disjoin ts g₁.valid
          (fun t ht => husable t (List.mem_cons_of_mem _ ht)) hr
        exact ⟨G₂, g₂, u₂, fun ρ hρ => (b₂ ρ hρ).trans
          (indicator_congr (or_iff_left (hno ρ)).symm), e₂⟩
      · obtain ⟨G₂, g₂, u₂, b₂, e₂⟩ := computes_tests x ts _ g₁.valid husable hr
        exact ⟨G₂, g₂, u₂, fun ρ hρ => (b₂ ρ hρ).trans
          (indicator_congr (or_congr_right mem_ascending)), e₂⟩
    obtain ⟨G₂, g₂, u₂, b₂, e₂⟩ := hrest
    refine ⟨G₂, g₁.trans g₂, u₂, fun ρ hρ => ?_, ?_⟩
    · have hρ₁ := g₂.admits ρ hρ
      exact (b₂ ρ hρ).trans
        (indicator_congr (exists_mem_iff (hts.imp fun _ _ h => h.2.2 ρ hρ₁)).symm)
    · exact e₁.trans_always g₁.toGrows g₂.toGrows e₂

end DecisionModel.CpSat
