import DecisionModel.Proofs.CpSat.Tables

/-!
# Arithmetic for CP-SAT

Sums, differences and products with numbers are terms whose bounds are those of interval arithmetic;
products of terms, absolute values and extrema are new variables with a constraint. Each encoding
computes what it stands for, and its bounds hold the value as long as no interval was cut off.
-/

namespace DecisionModel.CpSat

open LowerM

variable {α : Type} {G G' : Set Expr} {s s' : CpSatState} {h k x y : Expr}
  {a b : Bounds} {m n : ℤ} {ρ ρ' : HandleId → ℤ} {args : List Expr}

namespace Bounds

theorem Contains.neg (h : a.Contains m) : a.neg.Contains (-m) :=
  ⟨neg_le_neg h.2, neg_le_neg h.1⟩

theorem Contains.add (hm : a.Contains m) (hn : b.Contains n) : (a.add b).Contains (m + n) :=
  ⟨add_le_add hm.1 hn.1, add_le_add hm.2 hn.2⟩

theorem Contains.sub (hm : a.Contains m) (hn : b.Contains n) : (a.sub b).Contains (m - n) :=
  ⟨sub_le_sub hm.1 hn.2, sub_le_sub hm.2 hn.1⟩

/-- A product with one factor fixed is between the products with the ends of an interval. -/
theorem mul_between (hm : a.Contains m) (n : ℤ) :
    min (a.lower * n) (a.upper * n) ≤ m * n ∧ m * n ≤ max (a.lower * n) (a.upper * n) := by
  obtain ⟨hl, hu⟩ := hm
  rcases le_total 0 n with hn | hn
  · exact ⟨min_le_of_left_le (mul_le_mul_of_nonneg_right hl hn),
      le_max_of_le_right (mul_le_mul_of_nonneg_right hu hn)⟩
  · exact ⟨min_le_of_right_le (mul_le_mul_of_nonpos_right hu hn),
      le_max_of_le_left (mul_le_mul_of_nonpos_right hl hn)⟩

theorem Contains.mul (hm : a.Contains m) (hn : b.Contains n) : (a.mul b).Contains (m * n) := by
  obtain ⟨hlo, hhi⟩ := mul_between hm n
  obtain ⟨hlo₁, hhi₁⟩ := mul_between hn a.lower
  obtain ⟨hlo₂, hhi₂⟩ := mul_between hn a.upper
  simp only [mul_comm _ a.lower, mul_comm _ a.upper] at hlo₁ hhi₁ hlo₂ hhi₂
  exact ⟨(min_le_min hlo₁ hlo₂).trans hlo, hhi.trans (max_le_max hhi₁ hhi₂)⟩

theorem Contains.abs (hm : a.Contains m) : a.abs.Contains |m| := by
  obtain ⟨hl, hu⟩ := hm
  rw [← Int.natCast_natAbs]
  unfold Bounds.abs Bounds.Contains
  constructor
  · dsimp only
    split <;> omega
  · dsimp only
    omega

theorem Contains.hull_left (hm : a.Contains m) : (a.hull b).Contains m :=
  ⟨(min_le_left _ _).trans hm.1, hm.2.trans (le_max_left _ _)⟩

theorem Contains.hull_right (hm : b.Contains m) : (a.hull b).Contains m :=
  ⟨(min_le_right _ _).trans hm.1, hm.2.trans (le_max_right _ _)⟩

theorem Contains.least (hm : a.Contains m) (hn : b.Contains n) : (a.least b).Contains (min m n) :=
  ⟨min_le_min hm.1 hn.1, min_le_min hm.2 hn.2⟩

theorem Contains.greatest (hm : a.Contains m) (hn : b.Contains n) :
    (a.greatest b).Contains (max m n) :=
  ⟨max_le_max hm.1 hn.1, max_le_max hm.2 hn.2⟩

end Bounds

/-! ### Terms -/

theorem derives_binary {f : ℤ → ℤ → ℤ} (symbol : SolverFunction)
    (hf : ∀ id ρ, value ρ (.node id symbol [x, y]) = f (value ρ x) (value ρ y)) :
    semantics.Derives (α := α) (binary f symbol x y) [x, y] fun ρ n =>
      n = f (value ρ x) (value ρ y) := by
  have hnode : semantics.Derives (α := α) (node symbol [x, y]) [x, y] fun ρ n =>
      n = f (value ρ x) (value ρ y) := by
    intro G s h s' hv hargs hr
    obtain ⟨rfl, rfl⟩ := runs_node.mp hr
    obtain ⟨g, e⟩ := step_enter hv (h := .node ⟨s.nextHandle⟩ symbol [x, y]) rfl (by
      intro id f args heq a ha
      cases heq
      exact (hargs a ha).mem)
    exact ⟨_, g, held_iff.mpr (.inl rfl), fun ρ _ => hf ⟨s.nextHandle⟩ ρ, e _⟩
  unfold binary
  split
  · intro G s h s' hv hargs hr
    obtain ⟨rfl, rfl⟩ := runs_pure.mp hr
    exact ⟨G, .refl hv, held_iff.mpr (hv.world.const_mem _), fun ρ _ => by
      simp [semantics], .refl⟩
  · exact hnode

theorem derives_neg : semantics.Derives (α := α) (LowerM.neg x) [x] fun ρ n => n = -value ρ x := by
  intro G s h s' hv hargs hr
  unfold LowerM.neg at hr
  split at hr
  · obtain ⟨rfl, rfl⟩ := runs_pure.mp hr
    exact ⟨G, .refl hv, held_iff.mpr (hv.world.const_mem _), fun ρ _ => by
      simp [semantics, Numeral.neg], .refl⟩
  · obtain ⟨rfl, rfl⟩ := runs_node.mp hr
    obtain ⟨g, e⟩ := step_enter hv (h := .node ⟨s.nextHandle⟩ .neg [_]) rfl (by
      intro id f args heq a ha
      cases heq
      exact (hargs a ha).mem)
    exact ⟨_, g, held_iff.mpr (.inl rfl), fun ρ _ => @value_neg ρ ⟨s.nextHandle⟩ x, e _⟩

theorem step_trackConfined (hv : semantics.Valid G s) (hh : h ∈ G)
    (hb : s.solver.cut = false → ∀ ρ, Admitted ρ s → b.Contains (value ρ h)) {u : Expr}
    (hr : (trackConfined h b : CpSatM α Expr).Runs s u s') :
    u = h ∧ semantics.Step G s G s' ∧ semantics.Usable G s' h ∧ ∀ D, semantics.Extends s s' D := by
  unfold trackConfined at hr
  split at hr
  · rename_i hnum
    obtain ⟨rfl, rfl⟩ := runs_pure.mp hr
    refine ⟨rfl, .refl hv, usable_iff.mpr ⟨hh, fun id hid => ?_⟩, fun _ => .refl⟩
    cases h <;> simp_all [Handle.isNumber, Handle.id?]
  · obtain ⟨c, s₁, hconfine, htrack⟩ := runs_bind.mp hr
    obtain ⟨rfl, g₁, hclamp, -, e₁⟩ := step_confine hv hconfine
    obtain ⟨hu, g₂, u₂, e₂⟩ := step_track g₁.valid hh (fun hc ρ hρ => by
      rw [hclamp hc]
      exact hb (g₁.calm hc) ρ (g₁.admits ρ hρ)) htrack
    exact ⟨hu, g₁.trans g₂, u₂, fun D => (e₁ D).trans g₁.toGrows g₂.toGrows (e₂ fun _ => True)
      (fun _ _ h => h) fun _ _ _ _ _ _ => trivial⟩

/-- A term with its bounds noted. -/
theorem computes_confined {make : CpSatM α Expr} {f : (HandleId → ℤ) → ℤ} {b : Solver → Bounds}
    (hm : semantics.Derives make args fun ρ n => n = f ρ)
    (hb : ∀ ⦃G s ρ⦄, semantics.Valid G s → (∀ a ∈ args, semantics.Usable G s a) →
      s.solver.cut = false → Admitted ρ s → (b s.solver).Contains (f ρ)) :
    semantics.Computes (do
      let t ← getSolver
      let h ← make
      trackConfined h (b t)) args (fun ρ n => n = f ρ) fun _ => True := by
  intro G s h s' hv hargs hr
  simp only [runs_bind, runs_getSolver] at hr
  obtain ⟨_, s, ⟨rfl, rfl⟩, h₁, s₁, hmake, htrack⟩ := hr
  obtain ⟨G₁, g₁, u₁, b₁, e₁⟩ := hm hv (fun a ha => (hargs a ha).toHeld) hmake
  obtain ⟨rfl, g₂, u₂, e₂⟩ := step_trackConfined g₁.valid u₁.mem (fun hc ρ hρ => by
    rw [show value ρ h₁ = f ρ from b₁ ρ hρ]
    exact hb hv hargs (g₁.calm hc) (g₁.admits ρ hρ)) htrack
  refine ⟨G₁, g₁.trans g₂, u₂, fun ρ hρ => b₁ ρ (g₂.admits ρ hρ), ?_⟩
  exact e₁.trans_always g₁.toGrows g₂.toGrows (e₂ fun _ => True)

theorem computes_negate (x : Expr) :
    semantics.Computes (α := α) (negate x) [x] (fun ρ n => n = -value ρ x) fun _ => True := by
  intro G s h s' hv hargs hr
  simp only [negate, runs_bind, runs_boundsOf] at hr
  obtain ⟨_, s, ⟨rfl, rfl⟩, h₁, s₁, hmake, htrack⟩ := hr
  have hx := hargs x (by simp)
  obtain ⟨G₁, g₁, u₁, b₁, e₁⟩ := derives_neg hv (by simpa using hx.toHeld) hmake
  obtain ⟨rfl, g₂, u₂, e₂⟩ := step_track g₁.valid u₁.mem (fun hc ρ hρ => by
    rw [show value ρ h₁ = _ from b₁ ρ hρ]
    exact (boundsOf_contains hv hx (g₁.calm hc) (g₁.admits ρ hρ)).neg) htrack
  refine ⟨G₁, g₁.trans g₂, u₂, fun ρ hρ => b₁ ρ (g₂.admits ρ hρ), ?_⟩
  exact e₁.trans_always g₁.toGrows g₂.toGrows (e₂ fun _ => True)

theorem runs_boundsOf_both {β : Type} {f : Bounds → Bounds → CpSatM α β} {u : β} :
    (do
      let a ← boundsOf x
      let b ← boundsOf y
      f a b : CpSatM α β).Runs s u s' ↔
    (do
      let t ← getSolver
      f (t.boundsOf x) (t.boundsOf y) : CpSatM α β).Runs s u s' := by
  simp only [runs_bind, runs_boundsOf, runs_getSolver]
  constructor
  · rintro ⟨_, _, ⟨rfl, rfl⟩, _, _, ⟨rfl, rfl⟩, hr⟩
    exact ⟨_, _, ⟨rfl, rfl⟩, hr⟩
  · rintro ⟨_, _, ⟨rfl, rfl⟩, hr⟩
    exact ⟨_, _, ⟨rfl, rfl⟩, _, _, ⟨rfl, rfl⟩, hr⟩

/-- `computes_confined` for a function of two terms. -/
theorem computes_binary {make : CpSatM α Expr} {f : ℤ → ℤ → ℤ} {combine : Bounds → Bounds → Bounds}
    (hm : semantics.Derives make [x, y] fun ρ n => n = f (value ρ x) (value ρ y))
    (hcombine : ∀ {a b : Bounds} {m n : ℤ}, a.Contains m → b.Contains n →
      (combine a b).Contains (f m n)) :
    semantics.Computes (do
      let a ← boundsOf x
      let b ← boundsOf y
      let h ← make
      trackConfined h (combine a b)) [x, y] (fun ρ n => n = f (value ρ x) (value ρ y))
      fun _ => True := by
  have h := computes_confined hm (b := fun t => combine (t.boundsOf x) (t.boundsOf y))
    fun G s ρ hv hargs hc hρ => hcombine (boundsOf_contains hv (hargs x (by simp)) hc hρ)
      (boundsOf_contains hv (hargs y (by simp)) hc hρ)
  intro G s k s' hv hargs hr
  exact h hv hargs (runs_boundsOf_both.mp hr)

theorem computes_add (x y : Expr) : semantics.Computes (α := α) (add x y) [x, y]
    (fun ρ n => n = value ρ x + value ρ y) fun _ => True :=
  computes_binary (derives_binary .add fun _ _ => value_add) .add

theorem computes_subtract (x y : Expr) : semantics.Computes (α := α) (subtract x y) [x, y]
    (fun ρ n => n = value ρ x - value ρ y) fun _ => True :=
  computes_binary (derives_binary .sub fun _ _ => value_sub) .sub

/-- A number, a variable, or a new variable that equals the term. -/
theorem computes_asVariable (x : Expr) : semantics.Computes (α := α) (asVariable x) [x]
    (fun ρ n => n = value ρ x) fun _ => True := by
  unfold asVariable
  split
  · exact Semantics.computes_argument (by simp) fun _ => rfl
  · have hnew := computes_newInteger (α := α) [x] "expr" (fun t => t.boundsOf x)
      (fun v => require (linear .eq v x)) (R := fun ρ n => n = value ρ x) (fun ρ => value ρ x)
      (fun G s ρ hv hargs => boundsOf_contains hv (hargs x (by simp)))
      (fun v => (posts_require _ handles_linear).imposes.mono
        (fun ρ hρ => by simpa [Comparison.Relates] using hρ)
        (fun ρ hρ => by simpa [Comparison.Relates] using hρ))
      fun G n ρ ρ' hw hargs ha => value_congr hw (hargs x (by simp)) ha
    simpa [boundsOf] using hnew

/-- A product of variables, or numbers, that equal the terms. -/
theorem imposes_product (r x y : Expr) : semantics.Imposes (α := α) (do
      let x' ← asVariable x
      let y' ← asVariable y
      require (.product r [x', y'])) [r, x, y] (fun ρ => value ρ r = value ρ x * value ρ y)
      fun ρ => value ρ r = value ρ x * value ρ y := by
  have hproduct : ∀ x' y', semantics.Imposes (α := α) (require (.product r [x', y'])) [y', x', r, x, y]
      (fun ρ => value ρ r = value ρ x' * value ρ y') fun ρ => value ρ r = value ρ x' * value ρ y' :=
    fun x' y' => (posts_require _ (by simp [Constraint.handles])).imposes.mono
      (fun ρ hρ => by simpa [Constraint.Holds] using hρ)
      fun ρ hρ => by simpa [Constraint.Holds] using hρ
  have hright : ∀ x', semantics.Imposes (α := α) (do
      let y' ← asVariable y
      require (.product r [x', y'])) [x', r, x, y]
      (fun ρ => value ρ r = value ρ x' * value ρ y) fun ρ => value ρ r = value ρ x' * value ρ y := by
    refine fun x' => Semantics.Imposes.bind (computes_asVariable y) (by simp) (hproduct x') ?_ ?_
    · intro ρ y' hy hr
      rw [hr]
      exact congrArg _ hy
    · intro G n ρ ρ' y' hw hargs ha hy hD
      rw [← value_congr hw (hargs r (by simp)) ha, ← value_congr hw (hargs x' (by simp)) ha, hD,
        value_congr hw (hargs y (by simp)) ha]
      exact congrArg _ hy.symm
  refine Semantics.Imposes.bind (computes_asVariable x) (by simp) hright ?_ ?_
  · intro ρ x' hx hr
    rw [hr]
    exact congrArg (· * _) hx
  · intro G n ρ ρ' x' hw hargs ha hx hD
    rw [← value_congr hw (hargs r (by simp)) ha, ← value_congr hw (hargs y (by simp)) ha, hD,
      value_congr hw (hargs x (by simp)) ha]
    exact congrArg (· * _) hx.symm

theorem computes_multiply (x y : Expr) : semantics.Computes (α := α) (multiply x y) [x, y]
    (fun ρ n => n = value ρ x * value ρ y) fun _ => True := by
  unfold multiply
  by_cases hnum : (x.isNumber || y.isNumber) = true
  · simp only [hnum, if_true]
    exact computes_binary (derives_binary .mul fun _ _ => value_mul) .mul
  · simp only [hnum]
    have hnew := computes_newInteger (α := α) [x, y] "product"
      (fun t => (t.boundsOf x).mul (t.boundsOf y)) _ (R := fun ρ n => n = value ρ x * value ρ y)
      (fun ρ => value ρ x * value ρ y)
      (fun G s ρ hv hargs hc hρ => (boundsOf_contains hv (hargs x (by simp)) hc hρ).mul
        (boundsOf_contains hv (hargs y (by simp)) hc hρ))
      (fun r => imposes_product r x y)
      fun G n ρ ρ' hw hargs ha => by
        rw [value_congr hw (hargs x (by simp)) ha, value_congr hw (hargs y (by simp)) ha]
    intro G s k s' hv hargs hr
    refine hnew hv hargs ?_
    simpa using runs_boundsOf_both.mp hr

/-- An exact quotient of two numbers. -/
theorem computes_divide (x y : Expr) : semantics.Computes (α := α) (divide x y) [x, y]
    (fun ρ n => value ρ y ≠ 0 ∧ n * value ρ y = value ρ x) fun _ => True := by
  unfold divide
  split
  · intro G s h s' _ _ hr
    exact absurd hr runs_fail
  · rename_i a b hb ha hb'
    obtain rfl := Handle.eq_const ha
    obtain rfl := Handle.eq_const hb'
    split
    · rename_i hdvd
      refine computes_number _ fun ρ => ?_
      rw [value_const, value_const]
      exact ⟨fun h => hb (h ▸ rfl), Int.ediv_mul_cancel (Int.dvd_of_emod_eq_zero hdvd)⟩
    · intro G s h s' _ _ hr
      exact absurd hr runs_fail
  · intro G s h s' _ _ hr
    exact absurd hr runs_fail

theorem computes_repeatedProduct (base : Expr) (k : ℕ) :
    semantics.Computes (α := α) (repeatedProduct base k) [base] (fun ρ n => n = value ρ base ^ k)
      fun _ => True := by
  induction k with
  | zero => exact computes_number 1 fun ρ => by simp
  | succ k ih =>
    refine ih.bind (fun x => computes_multiply x base) fun ρ x n hx hn => ?_
    rw [hn, pow_succ]
    exact congrArg (· * _) hx

theorem computes_power (base exponent : Expr) :
    semantics.Computes (α := α) (power base exponent) [base, exponent]
      (fun ρ n => ∃ k : ℕ, value ρ exponent = k ∧ n = value ρ base ^ k) fun _ => True := by
  unfold power
  split
  · rename_i b n hb hn
    obtain rfl := Handle.eq_const hb
    obtain rfl := Handle.eq_const hn
    exact computes_number _ fun ρ => ⟨n, by simp, by simp⟩
  · rename_i n hb hn
    obtain rfl := Handle.eq_const hn
    exact ((computes_repeatedProduct base n).of_subset _ (by simp)).mono
      fun ρ m hm => ⟨n, by simp, hm⟩
  · intro G s h s' _ _ hr
    exact absurd hr runs_fail

theorem computes_absolute (x : Expr) : semantics.Computes (α := α) (absolute x) [x]
    (fun ρ n => n = |value ρ x|) fun _ => True := by
  unfold absolute
  split
  · rename_i n hn
    obtain rfl := Handle.eq_const hn
    exact computes_number _ fun ρ => by simp
  · have hnew := computes_newInteger (α := α) [x] "abs" (fun t => (t.boundsOf x).abs)
      (fun r => require (.absolute r x)) (R := fun ρ n => n = |value ρ x|) (fun ρ => |value ρ x|)
      (fun G s ρ hv hargs hc hρ => (boundsOf_contains hv (hargs x (by simp)) hc hρ).abs)
      (fun r => (posts_require _ (by simp [Constraint.handles])).imposes)
      fun G n ρ ρ' hw hargs ha => by rw [value_congr hw (hargs x (by simp)) ha]
    simpa [boundsOf] using hnew

/-! ### Extrema -/

/-- A fold that keeps the better of two numbers ends with one of the numbers that none exceeds. -/
theorem foldl_best {f : ℤ → ℤ → ℤ} (le : ℤ → ℤ → Prop) [IsPreorder ℤ le]
    (hf : ∀ m n, (f m n = m ∨ f m n = n) ∧ le (f m n) m ∧ le (f m n) n) (n : ℤ) (ns : List ℤ) :
    ns.foldl f n ∈ n :: ns ∧ ∀ k ∈ n :: ns, le (ns.foldl f n) k := by
  induction ns generalizing n with
  | nil => simpa using refl_of le n
  | cons m ns ih =>
    obtain ⟨hmem, hle⟩ := ih (f n m)
    obtain ⟨heq, hn, hm⟩ := hf n m
    have hbest := hle _ (List.mem_cons_self ..)
    rw [List.foldl_cons]
    refine ⟨?_, fun k hk => ?_⟩
    · rcases List.mem_cons.mp hmem with h | h
      · rw [h]
        rcases heq with heq | heq <;> simp [heq]
      · simp [h]
    · rcases List.mem_cons.mp hk with rfl | hk
      · exact trans_of le hbest hn
      · rcases List.mem_cons.mp hk with rfl | hk
        · exact trans_of le hbest hm
        · exact hle k (List.mem_cons_of_mem _ hk)

theorem foldl_contains {combine : Bounds → Bounds → Bounds} {f : ℤ → ℤ → ℤ} {g : Expr → Bounds}
    (hcombine : ∀ {a b : Bounds} {m n : ℤ}, a.Contains m → b.Contains n →
      (combine a b).Contains (f m n)) (ha : a.Contains n) {hs : List Expr}
    (hg : ∀ h ∈ hs, (g h).Contains (value ρ h)) :
    ((hs.map g).foldl combine a).Contains ((hs.map (value ρ)).foldl f n) := by
  induction hs generalizing a n with
  | nil => exact ha
  | cons h hs ih => exact ih (hcombine ha (hg h (by simp))) fun k hk => hg k (by simp [hk])

/-- The best of several terms, as a new variable with a constraint. -/
theorem computes_best {f : ℤ → ℤ → ℤ} (le : ℤ → ℤ → Prop) [IsPreorder ℤ le]
    {combine : Bounds → Bounds → Bounds} {c : Expr → Constraint} {hint : String} {x : Expr}
    {xs : List Expr} (hf : ∀ m n, (f m n = m ∨ f m n = n) ∧ le (f m n) m ∧ le (f m n) n)
    (hcombine : ∀ {a b : Bounds} {m n : ℤ}, a.Contains m → b.Contains n →
      (combine a b).Contains (f m n))
    (hhandles : ∀ r, (c r).handles = r :: x :: xs)
    (hholds : ∀ r ρ, (c r).Holds ρ ↔ (∃ h ∈ x :: xs, value ρ r = value ρ h) ∧
      ∀ h ∈ x :: xs, le (value ρ r) (value ρ h)) :
    semantics.Computes (α := α) (do
      let b ← combinedBounds combine x xs
      let result ← newInteger b hint
      require (c result)
      return result) (x :: xs) (fun ρ n => (∃ h ∈ x :: xs, n = value ρ h) ∧
        ∀ h ∈ x :: xs, le n (value ρ h)) fun _ => True := by
  have hbest : ∀ ρ, (∃ h ∈ x :: xs, (xs.map (value ρ)).foldl f (value ρ x) = value ρ h) ∧
      ∀ h ∈ x :: xs, le ((xs.map (value ρ)).foldl f (value ρ x)) (value ρ h) := by
    intro ρ
    obtain ⟨hmem, hle⟩ := foldl_best le hf (value ρ x) (xs.map (value ρ))
    rw [← List.map_cons] at hmem hle
    obtain ⟨h, hh, heq⟩ := List.mem_map.mp hmem
    exact ⟨⟨h, hh, heq.symm⟩, fun k hk => hle _ (List.mem_map_of_mem hk)⟩
  have hnew := computes_newInteger (α := α) (x :: xs) hint
    (fun t => (xs.map t.boundsOf).foldl combine (t.boundsOf x)) (fun r => require (c r))
    (R := fun ρ n => (∃ h ∈ x :: xs, n = value ρ h) ∧ ∀ h ∈ x :: xs, le n (value ρ h))
    (fun ρ => (xs.map (value ρ)).foldl f (value ρ x))
    (fun G s ρ hv hargs hc hρ => foldl_contains hcombine
      (boundsOf_contains hv (hargs x (by simp)) hc hρ)
      fun h hh => boundsOf_contains hv (hargs h (by simp [hh])) hc hρ)
    (fun r => (posts_require _ fun h hh => hhandles r ▸ hh).imposes.mono
      (fun ρ hρ => (hholds r ρ).mp hρ) fun ρ hρ => (hholds r ρ).mpr (hρ ▸ hbest ρ))
    fun G n ρ ρ' hw hargs ha => by
      rw [value_congr hw (hargs x (by simp)) ha, List.map_congr_left fun h hh =>
        value_congr hw (hargs h (by simp [hh])) ha]
  simpa [combinedBounds] using hnew

theorem computes_minimum (hs : List Expr) : semantics.Computes (α := α) (minimum hs) hs
    (fun ρ n => (∃ h ∈ hs, n = value ρ h) ∧ ∀ h ∈ hs, n ≤ value ρ h) fun _ => True := by
  have hmin : ∀ m n : ℤ, (min m n = m ∨ min m n = n) ∧ min m n ≤ m ∧ min m n ≤ n :=
    fun m n => ⟨min_choice m n, min_le_left m n, min_le_right m n⟩
  unfold minimum
  split
  · intro G s h s' _ _ hr
    exact absurd hr runs_fail
  · rename_i n ns _ hns
    obtain rfl := Handle.eq_numbers hns
    obtain ⟨hmem, hle⟩ := foldl_best (· ≤ ·) hmin n ns
    refine computes_number _ fun ρ => ⟨⟨_, List.mem_map_of_mem hmem, by simp⟩, fun h hh => ?_⟩
    obtain ⟨k, hk, rfl⟩ := List.mem_map.mp hh
    simpa using hle k hk
  · rename_i x xs _ _
    exact computes_best (· ≤ ·) hmin .least (fun _ => rfl) fun _ _ => Iff.rfl

theorem computes_maximum (hs : List Expr) : semantics.Computes (α := α) (maximum hs) hs
    (fun ρ n => (∃ h ∈ hs, n = value ρ h) ∧ ∀ h ∈ hs, value ρ h ≤ n) fun _ => True := by
  have hmax : ∀ m n : ℤ, (max m n = m ∨ max m n = n) ∧ m ≤ max m n ∧ n ≤ max m n :=
    fun m n => ⟨max_choice m n, le_max_left m n, le_max_right m n⟩
  unfold maximum
  split
  · intro G s h s' _ _ hr
    exact absurd hr runs_fail
  · rename_i n ns _ hns
    obtain rfl := Handle.eq_numbers hns
    obtain ⟨hmem, hle⟩ := foldl_best (· ≥ ·) hmax n ns
    refine computes_number _ fun ρ => ⟨⟨_, List.mem_map_of_mem hmem, by simp⟩, fun h hh => ?_⟩
    obtain ⟨k, hk, rfl⟩ := List.mem_map.mp hh
    simpa using hle k hk
  · rename_i x xs _ _
    exact computes_best (· ≥ ·) hmax .greatest (fun _ => rfl) fun _ _ => Iff.rfl

/-! ### Constants -/

theorem isNumber_const (n : ℤ) : semantics.IsNumber (.const n) n :=
  ⟨⟨n, rfl⟩, fun ρ => ⟨trivial, value_const (ρ := ρ) n⟩⟩

/-- Integral numbers are taken as they are, and no others. -/
theorem runs_constant? {x : Exact} {o : Option Expr} (hr : (constant? x).Runs s o s') :
    s' = s ∧ (∀ n : ℤ, x = .finite n → o = some (.const n)) ∧
      ∀ h, o = some h → ∃ n : ℤ, x = .finite n ∧ h = .const n := by
  unfold constant? at hr
  rw [Scalar.exact_exact] at hr
  split at hr
  · rename_i q
    split at hr
    · rename_i hq
      obtain ⟨rfl, rfl⟩ := runs_pure.mp hr
      have hnum : (q.num : ℚ) = q := (Rat.den_eq_one_iff q).mp hq
      refine ⟨rfl, fun n hn => ?_, fun h hh => ⟨q.num, by rw [hnum], (Option.some.inj hh).symm⟩⟩
      obtain rfl := Exact.finite.inj hn
      simp
    · rename_i hq
      obtain ⟨rfl, rfl⟩ := runs_pure.mp hr
      refine ⟨rfl, fun n hn => ?_, fun h hh => nomatch hh⟩
      obtain rfl := Exact.finite.inj hn
      exact absurd (Rat.den_intCast n) hq
  · rename_i hne
    obtain ⟨rfl, rfl⟩ := runs_pure.mp hr
    exact ⟨rfl, fun n hn => absurd hn (hne n), fun h hh => nomatch hh⟩

theorem constant?_int {n : ℤ} {o : Option Expr} (hr : (constant? (.finite n : Exact)).Runs s o s') :
    s' = s ∧ ∃ h, o = some h ∧ semantics.IsNumber h n := by
  obtain ⟨rfl, hsome, -⟩ := runs_constant? hr
  exact ⟨rfl, .const n, hsome n rfl, isNumber_const n⟩

theorem constant_int {x : Exact} (hr : (constant x).Runs s h s') :
    s' = s ∧ ∃ n : ℤ, x = .finite n ∧ semantics.IsNumber h n := by
  obtain ⟨o, s₁, ho, hr⟩ := runs_bind.mp hr
  obtain ⟨rfl, -, hint⟩ := runs_constant? ho
  cases o with
  | none => exact absurd hr runs_fail
  | some k =>
    obtain ⟨rfl, rfl⟩ := runs_pure.mp hr
    obtain ⟨n, rfl, rfl⟩ := hint _ rfl
    exact ⟨rfl, n, rfl, isNumber_const n⟩

end DecisionModel.CpSat
