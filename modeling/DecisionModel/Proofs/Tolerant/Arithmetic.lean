import DecisionModel.Proofs.Tolerant.Tables

/-!
# Arithmetic for algebraic solvers

On integral handles sums, differences, products, powers and absolute values are integral and are what
they stand for. `derives_gives` reduces each to what the term has as its value.
-/

namespace DecisionModel.Tolerant

open LowerM

variable {σ : Type} {P : Primitives Exact σ} {G G' : Set Expr} {s s' : TolerantState σ}
  {h k x y : Expr} {args : List Expr} {ρ : HandleId → ℚ}

@[simp] theorem intOf_finite (n : ℤ) : intOf (.finite n) = n := by simp [intOf]

/-- The value of an integral handle. -/
theorem value_eq (hi : (semantics σ).Integral ρ h) :
    value ρ h = .finite ((semantics σ).int ρ h : ℤ) := by
  obtain ⟨n, hn⟩ := hi
  show value ρ h = .finite (intOf (value ρ h) : ℤ)
  rw [hn, intOf_finite]

theorem int_eq {n : ℤ} (hn : value ρ h = .finite n) : (semantics σ).int ρ h = n := by
  show intOf (value ρ h) = n
  rw [hn, intOf_finite]

theorem map_int_eq {hs : List Expr} {ns : List ℤ}
    (h : hs.map (value ρ) = (ns.map Int.cast).map Exact.finite) :
    hs.map ((semantics σ).int ρ) = ns := by
  have hmap := congrArg (List.map intOf) h
  rw [List.map_map, List.map_map, List.map_map] at hmap
  rw [show (semantics σ).int ρ = intOf ∘ value ρ from rfl, hmap]
  conv_rhs => rw [← List.map_id ns]
  exact List.map_congr_left fun n _ => intOf_finite n

theorem held_iff : (semantics σ).Held G s h ↔
    h ∈ G ∧ ∀ ρ, Admitted ρ s → ∃ n : ℤ, value ρ h = .finite n :=
  ⟨fun u => ⟨u.mem, u.integral⟩, fun u => ⟨u.1, u.2⟩⟩

theorem usable_of_held (hh : (semantics σ).Held G s h) : (semantics σ).Usable G s h := ⟨hh, trivial⟩

/-- A handle whose value is known to be an integer. -/
theorem usable_of_value {f : (HandleId → ℚ) → ℤ} (hh : h ∈ G)
    (hvalue : ∀ ρ, Admitted ρ s → value ρ h = .finite (f ρ)) : (semantics σ).Usable G s h ∧
      ∀ ρ, Admitted ρ s → (semantics σ).int ρ h = f ρ :=
  ⟨usable_of_held (held_iff.mpr ⟨hh, fun ρ hρ => ⟨_, hvalue ρ hρ⟩⟩),
    fun ρ hρ => int_eq (hvalue ρ hρ)⟩

theorem usable_number (hv : (semantics σ).Valid G s) {x : Number Exact} {n : ℤ}
    (hx : x.exact = .finite n) : (semantics σ).Usable G s (.const x) :=
  usable_of_held (held_iff.mpr ⟨hv.world.const_mem _, fun _ _ => ⟨n, by rw [value_const, hx]⟩⟩)

theorem isNumber_const {x : Number Exact} {n : ℤ} (hx : x.exact = .finite n) :
    (semantics σ).IsNumber (.const x) n := by
  refine ⟨⟨x, rfl⟩, fun ρ => ⟨⟨n, ?_⟩, int_eq ?_⟩⟩ <;> rw [value_const, hx]

/-- Integral numbers are compared as integers. -/
theorem holds_integral {a c : Number Exact} (k : Comparison)
    (ha : (semantics σ).Integral ρ (.const a)) (hc : (semantics σ).Integral ρ (.const c)) :
    Numeral.holds k a c =
      decide (k.Relates ((semantics σ).int ρ (.const a)) ((semantics σ).int ρ (.const c))) := by
  have ha := value_eq ha
  have hc := value_eq hc
  rw [value_const] at ha hc
  show k.holdsExactly a.exact c.exact = _
  rw [ha, hc]
  exact k.holdsExactly_int _ _

/-- What is derived can be computed. -/
theorem computes_of_derives {m : TolerantM Exact σ Expr} {R : (HandleId → ℚ) → ℤ → Prop}
    (hm : (semantics σ).Derives m args R) : (semantics σ).Computes m args R fun _ => True := by
  intro G s h s' hv hargs hr
  obtain ⟨G', g, u, b, e⟩ := hm hv (fun a ha => (hargs a ha).toHeld) hr
  exact ⟨G', g, usable_of_held u, b, e⟩

/-- A term whose value is an integer wherever its arguments are integers. -/
theorem derives_gives {m : TolerantM Exact σ Expr} (f : (HandleId → ℚ) → ℤ)
    {R : (HandleId → ℚ) → ℤ → Prop} (hR : ∀ ρ, R ρ (f ρ))
    (hm : ∀ ⦃G s h s'⦄, World G s.nextHandle → (∀ a ∈ args, a ∈ G) → m.Runs s h s' →
      Silent.Gives G s h s' fun ρ v =>
        (∀ a ∈ args, value ρ a = .finite ((semantics σ).int ρ a : ℤ)) → v = .finite (f ρ)) :
    (semantics σ).Derives m args R := by
  intro G s h s' hv hargs hr
  obtain ⟨G', hs, hh, hvalue⟩ := hm hv.world (fun a ha => (hargs a ha).mem) hr
  have g := hs.settles hv
  have hfinite : ∀ ρ, Admitted ρ s' → value ρ h = .finite (f ρ) := fun ρ hρ =>
    hvalue ρ fun a ha => value_eq ((hargs a ha).integral ρ (g.admits ρ hρ))
  refine ⟨G', g.toStep, held_iff.mpr ⟨hh, fun ρ hρ => ⟨_, hfinite ρ hρ⟩⟩, fun ρ hρ => ?_, g.extends_⟩
  rw [int_eq (hfinite ρ hρ)]
  exact hR ρ

theorem derives_add (x y : Expr) : (semantics σ).Derives (α := Exact) (LowerM.add x y) [x, y]
    fun ρ n => n = (semantics σ).int ρ x + (semantics σ).int ρ y := by
  refine derives_gives (fun ρ => (semantics σ).int ρ x + (semantics σ).int ρ y) (fun _ => rfl) ?_
  intro G s h s' hw hargs hr
  obtain ⟨G', hs, hh, hvalue⟩ := gives_add hw (hargs x (by simp)) (hargs y (by simp)) hr
  exact ⟨G', hs, hh, fun ρ hint => by
    rw [hvalue, hint x (by simp), hint y (by simp), Exact.finite_add, Int.cast_add]⟩

theorem derives_sub (x y : Expr) : (semantics σ).Derives (α := Exact) (LowerM.sub x y) [x, y]
    fun ρ n => n = (semantics σ).int ρ x - (semantics σ).int ρ y := by
  refine derives_gives (fun ρ => (semantics σ).int ρ x - (semantics σ).int ρ y) (fun _ => rfl) ?_
  intro G s h s' hw hargs hr
  obtain ⟨G', hs, hh, hvalue⟩ := gives_sub hw (hargs x (by simp)) (hargs y (by simp)) hr
  exact ⟨G', hs, hh, fun ρ hint => by
    rw [hvalue, hint x (by simp), hint y (by simp), Exact.finite_sub, Int.cast_sub]⟩

theorem derives_mul (x y : Expr) : (semantics σ).Derives (α := Exact) (LowerM.mul x y) [x, y]
    fun ρ n => n = (semantics σ).int ρ x * (semantics σ).int ρ y := by
  refine derives_gives (fun ρ => (semantics σ).int ρ x * (semantics σ).int ρ y) (fun _ => rfl) ?_
  intro G s h s' hw hargs hr
  obtain ⟨G', hs, hh, hvalue⟩ := gives_mul hw (hargs x (by simp)) (hargs y (by simp)) hr
  exact ⟨G', hs, hh, fun ρ hint => by
    rw [hvalue, hint x (by simp), hint y (by simp), Exact.finite_mul, Int.cast_mul]⟩

theorem derives_neg (x : Expr) : (semantics σ).Derives (α := Exact) (LowerM.neg x) [x]
    fun ρ n => n = -(semantics σ).int ρ x := by
  refine derives_gives (fun ρ => -(semantics σ).int ρ x) (fun _ => rfl) ?_
  intro G s h s' hw hargs hr
  obtain ⟨G', hs, hh, hvalue⟩ := gives_neg hw (hargs x (by simp)) hr
  exact ⟨G', hs, hh, fun ρ hint => by
    rw [hvalue, hint x (by simp), Exact.finite_neg, Int.cast_neg]⟩

/-- A product with an integer. -/
theorem derives_mul_int (x : Expr) (k : ℤ) :
    (semantics σ).Derives (α := Exact) (LowerM.mul x (.const (Numeral.ofInt k))) [x]
      fun ρ n => n = (semantics σ).int ρ x * k := by
  intro G s h s' hv hargs hr
  have hk : (Numeral.ofInt k : Number Exact).exact = .finite k := rfl
  obtain ⟨G', g, u, b, e⟩ := derives_mul x (.const (Numeral.ofInt k)) hv (by
    simpa using ⟨hargs x (by simp), (usable_number hv hk).toHeld⟩) hr
  have hvalue : ∀ ρ, (semantics σ).int ρ (.const (Numeral.ofInt k)) = k := fun ρ =>
    int_eq (by rw [value_const, hk])
  exact ⟨G', g, u, fun ρ hρ => (b ρ hρ).trans (by rw [hvalue]), e⟩

/-! ### Absolute values and powers -/

theorem computes_absolute (hP : Documented P) (x : Expr) :
    (semantics σ).Computes (absolute P x) [x] (fun ρ n => n = |(semantics σ).int ρ x|)
      fun _ => True := by
  refine computes_of_derives (derives_gives (fun ρ => |(semantics σ).int ρ x|) (fun _ => rfl) ?_)
  intro G s h s' hw hargs hr
  unfold absolute at hr
  split at hr
  · rename_i a ha
    obtain rfl := Handle.eq_const ha
    obtain ⟨rfl, rfl⟩ := runs_pure.mp hr
    refine ⟨G, silent_refl hw, hw.const_mem _, fun ρ hint => ?_⟩
    have ha := hint _ (List.mem_singleton_self _)
    rw [value_const] at ha
    simp only [scalar, value_const, exact_real, toScalar_eq]
    rw [ha, Scalar.abs_exact, Exact.finite_abs, Int.cast_abs]
  · obtain ⟨G', hs, hh, hvalue⟩ := hP.absolute hw (hargs x (by simp)) hr
    exact ⟨G', hs, hh, fun ρ hint => by
      rw [hvalue ρ _ (hint x (by simp)), Int.cast_abs]⟩

/-- Powers whose exponent is a natural number. -/
theorem computes_power (hP : Documented P) (x y : Expr) (hy : ∃ n : ℕ, (semantics σ).IsNumber y n) :
    (semantics σ).Computes (power P x y) [x, y]
      (fun ρ n => ∃ k : ℕ, (semantics σ).int ρ y = k ∧ n = (semantics σ).int ρ x ^ k)
      fun _ => True := by
  obtain ⟨n, ⟨e, rfl⟩, hn⟩ := hy
  have he : e.exact = .finite (n : ℤ) := by
    have h := value_eq (hn fun _ => 0).1
    rwa [value_const, (hn _).2] at h
  refine computes_of_derives (derives_gives (fun ρ => (semantics σ).int ρ x ^ n)
    (fun ρ => ⟨n, (hn ρ).2, rfl⟩) ?_)
  intro G s h s' hw hargs hr
  unfold power at hr
  split at hr
  · rename_i hnone
    cases hnone
  · rename_i a b ha hb
    obtain rfl := Handle.eq_const ha
    obtain rfl : e = b := by simpa [Handle.number?] using hb
    split at hr
    · rename_i z hz
      obtain ⟨rfl, rfl⟩ := runs_pure.mp hr
      refine ⟨G, silent_refl hw, hw.const_mem _, fun ρ hint => ?_⟩
      have ha := hint (.const a) (by simp)
      rw [value_const] at ha
      rw [toScalar_eq, toScalar_eq, ha, he, Scalar.power_exact, Exact.power_int] at hz
      rw [scalar, value_const, exact_real, ← Except.ok.inj hz]
    · exact absurd hr runs_fail
  · rename_i b ha hb
    obtain rfl : e = b := by simpa [Handle.number?] using hb
    have hcases : ∀ k : ℤ, e.exact = .finite k ↔ (n : ℤ) = k := fun k => by
      rw [he]
      simp only [Exact.finite.injEq, Int.cast_inj]
    split at hr
    · rename_i hzero
      obtain ⟨rfl, rfl⟩ := runs_pure.mp hr
      obtain rfl : n = 0 := by simpa using (hcases 0).mp (by simpa using isZero_iff.mp hzero)
      refine ⟨G, silent_refl hw, hw.const_mem _, fun ρ _ => ?_⟩
      simp [one, scalar]
    · rename_i hzero
      split at hr
      · rename_i hone
        obtain ⟨rfl, rfl⟩ := runs_pure.mp hr
        obtain rfl : n = 1 := by
          simpa [Numeral.holds, he, Comparison.holdsExactly] using hone
        exact ⟨G, silent_refl hw, hargs x (by simp), fun ρ hint => by rw [hint x (by simp), pow_one]⟩
      · rename_i hone
        have htwo : 2 ≤ n := by
          have h0 : n ≠ 0 := by
            rintro rfl
            exact hzero (isZero_iff.mpr (by simpa using he))
          have h1 : n ≠ 1 := by
            rintro rfl
            exact hone (by simp [Numeral.holds, he, Comparison.holdsExactly])
          omega
        rw [toScalar_eq, he, Int.cast_natCast] at hr
        obtain ⟨G', hs, hh, hvalue⟩ := hP.power hw (hargs x (by simp)) htwo hr
        exact ⟨G', hs, hh, fun ρ hint => by
          rw [hvalue ρ _ (hint x (by simp)), Int.cast_pow]⟩

/-! ### Sums -/

theorem computes_total (hP : Documented P) (hs : List Expr) :
    (semantics σ).Computes (P.total hs) hs (fun ρ n => n = (hs.map ((semantics σ).int ρ)).sum)
      fun _ => True := by
  refine computes_of_derives (derives_gives (fun ρ => (hs.map ((semantics σ).int ρ)).sum)
    (fun _ => rfl) ?_)
  intro G s h s' hw hargs hr
  obtain ⟨G', hs, hh, hvalue⟩ := hP.total hw hargs hr
  refine ⟨G', hs, hh, fun ρ hint => ?_⟩
  rw [hvalue ρ ((_ : List ℤ).map Int.cast) ?_, Int.cast_list_sum]
  rw [List.map_map, List.map_map]
  exact List.map_congr_left hint

end DecisionModel.Tolerant
