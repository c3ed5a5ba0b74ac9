import Mathlib.Data.Rat.Floor
import Mathlib.Algebra.BigOperators.Ring.Finset
import Mathlib.Tactic.Ring
import DecisionModel.Number.Mixed
import DecisionModel.Number.Sum

/-!
# Integers among exact numbers

On integers the arithmetic of `Exact` is that of `ℤ`: comparisons decide the order of the integers
(`holdsExactly_int`), rounding does nothing (`round_int`), and a sum of scalars, which keeps its
parts separately so that it rounds once, is the sum (`sum_finite`).
-/

namespace DecisionModel

namespace Comparison

/-- The comparison holds of two integers. -/
def Relates : Comparison → ℤ → ℤ → Prop
  | lt, m, n => m < n
  | le, m, n => m ≤ n
  | gt, m, n => n < m
  | ge, m, n => n ≤ m
  | eq, m, n => m = n
  | ne, m, n => m ≠ n

instance (c : Comparison) (m n : ℤ) : Decidable (c.Relates m n) := by
  cases c <;> unfold Relates <;> infer_instance

@[simp] theorem relates_negate (c : Comparison) (m n : ℤ) :
    c.negate.Relates m n ↔ ¬ c.Relates m n := by
  cases c <;> simp [negate, Relates]

@[simp] theorem relates_swap (c : Comparison) (m n : ℤ) : c.swap.Relates m n ↔ c.Relates n m := by
  cases c <;> simp [swap, Relates, eq_comm]

theorem holdsExactly_int (c : Comparison) (m n : ℤ) :
    c.holdsExactly (.finite m) (.finite n) = decide (c.Relates m n) := by
  rw [Bool.eq_iff_iff, decide_eq_true_iff]
  cases c <;> simp [holdsExactly, Relates, Exact.lt, Exact.le, Exact.eq, le_iff_lt_or_eq]

theorem holds_int (c : Comparison) (m n : ℤ) :
    c.holds (Exact.finite m) (.finite n) = decide (c.Relates m n) := c.holdsExactly_int m n

end Comparison

/-- One if the statement holds and zero if not. -/
def indicator (p : Prop) [Decidable p] : ℤ := if p then 1 else 0

section

variable {p : Prop} [Decidable p]

@[simp] theorem indicator_eq_zero : indicator p = 0 ↔ ¬ p := by
  unfold indicator; split <;> simp [*]

@[simp] theorem indicator_eq_one : indicator p = 1 ↔ p := by
  unfold indicator; split <;> simp [*]

theorem indicator_cases : indicator p = 0 ∨ indicator p = 1 := by
  unfold indicator; split <;> simp

theorem indicator_congr {q : Prop} [Decidable q] (h : p ↔ q) : indicator p = indicator q := by
  simp only [indicator, h]

theorem indicator_not : indicator (¬ p) = 1 - indicator p := by
  unfold indicator; split <;> simp_all

end

/-- A number that is zero or one is the indicator of its being one. -/
theorem eq_indicator {n : ℤ} (h : n = 0 ∨ n = 1) : n = indicator (n = 1) := by
  rcases h with rfl | rfl <;> simp [indicator]

theorem roundHalfEven_int (n : ℤ) : roundHalfEven n = n := by
  simp [roundHalfEven]

/-- A power with an exponent of either sign, as it is computed. -/
theorem mkRat_pow (b : ℕ) (e : ℤ) :
    (if 0 ≤ e then mkRat (Nat.pow b e.toNat) 1 else mkRat 1 (Nat.pow b (-e).toNat)) = (b : ℚ) ^ e := by
  have hpow : ∀ n : ℕ, ((Nat.pow b n : ℕ) : ℚ) = b ^ n := fun n => Nat.cast_pow b n
  split
  · rename_i h
    obtain ⟨n, rfl⟩ := Int.eq_ofNat_of_zero_le h
    rw [Rat.mkRat_one, zpow_natCast, ← hpow n, Int.toNat_natCast]
    rfl
  · rename_i h
    obtain ⟨n, hn⟩ := Int.eq_ofNat_of_zero_le (by omega : 0 ≤ -e)
    obtain rfl : e = -n := by omega
    rw [Rat.mkRat_eq_div, neg_neg, Int.toNat_natCast, zpow_neg, zpow_natCast, ← hpow n]
    simp

namespace Exact

@[simp] theorem round_int (n : ℤ) : (finite n).round = .ok n :=
  congrArg Except.ok (roundHalfEven_int n)

@[simp] theorem ceil_int (n : ℤ) : (finite n).ceil = .ok n := by simp [ceil, toIntBy]

@[simp] theorem floor_int (n : ℤ) : (finite n).floor = .ok n := by simp [floor, toIntBy]

theorem ceil_le_iff {x : Exact} {m k : ℤ} (h : x.ceil = .ok m) :
    m ≤ k ↔ x.le (.finite k) = true := by
  cases x <;> simp only [ceil, toIntBy, Except.ok.injEq, reduceCtorEq] at h
  subst h
  rw [Rat.ceil_le_iff]
  simp [le, lt, eq, le_iff_lt_or_eq]

theorem le_floor_iff {x : Exact} {m k : ℤ} (h : x.floor = .ok m) :
    k ≤ m ↔ (Exact.finite k).le x = true := by
  cases x <;> simp only [floor, toIntBy, Except.ok.injEq, reduceCtorEq] at h
  subst h
  rw [Rat.le_floor_iff]
  simp [le, lt, eq, le_iff_lt_or_eq]

@[simp] theorem finite_eq (p q : ℚ) : (finite p).eq (finite q) = decide (p = q) := rfl

@[simp] theorem finite_lt (p q : ℚ) : (finite p).lt (finite q) = decide (p < q) := rfl

@[simp] theorem finite_le (p q : ℚ) : (finite p).le (finite q) = decide (p ≤ q) := by
  simp [le, le_iff_lt_or_eq]

@[simp] theorem finite_add (p q : ℚ) : (finite p).add (finite q) = finite (p + q) := rfl

@[simp] theorem finite_sub (p q : ℚ) : (finite p).sub (finite q) = finite (p - q) := by
  simp [sub, neg, sub_eq_add_neg]

@[simp] theorem finite_mul (p q : ℚ) : (finite p).mul (finite q) = finite (p * q) := rfl

@[simp] theorem finite_neg (p : ℚ) : (finite p).neg = finite (-p) := rfl

@[simp] theorem finite_abs (p : ℚ) : (finite p).abs = finite |p| := by
  rcases le_total 0 p with h | h
  · simp [abs, Rat.abs_of_nonneg h, abs_of_nonneg h]
  · simp [abs, Rat.abs_of_nonpos h, abs_of_nonpos h]

/-- A quotient of integers is the integer that gives the dividend back. -/
theorem div_int {a b n : ℤ} (hb : b ≠ 0) : (finite a).div (finite b) = finite n ↔ n * b = a := by
  have hb' : (b : ℚ) ≠ 0 := by exact_mod_cast hb
  rw [div, if_neg hb', finite.injEq, div_eq_iff hb', eq_comm]
  norm_cast

theorem power_nat (q : ℚ) (k : ℕ) : (finite q).power (finite k) = .ok (finite (q ^ k)) := by
  have hneg : ¬ (k : ℚ) < 0 := not_lt.mpr k.cast_nonneg
  simp only [power, Rat.den_natCast, Rat.num_natCast, hneg, and_false, if_true, if_false]
  rfl

theorem power_int (b : ℤ) (k : ℕ) :
    (finite b).power (finite (k : ℤ)) = .ok (finite (b ^ k : ℤ)) := by
  rw [Int.cast_natCast, power_nat, Int.cast_pow]

theorem le_of_lt_of_le {x y z : Exact} (h : x.lt y = true) (h' : y.le z = true) : x.le z = true := by
  cases x <;> cases y <;> cases z <;> simp_all [lt, le, eq]
  rcases h' with h' | rfl
  · exact .inl (lt_trans h h')
  · exact .inl h

theorem le_of_le_of_lt {x y z : Exact} (h : x.le y = true) (h' : y.lt z = true) : x.le z = true := by
  cases x <;> cases y <;> cases z <;> simp_all [lt, le, eq]
  rcases h with h | rfl
  · exact .inl (lt_trans h h')
  · exact .inl h'

theorem le_trans {x y z : Exact} (h : x.le y = true) (h' : y.le z = true) : x.le z = true := by
  rcases Bool.or_eq_true _ _ ▸ h with h | h
  · exact le_of_lt_of_le h h'
  · cases x <;> cases y <;> simp_all [eq]

/-- The order is total on numbers. -/
theorem le_of_not_lt {x y z : Exact} (hx : x ≠ nan) (h : y.lt x = false) (h' : y.le z = true) :
    x.le z = true := by
  cases x <;> cases y <;> cases z <;> simp_all [lt, le, eq]
  rcases h' with h' | rfl
  · exact .inl (lt_of_le_of_lt h h')
  · exact (lt_or_eq_of_le h)

theorem le_of_not_gt {x y z : Exact} (hx : x ≠ nan) (h : x.lt y = false) (h' : z.le y = true) :
    z.le x = true := by
  cases x <;> cases y <;> cases z <;> simp_all [lt, le, eq]
  rcases h' with h' | rfl
  · exact .inl (lt_of_lt_of_le h' h)
  · exact (lt_or_eq_of_le h)

/-- The number is an integer. -/
def IsInt (x : Exact) : Prop := ∃ n : ℤ, x = finite n

end Exact

namespace Scalar

/-! The operations of scalars are those of exact numbers. -/

@[simp] theorem exact_exact (x : Exact) : Scalar.exact x = x := rfl

@[simp] theorem nearest_exact (q : ℚ) : (Scalar.nearest q : Exact) = .finite q := rfl

@[simp] theorem posInf_exact : (Scalar.posInf : Exact) = .posInf := rfl

@[simp] theorem negInf_exact : (Scalar.negInf : Exact) = .negInf := rfl

@[simp] theorem neg_exact (x : Exact) : Scalar.neg x = x.neg := rfl

@[simp] theorem abs_exact (x : Exact) : Scalar.abs x = x.abs := rfl

@[simp] theorem add_exact (x y : Exact) : Scalar.add x y = x.add y := rfl

@[simp] theorem sub_exact (x y : Exact) : Scalar.sub x y = x.sub y := rfl

@[simp] theorem mul_exact (x y : Exact) : Scalar.mul x y = x.mul y := rfl

@[simp] theorem div_exact (x y : Exact) : Scalar.div x y = x.div y := rfl

@[simp] theorem power_exact (x y : Exact) : Scalar.power x y = x.power y := rfl

@[simp] theorem ofInt_exact (n : ℤ) : (Scalar.ofInt n : Exact) = .finite n := rfl

@[simp] theorem zero_exact : (Scalar.zero : Exact) = .finite 0 := rfl

@[simp] theorem one_exact : (Scalar.one : Exact) = .finite 1 := rfl

@[simp] theorem eq_exact (x y : Exact) : Scalar.eq x y = x.eq y := rfl

@[simp] theorem lt_exact (x y : Exact) : Scalar.lt x y = x.lt y := rfl

@[simp] theorem isZero_finite (q : ℚ) : Scalar.isZero (Exact.finite q) = decide (q = 0) := rfl

theorem isZero_int (n : ℤ) : Scalar.isZero (Exact.finite n) = decide (n = 0) := by simp

@[simp] theorem isFinite_finite (q : ℚ) : Scalar.isFinite (Exact.finite q) = true := rfl

theorem ofBool_exact (b : Bool) : (Scalar.ofBool b : Exact) = .finite (if b then 1 else 0) := by
  cases b <;> rfl

theorem ofBool_indicator (p : Prop) [Decidable p] :
    (Scalar.ofBool (decide p) : Exact) = .finite (indicator p : ℤ) := by
  by_cases h : p <;> simp [ofBool_exact, indicator, h]

theorem isInt_ofBool (b : Bool) : (Scalar.ofBool b : Exact).IsInt :=
  ⟨if b then 1 else 0, by cases b <;> simp [ofBool_exact]⟩

/-- A conversion of an integer never leaves the finite range. -/
@[simp] theorem ofInt?_exact (n : ℤ) : (Scalar.ofInt? n : Except Fault Exact) = .ok (.finite n) := rfl

end Scalar

/-! ### Extrema -/

namespace Scalar

theorem least_nan (xs : List Exact) : Scalar.least .nan xs = .nan := by
  induction xs with
  | nil => rfl
  | cons y ys ih => rw [Scalar.least, List.foldl_cons]; cases y <;> exact ih

theorem greatest_nan (xs : List Exact) : Scalar.greatest .nan xs = .nan := by
  induction xs with
  | nil => rfl
  | cons y ys ih => rw [Scalar.greatest, List.foldl_cons]; cases y <;> exact ih

/-- The least of several numbers is not above a number that one of them is not above. -/
theorem least_le {x : Exact} {xs : List Exact} {k : Exact} (hx : Scalar.least x xs ≠ .nan)
    (h : ∃ y ∈ x :: xs, y.le k = true) : (Scalar.least x xs).le k = true := by
  induction xs generalizing x with
  | nil => simpa [Scalar.least] using h
  | cons z zs ih =>
    have hx0 : x ≠ .nan := by
      rintro rfl
      exact hx (least_nan _)
    rw [Scalar.least, List.foldl_cons] at hx ⊢
    refine ih hx ?_
    obtain ⟨y, hy, hle⟩ := h
    cases hzx : Scalar.lt z x
    · rcases List.mem_cons.mp hy with rfl | hy
      · exact ⟨y, by simp, hle⟩
      · rcases List.mem_cons.mp hy with rfl | hy
        · exact ⟨x, by simp, Exact.le_of_not_lt hx0 hzx hle⟩
        · exact ⟨y, by simp [hy], hle⟩
    · rcases List.mem_cons.mp hy with rfl | hy
      · exact ⟨z, by simp, Exact.le_of_lt_of_le hzx hle⟩
      · exact ⟨y, by simpa using hy, hle⟩

/-- The greatest of several numbers is not below a number that one of them is not below. -/
theorem le_greatest {x : Exact} {xs : List Exact} {k : Exact} (hx : Scalar.greatest x xs ≠ .nan)
    (h : ∃ y ∈ x :: xs, k.le y = true) : k.le (Scalar.greatest x xs) = true := by
  induction xs generalizing x with
  | nil => simpa [Scalar.greatest] using h
  | cons z zs ih =>
    have hx0 : x ≠ .nan := by
      rintro rfl
      exact hx (greatest_nan _)
    rw [Scalar.greatest, List.foldl_cons] at hx ⊢
    refine ih hx ?_
    obtain ⟨y, hy, hle⟩ := h
    cases hzx : Scalar.lt x z
    · rcases List.mem_cons.mp hy with rfl | hy
      · exact ⟨y, by simp, hle⟩
      · rcases List.mem_cons.mp hy with rfl | hy
        · exact ⟨x, by simp, Exact.le_of_not_gt hx0 hzx hle⟩
        · exact ⟨y, by simp [hy], hle⟩
    · rcases List.mem_cons.mp hy with rfl | hy
      · exact ⟨z, by simp, Exact.le_of_le_of_lt hle hzx⟩
      · exact ⟨y, by simpa using hy, hle⟩

/-- Keeping the better of two integers keeps one that none exceeds. -/
theorem foldl_int (better : Exact → Exact → Bool) (le : ℤ → ℤ → Prop)
    (hrefl : ∀ a, le a a) (htrans : ∀ a b c, le a b → le b c → le a c)
    (htrue : ∀ a b : ℤ, better (.finite b) (.finite a) = true → le b a)
    (hfalse : ∀ a b : ℤ, better (.finite b) (.finite a) = false → le a b) (n : ℤ) (ns : List ℤ) :
    ∃ k : ℤ, (ns.map fun n : ℤ => Exact.finite n).foldl (fun a b => if better b a then b else a)
      (.finite n) = .finite k ∧ k ∈ n :: ns ∧ ∀ a ∈ n :: ns, le k a := by
  induction ns generalizing n with
  | nil => exact ⟨n, rfl, by simp, by simpa using hrefl n⟩
  | cons b ns ih =>
    rw [List.map_cons, List.foldl_cons]
    cases hb : better (.finite b) (.finite n)
    · obtain ⟨k, hk, hm, hle⟩ := ih n
      refine ⟨k, by simpa using hk, ?_, ?_⟩
      · rcases List.mem_cons.mp hm with rfl | hm <;> simp [*]
      · intro a ha
        rcases List.mem_cons.mp ha with rfl | ha
        · exact hle _ (by simp)
        · rcases List.mem_cons.mp ha with rfl | ha
          · exact htrans _ _ _ (hle n (by simp)) (hfalse _ _ hb)
          · exact hle a (by simp [ha])
    · obtain ⟨k, hk, hm, hle⟩ := ih b
      refine ⟨k, by simpa using hk, by simp [hm], ?_⟩
      intro a ha
      rcases List.mem_cons.mp ha with rfl | ha
      · exact htrans _ _ _ (hle b (by simp)) (htrue _ _ hb)
      · exact hle a ha

theorem least_int (n : ℤ) (ns : List ℤ) : ∃ k : ℤ,
    Scalar.least (Exact.finite n) (ns.map fun n : ℤ => Exact.finite n) = .finite k ∧
      k ∈ n :: ns ∧ ∀ a ∈ n :: ns, k ≤ a :=
  foldl_int Exact.lt (· ≤ ·) le_refl (fun _ _ _ => le_trans)
    (by simp; omega) (by simp) n ns

theorem greatest_int (n : ℤ) (ns : List ℤ) : ∃ k : ℤ,
    Scalar.greatest (Exact.finite n) (ns.map fun n : ℤ => Exact.finite n) = .finite k ∧
      k ∈ n :: ns ∧ ∀ a ∈ n :: ns, a ≤ k :=
  foldl_int (fun b a => Exact.lt a b) (· ≥ ·) le_refl
    (fun _ _ _ h₁ h₂ => le_trans h₂ h₁) (by simp; omega) (by simp) n ns

end Scalar

/-! ### Sums -/

namespace RunningSum

/-- The parts of an exact sum: none for zero, else the sum itself. -/
def exactParts (q : ℚ) : List Exact := if q = 0 then [] else [.finite q]

theorem addExactly_finite (p q : ℚ) :
    addExactly (Exact.finite p) (.finite q) = (.finite (p + q), .finite 0) := by
  by_cases h : Scalar.lt (Scalar.abs (Exact.finite p)) (Scalar.abs (Exact.finite q)) = true
  · simp only [addExactly, if_pos h]
    simp [add_comm]
  · simp only [addExactly, if_neg h]
    simp

theorem absorb_exactParts (p q : ℚ) :
    absorb (Exact.finite p) (exactParts q) = ([], .finite (p + q)) := by
  unfold exactParts
  split
  · simp [absorb, *]
  · simp [absorb, addExactly_finite]

theorem step_exactParts (p q : ℚ) :
    step ({ parts := exactParts q } : RunningSum Exact) (.finite p) =
      .ok { parts := exactParts (p + q) } := by
  simp only [step, Scalar.exact_exact, absorb_exactParts, Scalar.isFinite_finite]
  by_cases h : p + q = 0 <;> simp [h, exactParts]

theorem result_exactParts (q : ℚ) :
    result ({ parts := exactParts q } : RunningSum Exact) = .ok (.finite q) := by
  by_cases h : q = 0 <;> simp [result, total, exactParts, h]

end RunningSum

theorem Scalar.sum_finite (qs : List ℚ) :
    Scalar.sum (qs.map Exact.finite) = .ok (.finite qs.sum) := by
  suffices h : ∀ q : ℚ, (qs.map Exact.finite).foldlM RunningSum.step
      { parts := RunningSum.exactParts q } = Except.ok { parts := RunningSum.exactParts (q + qs.sum) } by
    have h₀ := h 0
    rw [zero_add] at h₀
    change ((qs.map Exact.finite).foldlM RunningSum.step { parts := RunningSum.exactParts 0 } >>=
      RunningSum.result) = _
    rw [h₀]
    exact RunningSum.result_exactParts qs.sum
  induction qs with
  | nil => intro q; simp [pure, Except.pure]
  | cons p qs ih =>
    intro q
    simp only [List.map_cons, List.foldlM_cons, RunningSum.step_exactParts, List.sum_cons]
    change List.foldlM RunningSum.step _ _ = _
    rw [ih]
    congr 3
    ring

theorem Scalar.sum_int (ns : List ℤ) :
    Scalar.sum (ns.map fun n : ℤ => Exact.finite n) = .ok (.finite (ns.sum : ℤ)) := by
  have h := Scalar.sum_finite (ns.map fun n : ℤ => (n : ℚ))
  rw [List.map_map] at h
  rw [Int.cast_list_sum]
  exact h

end DecisionModel
