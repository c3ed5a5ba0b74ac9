import Mathlib.Tactic.Linarith
import DecisionModel.Number.Mixed
import DecisionModel.Proofs.Number.Integral

/-!
# Rounding to decimal places

Rounding to the nearest integer with ties to even is a relation that has exactly one solution
(`isNearest_iff`), and so is rounding to decimal places, which is the same on a grid of powers of ten
(`Decimal.rounds_iff`). `Number.RoundsTo` says what that makes of a number handed over by a solver:
integers are rounded as integers and converted afterwards, and a scalar is the one nearest to its
rounded value, except where there are more places than a double has, or none that it has.
-/

namespace DecisionModel

/-! ### The nearest integer -/

/-- The integer is nearest to the number, and even if another one is as near. -/
structure IsNearest (q : ℚ) (n : ℤ) : Prop where
  near : |q - n| ≤ 1 / 2
  even : |q - n| = 1 / 2 → n % 2 = 0

theorem isNearest_roundHalfEven (q : ℚ) : IsNearest q (roundHalfEven q) := by
  have hlow : (q.floor : ℚ) ≤ q := Rat.floor_le q
  have hhigh : q < q.floor + 1 := by exact_mod_cast Rat.lt_floor_add_one q
  have hnear : ∀ n : ℤ, (n = q.floor ∧ q - q.floor ≤ 1 / 2 ∨ n = q.floor + 1 ∧ 1 / 2 ≤ q - q.floor) →
      |q - n| ≤ 1 / 2 := by
    rintro n (⟨rfl, h⟩ | ⟨rfl, h⟩) <;> push_cast <;> rw [abs_le] <;> constructor <;> linarith
  unfold roundHalfEven
  dsimp only
  split
  · rename_i h
    refine ⟨hnear _ (.inl ⟨rfl, h.le⟩), fun htie => ?_⟩
    rw [abs_of_nonneg (sub_nonneg.mpr hlow)] at htie
    exact absurd htie h.ne
  · split
    · rename_i h
      refine ⟨hnear _ (.inr ⟨rfl, h.le⟩), fun htie => ?_⟩
      push_cast at htie
      rw [abs_of_nonpos (by linarith)] at htie
      linarith
    · have htie : q - q.floor = 1 / 2 := by linarith
      split
      · rename_i heven
        exact ⟨hnear _ (.inl ⟨rfl, htie.le⟩), fun _ => heven⟩
      · exact ⟨hnear _ (.inr ⟨rfl, htie.ge⟩), fun _ => by omega⟩

/-- Two integers that are nearest to a number differ by one at most, and then neither is odd. -/
theorem IsNearest.unique {q : ℚ} {m n : ℤ} (hm : IsNearest q m) (hn : IsNearest q n) : m = n := by
  wlog h : m ≤ n generalizing m n
  · exact (this hn hm (by omega)).symm
  have hm' := abs_le.mp hm.near
  have hn' := abs_le.mp hn.near
  have hle : (n : ℚ) ≤ m + 1 := by linarith
  have hle : n ≤ m + 1 := by exact_mod_cast hle
  by_contra hne
  obtain rfl : n = m + 1 := by omega
  push_cast at hn'
  have htie : q - m = 1 / 2 := by linarith
  have hmeven := hm.even (by rw [htie]; norm_num)
  have hneven := hn.even (by push_cast; rw [show q - (m + 1) = -(1 / 2) by linarith]; norm_num)
  omega

theorem isNearest_iff {q : ℚ} {n : ℤ} : IsNearest q n ↔ n = roundHalfEven q :=
  ⟨fun h => h.unique (isNearest_roundHalfEven q), by rintro rfl; exact isNearest_roundHalfEven q⟩

/-! ### Decimal places -/

namespace Decimal

theorem tenPow_eq (e : ℤ) : tenPow e = (10 : ℚ) ^ e := mkRat_pow 10 e

/-- The second number is the first one to so many decimal places; negative places are tens, hundreds
and so on. -/
def Rounds (places : ℤ) (q r : ℚ) : Prop := ∃ n : ℤ, IsNearest (q * 10 ^ places) n ∧ r = n / 10 ^ places

theorem rounds_iff {places : ℤ} {q r : ℚ} :
    Rounds places q r ↔ r = roundHalfEven (q * tenPow places) * tenPow (-places) := by
  simp only [Rounds, isNearest_iff, exists_eq_left, tenPow_eq, zpow_neg, div_eq_mul_inv]

theorem Rounds.unique {places : ℤ} {q r r' : ℚ} (h : Rounds places q r) (h' : Rounds places q r') :
    r = r' :=
  (rounds_iff.mp h).trans (rounds_iff.mp h').symm

end Decimal

namespace Number

/-- An integer to decimal places is an integer. -/
theorem rounds_roundInteger (places n : ℤ) : Decimal.Rounds places n (roundInteger places n) := by
  rw [Decimal.rounds_iff]
  unfold roundInteger
  split
  · rename_i h
    have hunit : ((Nat.pow 10 (-places).toNat : ℕ) : ℚ) = 10 ^ (-places) := by
      rw [← Int.toNat_of_nonneg (by omega : 0 ≤ -places), zpow_natCast, Int.toNat_natCast]
      exact Nat.cast_pow 10 _
    have hquotient : mkRat n (Nat.pow 10 (-places).toNat) = n * 10 ^ places := by
      rw [Rat.mkRat_eq_div, hunit, zpow_neg, div_inv_eq_mul]
    dsimp only
    rw [hquotient, Decimal.tenPow_eq, Decimal.tenPow_eq]
    push_cast
    rw [← hunit]
  · rename_i h
    obtain ⟨k, rfl⟩ := Int.eq_ofNat_of_zero_le (by omega : 0 ≤ places)
    have hgrid : (n : ℚ) * 10 ^ (k : ℤ) = (n * 10 ^ k : ℤ) := by push_cast; rw [zpow_natCast]
    rw [Decimal.tenPow_eq, Decimal.tenPow_eq, hgrid, roundHalfEven_int, ← hgrid, mul_assoc,
      ← zpow_add₀ (by norm_num)]
    simp

/-! ### Numbers as scalars -/

variable {α : Type} [Scalar α]

/-- The scalar is the number converted: an integer to the nearest one, unless that is infinite. -/
inductive Converts : Number α → α → Prop
  | int {n : ℤ} : Scalar.isFinite (Scalar.nearest n : α) → Converts (.int n) (Scalar.nearest n)
  | real (x : α) : Converts (.real x) x
  | truth (b : Bool) : Converts (.truth b) (Scalar.nearest (if b then 1 else 0))

/-- The conversion of an integer gives what it should, or fails. -/
theorem ofInt?_eq_ok {n : ℤ} {y : α} : Scalar.ofInt? n = .ok y ↔ Converts (.int n) y := by
  unfold Scalar.ofInt? Scalar.ofInt
  dsimp only
  constructor
  · intro h
    split at h
    · rename_i hfinite
      cases h
      exact .int hfinite
    · cases h
  · rintro ⟨hfinite⟩
    rw [if_pos hfinite]

theorem toScalar?_eq_ok {x : Number α} {y : α} : x.toScalar? = .ok y ↔ x.Converts y := by
  cases x with
  | int n => exact ofInt?_eq_ok
  | real x =>
    constructor
    · rintro ⟨⟩
      exact .real _
    · rintro ⟨⟩
      rfl
  | truth b =>
    have hbool : (Scalar.ofBool b : α) = Scalar.nearest (if b then 1 else 0) := by cases b <;> rfl
    constructor
    · rintro ⟨⟩
      rw [hbool]
      exact .truth b
    · rintro ⟨⟩
      rw [← hbool]
      rfl

/-- The scalar is the number to so many decimal places. No double changes if it is rounded to more than
323 places, and each becomes zero at less than -308. -/
inductive RoundsTo (places : ℤ) : Number α → α → Prop
  /-- An integer is rounded before it is converted. -/
  | integer {n r : ℤ} {y : α} : Decimal.Rounds places n r → Converts (.int r) y →
    RoundsTo places (.int n) y
  | truth {b : Bool} {y : α} : RoundsTo places (.int (if b then 1 else 0)) y →
    RoundsTo places (.truth b) y
  | decimal {x : α} {q r : ℚ} : Scalar.exact x = .finite q → -308 ≤ places → places ≤ 323 →
    Decimal.Rounds places q r → Scalar.isFinite (Scalar.nearest r : α) →
    RoundsTo places (.real x) (Scalar.nearest r)
  /-- All places are kept. -/
  | fine {x : α} {q : ℚ} : Scalar.exact x = .finite q → q ≠ 0 → 323 < places →
    RoundsTo places (.real x) x
  /-- A zero loses its sign. -/
  | zero {x : α} : Scalar.exact x = .finite 0 → 323 < places →
    RoundsTo places (.real x) (Scalar.nearest 0)
  /-- No place is kept. -/
  | coarse {x : α} {q : ℚ} : Scalar.exact x = .finite q → places < -308 →
    RoundsTo places (.real x) (Scalar.nearest 0)
  | special {x : α} : (Scalar.exact x).isFinite = false → RoundsTo places (.real x) x

end Number

namespace Scalar

variable {α : Type} [Scalar α] {places : ℤ} {x y : α}

theorem roundsTo_of_roundTo (h : roundTo places x = .ok y) : Number.RoundsTo places (.real x) y := by
  unfold roundTo at h
  split at h
  · rename_i q hq
    split at h
    · rename_i hfine
      cases h
      split
      · rename_i hzero
        exact .zero (hzero ▸ hq) hfine
      · rename_i hzero
        exact .fine hq hzero hfine
    · split at h
      · rename_i hcoarse
        cases h
        exact .coarse hq hcoarse
      · dsimp only at h
        split at h
        · rename_i hfinite
          cases h
          exact .decimal hq (by omega) (by omega) (Decimal.rounds_iff.mpr rfl) hfinite
        · cases h
  · rename_i hspecial
    cases h
    refine .special ?_
    cases hx : exact x with
    | finite q => exact absurd hx (hspecial q)
    | _ => rfl

theorem roundTo_of_roundsTo (h : Number.RoundsTo places (.real x) y) : roundTo places x = .ok y := by
  unfold roundTo
  cases h with
  | decimal hq hlow hhigh hr hfinite =>
    rw [Decimal.rounds_iff.mp hr] at hfinite ⊢
    rw [hq]
    dsimp only
    rw [if_neg (by omega), if_neg (by omega), if_pos hfinite]
  | fine hq hzero hfine =>
    rw [hq]
    dsimp only
    rw [if_pos hfine, if_neg hzero]
  | zero hq hfine =>
    rw [hq]
    dsimp only
    rw [if_pos hfine, if_pos rfl]
    rfl
  | coarse hq hcoarse =>
    rw [hq]
    dsimp only
    rw [if_neg (by omega), if_pos hcoarse]
    rfl
  | special hspecial =>
    cases hx : exact x with
    | finite q => simp [hx, Exact.isFinite] at hspecial
    | _ => rfl

/-- Rounding a scalar gives what it should, or fails because the result is not finite. -/
theorem roundTo_eq_ok : roundTo places x = .ok y ↔ Number.RoundsTo places (.real x) y :=
  ⟨roundsTo_of_roundTo, roundTo_of_roundsTo⟩

end Scalar

namespace Number

variable {α : Type} [Scalar α] {places : ℤ} {x : Number α} {y : α}

theorem roundTo_int_eq_ok {n : ℤ} :
    (int n : Number α).roundTo places = .ok y ↔ RoundsTo places (int n) y := by
  change Scalar.ofInt? (roundInteger places n) = .ok y ↔ _
  rw [ofInt?_eq_ok]
  constructor
  · exact .integer (rounds_roundInteger places n)
  · intro h
    cases h with
    | @integer _ r _ hr hy =>
      have hcast : (r : ℚ) = roundInteger places n := hr.unique (rounds_roundInteger places n)
      obtain rfl : r = roundInteger places n := by exact_mod_cast hcast
      exact hy

/-- Rounding a number gives what it should, or fails. -/
theorem roundTo_eq_ok : x.roundTo places = .ok y ↔ x.RoundsTo places y := by
  cases x with
  | int n => exact roundTo_int_eq_ok
  | real x => exact Scalar.roundTo_eq_ok
  | truth b =>
    constructor
    · exact fun h => .truth (roundTo_int_eq_ok.mp h)
    · intro h
      cases h with
      | truth h => exact roundTo_int_eq_ok.mpr h

end Number

end DecisionModel
