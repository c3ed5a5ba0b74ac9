import DecisionModel.Proofs.Number.Double

/-!
# Arithmetic on equal numbers

Zero is written with either sign, and the arithmetic of doubles keeps the two apart.
`Scalar.Congruent` says that this stays without consequence as long as no number is divided by zero:
equal numbers give equal numbers. It is so for doubles because two of them that stand for the same
number are the same or both zero (`Double.eq_or_zero`).
-/

namespace DecisionModel

namespace Scalar

/-- Equal numbers give equal numbers, and one is neutral and complements truth values. -/
class Congruent (α : Type) [Scalar α] : Prop where
  neg_congr {x x' : α} : exact x = exact x' → exact (neg x) = exact (neg x')
  abs_congr {x x' : α} : exact x = exact x' → exact (abs x) = exact (abs x')
  add_congr {x x' y y' : α} : exact x = exact x' → exact y = exact y' →
    exact (add x y) = exact (add x' y')
  sub_congr {x x' y y' : α} : exact x = exact x' → exact y = exact y' →
    exact (sub x y) = exact (sub x' y')
  mul_congr {x x' y y' : α} : exact x = exact x' → exact y = exact y' →
    exact (mul x y) = exact (mul x' y')
  div_congr {x x' y y' : α} : exact x = exact x' → exact y = exact y' → isZero y = false →
    exact (div x y) = exact (div x' y')
  power_congr {x x' y y' z z' : α} : exact x = exact x' → exact y = exact y' → power x y = .ok z →
    power x' y' = .ok z' → exact z = exact z'
  one_mul (x : α) : exact (mul one x) = exact x
  one_sub_ofBool (b : Bool) : exact (sub one (ofBool b) : α) = exact (ofBool (!b) : α)

instance : Congruent Exact where
  neg_congr {x x'} (h : x = x') := by rw [h]
  abs_congr {x x'} (h : x = x') := by rw [h]
  add_congr {x x' y y'} (h : x = x') (h' : y = y') := by rw [h, h']
  sub_congr {x x' y y'} (h : x = x') (h' : y = y') := by rw [h, h']
  mul_congr {x x' y y'} (h : x = x') (h' : y = y') := by rw [h, h']
  div_congr {x x' y y'} (h : x = x') (h' : y = y') _ := by rw [h, h']
  power_congr {x x' y y' z z'} (h : x = x') (h' : y = y') hz hz' := by
    rw [h, h', hz'] at hz
    rw [Except.ok.inj hz]
  one_mul x := by
    change (Exact.finite 1).mul x = x
    cases x <;> simp [Exact.mul, Exact.eq, Exact.isNegative, Exact.lt, Exact.infinityOf]
  one_sub_ofBool b := by cases b <;> decide +kernel

end Scalar

namespace Double

open Float.Model Float.Model.UnpackedFloat

/-! ### Equal doubles -/

/-- There is one double that is no number. -/
theorem eq_of_exact_nan {x y : Float} (hx : exact x = .nan) (hy : exact y = .nan) : x = y := by
  have hbits {z : Float} (hz : exact z = .nan) : z.toBits.toBitVec = packedNaN Format.binary64 := by
    have hunpack : UnpackedFloat.unpack Format.binary64 z.toBits.toBitVec = .notANumber :=
      exact_eq_nan.mp hz
    obtain ⟨he, hm⟩ := unpack_eq_notANumber.mp hunpack
    exact z.toModel.valid.eq_packedNaN he hm
  exact Float.toBits_inj.mp (UInt64.toBitVec_inj.mp ((hbits hx).trans (hbits hy).symm))

theorem fields_of_infinite {x : Float} {negative : Bool}
    (h : exact x = if negative then .negInf else .posInf) :
    fields x = ⟨negative, Nat.pow 2 11 - 1, 0⟩ := by
  unfold exact at h
  dsimp only at h
  split at h
  · rename_i he
    split at h
    · rename_i hf
      refine fields_ext ?_ ⟨he, hf⟩
      cases negative <;> split at h <;> simp_all
    · cases negative <;> simp at h
  · cases negative <;> simp at h

/-- Doubles that stand for the same number are the same, or zeros. -/
theorem eq_or_zero {x y : Float} (h : exact x = exact y) :
    x = y ∨ exact x = .finite 0 ∧ exact y = .finite 0 := by
  have hinfinite (negative : Bool) (hx : exact x = if negative then .negInf else .posInf) : x = y :=
    eq_of_fields ((fields_of_infinite hx).trans (fields_of_infinite (h ▸ hx)).symm)
  cases hx : exact x with
  | nan => exact .inl (eq_of_exact_nan hx (h ▸ hx))
  | negInf => exact .inl (hinfinite true hx)
  | posInf => exact .inl (hinfinite false hx)
  | finite q =>
    by_cases hq : q = 0
    · subst hq
      exact .inr ⟨rfl, h ▸ hx⟩
    · exact .inl (eq_of_exact hx (h ▸ hx) hq)

/-! ### Zeros -/

theorem unpack_of_zero {x : Float} (h : exact x = .finite 0) : ∃ s, x.toModel.unpack = .zero s := by
  rcases eq_zero_of_exact h with rfl | rfl
  · exact ⟨.positive, rfl⟩
  · exact ⟨.negative, rfl⟩

theorem exact_pack_zero (s : Sign) : exact (.ofModel (.pack (.zero s))) = .finite 0 := by
  cases s <;> decide +kernel

/-- The results stand for the same number. -/
def SamePacked (u v : UnpackedFloat) : Prop := exact (.ofModel (.pack u)) = exact (.ofModel (.pack v))

theorem SamePacked.zeros (s s' : Sign) : SamePacked (.zero s) (.zero s') :=
  (exact_pack_zero s).trans (exact_pack_zero s').symm

/-- An operation for which the sign of a zero does not matter gives equal numbers for equal ones. -/
theorem samePacked_unary {f : UnpackedFloat → UnpackedFloat}
    (hf : ∀ s s', SamePacked (f (.zero s)) (f (.zero s'))) {x x' : Float} (h : exact x = exact x') :
    SamePacked (f x.toModel.unpack) (f x'.toModel.unpack) := by
  rcases eq_or_zero h with rfl | ⟨hx, hx'⟩
  · rfl
  · obtain ⟨s, hs⟩ := unpack_of_zero hx
    obtain ⟨s', hs'⟩ := unpack_of_zero hx'
    rw [hs, hs']
    exact hf s s'

theorem samePacked_binary {f : UnpackedFloat → UnpackedFloat → UnpackedFloat}
    (hleft : ∀ s s' u, SamePacked (f (.zero s) u) (f (.zero s') u))
    (hright : ∀ u s s', SamePacked (f u (.zero s)) (f u (.zero s'))) {x x' y y' : Float}
    (h : exact x = exact x') (h' : exact y = exact y') :
    SamePacked (f x.toModel.unpack y.toModel.unpack) (f x'.toModel.unpack y'.toModel.unpack) :=
  (samePacked_unary (f := fun u => f u y.toModel.unpack) (fun s s' => hleft s s' _) h).trans
    (samePacked_unary (f := f x'.toModel.unpack) (hright _) h')

theorem neg_congr {x x' : Float} (h : exact x = exact x') : exact x.neg = exact x'.neg :=
  samePacked_unary (f := UnpackedFloat.neg) (fun _ _ => .zeros _ _) h

theorem abs_congr {x x' : Float} (h : exact x = exact x') : exact x.abs = exact x'.abs :=
  samePacked_unary (f := UnpackedFloat.abs) (fun _ _ => .zeros _ _) h

theorem add_congr {x x' y y' : Float} (h : exact x = exact x') (h' : exact y = exact y') :
    exact (x.add y) = exact (x'.add y') := by
  refine samePacked_binary (f := UnpackedFloat.add Format.binary64) (fun s s' u => ?_)
    (fun u s s' => ?_) h h'
  · cases u with
    | zero t => cases s <;> cases s' <;> cases t <;> exact SamePacked.zeros _ _
    | _ => rfl
  · cases u with
    | zero t => cases s <;> cases s' <;> cases t <;> exact SamePacked.zeros _ _
    | _ => rfl

theorem sub_congr {x x' y y' : Float} (h : exact x = exact x') (h' : exact y = exact y') :
    exact (x.sub y) = exact (x'.sub y') := by
  refine samePacked_binary (f := UnpackedFloat.sub Format.binary64) (fun s s' u => ?_)
    (fun u s s' => ?_) h h'
  · cases u with
    | zero t => cases s <;> cases s' <;> cases t <;> exact SamePacked.zeros _ _
    | _ => rfl
  · cases u with
    | zero t => cases s <;> cases s' <;> cases t <;> exact SamePacked.zeros _ _
    | _ => rfl

theorem mul_congr {x x' y y' : Float} (h : exact x = exact x') (h' : exact y = exact y') :
    exact (x.mul y) = exact (x'.mul y') := by
  refine samePacked_binary (f := UnpackedFloat.mul Format.binary64) (fun s s' u => ?_)
    (fun u s s' => ?_) h h'
  · cases u with
    | zero t => exact SamePacked.zeros _ _
    | finite t m e hm => exact SamePacked.zeros _ _
    | _ => rfl
  · cases u with
    | zero t => exact SamePacked.zeros _ _
    | finite t m e hm => exact SamePacked.zeros _ _
    | _ => rfl

theorem div_congr {x x' y : Float} (h : exact x = exact x') : exact (x.div y) = exact (x'.div y) := by
  refine samePacked_unary (f := (UnpackedFloat.div Format.binary64 · y.toModel.unpack))
    (fun s s' => ?_) h
  cases y.toModel.unpack with
  | infinity t => exact SamePacked.zeros _ _
  | finite t m e hm => exact SamePacked.zeros _ _
  | _ => rfl

/-! ### Powers -/

theorem limitPower_congr {x x' y y' : Float} (h : exact x = exact x') (h' : exact y = exact y')
    (hlimit : ((exact x).isFinite && (exact y).isFinite) = false) :
    exact (limitPower x y) = exact (limitPower x' y') := by
  rcases eq_or_zero h with rfl | ⟨hx, hx'⟩
  · rcases eq_or_zero h' with rfl | ⟨hy, hy'⟩
    · rfl
    · unfold limitPower
      rw [hy, hy']
      cases hx : exact x with
      | finite q => simp [hx, hy, Exact.isFinite] at hlimit
      | _ => rfl
  · rcases eq_or_zero h' with rfl | ⟨hy, hy'⟩
    · unfold limitPower
      rw [hx, hx']
      cases exact y <;> rfl
    · simp [hx, hy, Exact.isFinite] at hlimit

theorem power_congr {x x' y y' z z' : Float} (h : exact x = exact x') (h' : exact y = exact y')
    (hz : power x y = .ok z) (hz' : power x' y' = .ok z') : exact z = exact z' := by
  unfold power at hz hz'
  rw [← h, ← h'] at hz'
  split at hz
  · rename_i hfinite
    rw [if_pos hfinite] at hz'
    split at hz
    · rename_i hy
      rw [if_pos hy] at hz'
      rw [← Except.ok.inj hz, ← Except.ok.inj hz']
    · rename_i hy
      rw [if_neg hy] at hz'
      obtain rfl : y = y' := by
        refine (eq_or_zero h').resolve_right fun hzero => hy ?_
        rw [hzero.1]
        rfl
      split at hz
      · rename_i hx
        rw [if_pos hx] at hz'
        unfold zeroPower at hz hz'
        split at hz
        · cases hz
        · rename_i hpositive
          rw [if_neg hpositive] at hz'
          rw [← Except.ok.inj hz, ← Except.ok.inj hz']
          split
          · exact h
          · rfl
      · rename_i hx
        rw [if_neg hx] at hz'
        obtain rfl : x = x' := by
          refine (eq_or_zero h).resolve_right fun hzero => hx ?_
          rw [hzero.1]
          rfl
        rw [Except.ok.inj (hz.symm.trans hz')]
  · rename_i hlimit
    rw [if_neg hlimit] at hz'
    rw [← Except.ok.inj hz, ← Except.ok.inj hz']
    exact limitPower_congr h h' (Bool.not_eq_true _ ▸ hlimit)

/-! ### One -/

theorem log2_pow_mul (n : ℕ) {m : ℕ} (hm : 0 < m) : (2 ^ n * m).log2 = n + m.log2 := by
  induction n with
  | zero => simp
  | succ n ih =>
    rw [pow_succ, mul_right_comm, mul_comm, Nat.log2_two_mul (by positivity), ih]
    omega

/-- Bringing a mantissa in its place that was shifted by 52 digits gives it back. -/
theorem shiftToTargetExponent_fields {f : Fields} (hf : f.fraction < Nat.pow 2 52)
    (hm : 0 < f.magnitude.1) {n : ℕ} (hn : n ≤ 52) :
    shiftToTargetExponent Format.binary64 (2 ^ n * f.magnitude.1) (f.magnitude.2 - n) .exact =
      (⟨f.magnitude.1, false, false⟩, f.magnitude.2) := by
  obtain ⟨hlt, hleast, hnormal⟩ := magnitude_bounds hf
  have hamount : (Format.binary64.targetExponent (totalExponent (2 ^ n * f.magnitude.1)
      (f.magnitude.2 - n)) - (f.magnitude.2 - n)).toNat = n := by
    have hdigits : (2 ^ n * f.magnitude.1).log2 = n + f.magnitude.1.log2 := log2_pow_mul n hm
    have hhigh : f.magnitude.1.log2 < 53 := (Nat.log2_lt hm.ne').mpr hlt
    have hlow (he : -1074 < f.magnitude.2) : 52 ≤ f.magnitude.1.log2 :=
      (Nat.le_log2 hm.ne').mpr (hnormal he)
    rw [targetExponent_eq, totalExponent, hdigits]
    omega
  rw [shiftToTargetExponent, shiftToExponent, hamount]
  simp only [ExtendedMantissa.ofMantissaAndAccuracy]
  rw [shiftRight_pow]
  congr 1
  omega

theorem roundWithAccuracy_fields (s : Sign) {f : Fields} (hf : f.fraction < Nat.pow 2 52)
    (hm : 0 < f.magnitude.1) :
    roundWithAccuracy Format.binary64 s (2 ^ 52 * f.magnitude.1) (-52 + f.magnitude.2) .exact =
      .finite s f.magnitude.1 f.magnitude.2 hm := by
  have hfirst := shiftToTargetExponent_fields hf hm (n := 52) le_rfl
  have hagain := shiftToTargetExponent_fields hf hm (n := 0) (Nat.zero_le _)
  have hround : ExtendedMantissa.roundedMantissa ⟨f.magnitude.1, false, false⟩ = f.magnitude.1 := rfl
  simp only [pow_zero, Nat.one_mul, Nat.cast_zero, sub_zero] at hagain
  rw [roundWithAccuracy, neg_add_eq_sub]
  simp only [show ((52 : ℤ)) = ((52 : ℕ) : ℤ) from rfl, hfirst, hround, hagain, hm.ne', dite_false]

/-- The product of one and a double with a mantissa. -/
theorem one_mul_of_mantissa {x : Float} (he : (fields x).exponent < Nat.pow 2 11 - 1)
    (hm : 0 < (fields x).magnitude.1) : (nearest 1).mul x = x := by
  have hsign : Sign.positive * signOf (fields x).negative = signOf (fields x).negative := by
    cases (fields x).negative <;> rfl
  have hproduct : (nearest 1).mul x = .ofModel (.pack (.finite (signOf (fields x).negative)
      (fields x).magnitude.1 (fields x).magnitude.2 hm)) := by
    have hmodel : (nearest 1).mul x = .ofModel (.pack (UnpackedFloat.mul Format.binary64
      (nearest 1).toModel.unpack x.toModel.unpack)) := rfl
    rw [hmodel, unpack_one, unpack_of_fields he.ne hm, UnpackedFloat.mul, hsign,
      roundWithAccuracy_fields _ (fraction_lt x) hm]
  rw [hproduct, eq_of_fields (fields_pack he (fraction_lt x) hm)]

theorem one_mul (x : Float) : exact ((nearest 1).mul x) = exact x := by
  cases hx : exact x with
  | nan =>
    obtain rfl := eq_of_exact_nan hx (y := nan) (by decide +kernel)
    decide +kernel
  | negInf =>
    have hfields : fields x = ⟨true, Nat.pow 2 11 - 1, 0⟩ := fields_of_infinite hx
    obtain rfl : x = negInf := eq_of_fields (hfields.trans (by decide +kernel))
    decide +kernel
  | posInf =>
    have hfields : fields x = ⟨false, Nat.pow 2 11 - 1, 0⟩ := fields_of_infinite hx
    obtain rfl : x = posInf := eq_of_fields (hfields.trans (by decide +kernel))
    decide +kernel
  | finite q =>
    by_cases hq : q = 0
    · subst hq
      rcases eq_zero_of_exact hx with rfl | rfl <;> decide +kernel
    · obtain ⟨he, hnumber⟩ := exact_eq_finite.mp hx
      have hm : 0 < (fields x).magnitude.1 := by
        refine Nat.pos_of_ne_zero fun h => hq ?_
        rw [← hnumber, Fields.number, Fields.size, h]
        simp
      rw [one_mul_of_mantissa (lt_of_le_of_ne (Nat.le_pred_of_lt (exponent_lt x)) he) hm, hx]

end Double

instance : Scalar.Congruent Float where
  neg_congr := Double.neg_congr
  abs_congr := Double.abs_congr
  add_congr := Double.add_congr
  sub_congr := Double.sub_congr
  mul_congr := Double.mul_congr
  div_congr {x x' y y'} h h' hy := by
    obtain rfl : y = y' := by
      refine (Double.eq_or_zero h').resolve_right fun hzero => ?_
      rw [Scalar.isZero, show Scalar.exact y = _ from hzero.1] at hy
      cases hy
    exact Double.div_congr h
  power_congr := Double.power_congr
  one_mul := Double.one_mul
  one_sub_ofBool b := by cases b <;> decide +kernel

end DecisionModel
