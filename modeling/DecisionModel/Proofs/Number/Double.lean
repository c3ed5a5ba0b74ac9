import Mathlib
import DecisionModel.Number.DoubleScalar
import DecisionModel.Proofs.Number.Integral

/-!
# Doubles in arithmetic

`Double.exact` reads a double from its bits; the arithmetic of doubles unpacks them, computes and packs
the result. The two views are joined by the fields of a double, which determine it (`eq_of_fields`):

* `exact_ne_nan`: what is packed from a number is a number;
* `eq_of_exact`: two doubles that stand for the same number are equal, zeros apart;
* `exact_dyadic`: a finite double is an integer divided by a power of two;
* `exact_inverse`: one divided by a power of two is exact.
-/

namespace DecisionModel.Double

open Float.Model Float.Model.UnpackedFloat

/-! ### Fields and bits -/

theorem exponent_eq (x : Float) :
    (@unpackExponent Format.binary64 x.toBits.toBitVec).toNat = (fields x).exponent := by
  simp [unpackExponent, fields, Nat.shiftRight_eq_div_pow]

theorem fraction_eq (x : Float) :
    (@unpackMantissa Format.binary64 x.toBits.toBitVec).toNat = (fields x).fraction := by
  simp [unpackMantissa, fields]

theorem exponent_lt (x : Float) : (fields x).exponent < Nat.pow 2 11 := Nat.mod_lt _ (by decide)

theorem fraction_lt (x : Float) : (fields x).fraction < Nat.pow 2 52 := Nat.mod_lt _ (by decide)

theorem toNat_toBits (x : Float) : x.toBits.toNat =
    (if (fields x).negative then Nat.pow 2 63 else 0) + (fields x).exponent * Nat.pow 2 52 +
      (fields x).fraction := by
  have hlt : x.toBits.toNat < Nat.pow 2 64 := x.toBits.toNat_lt
  simp only [fields]
  norm_num at *
  split <;> omega

/-- The fields of a double determine it. -/
theorem eq_of_fields {x y : Float} (h : fields x = fields y) : x = y :=
  Float.toBits_inj.mp (UInt64.toNat_inj.mp (by rw [toNat_toBits, toNat_toBits, h]))

/-! ### Not a number -/

theorem exponent_eq_iff (x : Float) :
    @unpackExponent Format.binary64 x.toBits.toBitVec = -1#_ ↔
      (fields x).exponent = Nat.pow 2 11 - 1 := by
  rw [← BitVec.toNat_inj, exponent_eq]
  simp

theorem fraction_eq_iff (x : Float) :
    @unpackMantissa Format.binary64 x.toBits.toBitVec = 0#_ ↔ (fields x).fraction = 0 := by
  rw [← BitVec.toNat_inj, fraction_eq]
  simp

theorem unpack_eq_notANumber {spec : Format} {b : BitVec spec.numBits} :
    UnpackedFloat.unpack spec b = .notANumber ↔ unpackExponent b = -1#_ ∧ unpackMantissa b ≠ 0#_ := by
  unfold UnpackedFloat.unpack
  dsimp only
  split
  · split <;> simp_all
  · split
    · split <;> simp_all
    · simp_all

/-- An exponent of ones stands for an infinity, if it was not packed from what is no number. -/
theorem unpackMantissa_pack {spec : Format} {u : UnpackedFloat} (h : u ≠ .notANumber)
    (he : unpackExponent (UnpackedFloat.pack spec u) = -1#_) :
    unpackMantissa (UnpackedFloat.pack spec u) = 0#_ := by
  revert he
  fun_cases UnpackedFloat.pack with
  | case1 => exact absurd rfl h
  | case2 s => simp [packedInfinity]
  | case3 s => simp [packedZero]
  | case4 s m e hm biased h => simp [packedInfinity]
  | case5 s m e hm digits biased h₁ h₂ =>
    have hbiased : biased % 2 ^ spec.exponentBits ≠ 2 ^ spec.exponentBits - 1 := by
      rw [Nat.mod_eq_of_lt (by omega)]
      omega
    simp [BitVec.neg_one_eq_allOnes, ← BitVec.toNat_inj, hbiased]
  | case6 s m e hm digits biased h₁ h₂ => simp [Nat.pos_iff_ne_zero.1 spec.he]

theorem exact_eq_nan {x : Float} : exact x = .nan ↔ x.toModel.unpack = .notANumber := by
  have hunpack : x.toModel.unpack = UnpackedFloat.unpack Format.binary64 x.toBits.toBitVec := rfl
  rw [hunpack, unpack_eq_notANumber, exponent_eq_iff, Ne, fraction_eq_iff]
  unfold exact
  dsimp only
  split
  · split
    · split <;> simp_all
    · simp_all
  · simp_all

theorem exact_ne_nan {u : UnpackedFloat} (h : u ≠ .notANumber) : exact (.ofModel (.pack u)) ≠ .nan := by
  rw [Ne, exact_eq_nan]
  have hunpack : (Float.ofModel (.pack u)).toModel.unpack =
      UnpackedFloat.unpack Format.binary64 (UnpackedFloat.pack Format.binary64 u) := rfl
  rw [hunpack, unpack_eq_notANumber]
  exact fun hu => hu.2 (unpackMantissa_pack h hu.1)

theorem unpackExponent_of_infinity {spec : Format} {b : BitVec spec.numBits} {s : Sign}
    (h : UnpackedFloat.unpack spec b = .infinity s) : unpackExponent b = -1#_ := by
  unfold UnpackedFloat.unpack at h
  dsimp only at h
  split at h
  · assumption
  · split at h
    · split at h <;> cases h
    · cases h

/-- A double that stands for a number is a zero or a finite number with a mantissa. -/
theorem unpack_of_isFinite {x : Float} (h : (exact x).isFinite) :
    (∃ s, x.toModel.unpack = .zero s) ∨ ∃ s m e hm, x.toModel.unpack = .finite s m e hm := by
  cases hu : x.toModel.unpack with
  | notANumber =>
    rw [exact_eq_nan.mpr hu] at h
    cases h
  | infinity s =>
    have he : (fields x).exponent = Nat.pow 2 11 - 1 :=
      (exponent_eq_iff x).mp (@unpackExponent_of_infinity Format.binary64 _ _ hu)
    unfold exact at h
    dsimp only at h
    rw [if_pos he] at h
    split at h
    · split at h <;> cases h
    · cases h
  | zero s => exact .inl ⟨s, rfl⟩
  | finite s m e hm => exact .inr ⟨s, m, e, hm, rfl⟩

/-! ### Numbers -/

theorem twoPow_eq (e : ℤ) : twoPow e = (2 : ℚ) ^ e := mkRat_pow 2 e

/-- The number that fields stand for, the sign left out. -/
def Fields.size (f : Fields) : ℚ := f.magnitude.1 * twoPow f.magnitude.2

/-- The number that fields stand for. -/
def Fields.number (f : Fields) : ℚ := if f.negative then -f.size else f.size

theorem twoPow_pos (e : ℤ) : 0 < twoPow e := by
  rw [twoPow_eq]
  exact zpow_pos two_pos e

theorem Fields.size_nonneg (f : Fields) : 0 ≤ f.size := mul_nonneg (Nat.cast_nonneg _) (twoPow_pos _).le

theorem exact_eq_finite {x : Float} {q : ℚ} :
    exact x = .finite q ↔ (fields x).exponent ≠ Nat.pow 2 11 - 1 ∧ (fields x).number = q := by
  unfold exact Fields.number Fields.size
  dsimp only
  split
  · split
    · split <;> simp_all
    · simp_all
  · simp_all

theorem fields_ext {f g : Fields} (hn : f.negative = g.negative)
    (h : f.exponent = g.exponent ∧ f.fraction = g.fraction) : f = g := by
  rcases f with ⟨nf, ef, mf⟩
  rcases g with ⟨ng, eg, mg⟩
  exact congr (congr (congrArg Fields.mk hn) h.1) h.2

theorem magnitude_bounds {f : Fields} (hf : f.fraction < Nat.pow 2 52) :
    f.magnitude.1 < Nat.pow 2 53 ∧ -1074 ≤ f.magnitude.2 ∧
      (-1074 < f.magnitude.2 → Nat.pow 2 52 ≤ f.magnitude.1) := by
  unfold Fields.magnitude
  norm_num at *
  split
  · simp
    omega
  · simp
    omega

theorem magnitude_inj {f g : Fields} (hf : f.fraction < Nat.pow 2 52) (hg : g.fraction < Nat.pow 2 52)
    (h : f.magnitude = g.magnitude) : f.exponent = g.exponent ∧ f.fraction = g.fraction := by
  unfold Fields.magnitude at h
  norm_num at *
  split at h <;> split at h <;> simp only [Prod.mk.injEq] at h <;> omega

/-- Of two mantissas with exponents that stand for one number, the one with the lesser exponent is not
too small. -/
theorem magnitude_unique {f g : Fields} (hf : f.fraction < Nat.pow 2 52) (hg : g.fraction < Nat.pow 2 52)
    (h : f.size = g.size) (hle : f.magnitude.2 ≤ g.magnitude.2) : f.magnitude = g.magnitude := by
  obtain ⟨hlt, hleast, -⟩ := magnitude_bounds hf
  obtain ⟨-, -, hnormal⟩ := magnitude_bounds hg
  obtain ⟨k, hk⟩ := Int.eq_ofNat_of_zero_le (sub_nonneg.mpr hle)
  have hexponent : g.magnitude.2 = f.magnitude.2 + k := by omega
  have hmantissa : f.magnitude.1 = g.magnitude.1 * 2 ^ k := by
    unfold Fields.size at h
    rw [twoPow_eq, twoPow_eq, hexponent, zpow_add₀ two_ne_zero, mul_comm ((2 : ℚ) ^ _), ← mul_assoc] at h
    exact_mod_cast mul_right_cancel₀ (zpow_ne_zero _ two_ne_zero) h
  rcases Nat.eq_zero_or_pos k with rfl | hpos
  · exact Prod.ext (by simpa using hmantissa) (by simpa using hexponent.symm)
  · -- shifted to the left by one place or more, a mantissa of 53 digits has more than that
    have hbig : Nat.pow 2 52 * 2 ≤ g.magnitude.1 * 2 ^ k :=
      Nat.mul_le_mul (hnormal (by omega)) (Nat.le_self_pow hpos.ne' 2)
    have hdigits : Nat.pow 2 52 * 2 = Nat.pow 2 53 := rfl
    omega

theorem size_unique {f g : Fields} (hf : f.fraction < Nat.pow 2 52) (hg : g.fraction < Nat.pow 2 52)
    (h : f.size = g.size) : f.exponent = g.exponent ∧ f.fraction = g.fraction := by
  refine magnitude_inj hf hg ?_
  rcases le_total f.magnitude.2 g.magnitude.2 with hle | hle
  · exact magnitude_unique hf hg h hle
  · exact (magnitude_unique hg hf h.symm hle).symm

/-- Fields that stand for the same number are the same, zeros apart. -/
theorem fields_unique {f g : Fields} (hf : f.fraction < Nat.pow 2 52) (hg : g.fraction < Nat.pow 2 52)
    (h : f.number = g.number) (hne : f.number ≠ 0) : f = g := by
  have hsizef := f.size_nonneg
  have hsizeg := g.size_nonneg
  have hsame : f.negative = g.negative ∧ f.size = g.size := by
    unfold Fields.number at h hne
    rcases hnf : f.negative with _ | _ <;> rcases hng : g.negative with _ | _ <;>
      simp only [hnf, hng, Bool.false_eq_true, if_true, if_false] at h hne
    · exact ⟨rfl, h⟩
    · exact absurd (by linarith) hne
    · exact absurd (by linarith) hne
    · exact ⟨rfl, neg_injective h⟩
  exact fields_ext hsame.1 (size_unique hf hg hsame.2)

/-- Doubles that stand for the same number are the same, zeros apart. -/
theorem eq_of_exact {x y : Float} {q : ℚ} (hx : exact x = .finite q) (hy : exact y = .finite q)
    (hq : q ≠ 0) : x = y := by
  obtain ⟨-, hx⟩ := exact_eq_finite.mp hx
  obtain ⟨-, hy⟩ := exact_eq_finite.mp hy
  exact eq_of_fields (fields_unique (fraction_lt x) (fraction_lt y) (hx.trans hy.symm) (hx ▸ hq))

/-- There is a zero of either sign. -/
theorem eq_zero_of_exact {x : Float} (hx : exact x = .finite 0) :
    x = .ofBits 0 ∨ x = .ofBits (UInt64.ofNat (Nat.pow 2 63)) := by
  obtain ⟨-, hx⟩ := exact_eq_finite.mp hx
  have hsize : (fields x).size = (fields (.ofBits 0)).size := by
    have hzero : (fields (.ofBits 0)).size = 0 := by decide +kernel
    unfold Fields.number at hx
    rw [hzero]
    split at hx
    · exact neg_eq_zero.mp hx
    · exact hx
  have hsame := size_unique (fraction_lt x) (fraction_lt _) hsize
  rcases hn : (fields x).negative with _ | _
  · exact .inl (eq_of_fields (fields_ext (by rw [hn]; decide) hsame))
  · have hminus : (fields (.ofBits (UInt64.ofNat (Nat.pow 2 63)))).exponent = (fields (.ofBits 0)).exponent ∧
        (fields (.ofBits (UInt64.ofNat (Nat.pow 2 63)))).fraction = (fields (.ofBits 0)).fraction := by
      decide
    exact .inr (eq_of_fields (fields_ext (by rw [hn]; decide)
      ⟨hsame.1.trans hminus.1.symm, hsame.2.trans hminus.2.symm⟩))

/-! ### Differences -/

theorem exact_abs_ne_nan {x : Float} (h : exact x ≠ .nan) : exact x.abs ≠ .nan := by
  refine exact_ne_nan fun habs => h (exact_eq_nan.mpr ?_)
  cases hu : x.toModel.unpack with
  | notANumber => rfl
  | _ => rw [hu] at habs; cases habs

theorem round_ne_notANumber {spec : Format} {s : Sign} {m : ℕ} {e : ℤ} {a : Accuracy} :
    roundWithAccuracy spec s m e a ≠ .notANumber := by
  unfold roundWithAccuracy
  dsimp only
  split <;> simp

theorem normalize_ne_notANumber {spec : Format} {s : Sign} {m e : ℤ} :
    UnpackedFloat.normalize spec m e s ≠ .notANumber := by
  unfold UnpackedFloat.normalize
  split
  · exact round_ne_notANumber
  · simp
  · exact round_ne_notANumber

/-- Two finite doubles have a difference, which may be infinite. -/
theorem exact_sub_ne_nan {x y : Float} (hx : (exact x).isFinite) (hy : (exact y).isFinite) :
    exact (x.sub y) ≠ .nan := by
  refine exact_ne_nan ?_
  rcases unpack_of_isFinite hx with ⟨s, hx⟩ | ⟨s, m, e, hm, hx⟩ <;>
    rcases unpack_of_isFinite hy with ⟨s', hy⟩ | ⟨s', m', e', hm', hy⟩ <;> rw [hx, hy]
  · simp only [UnpackedFloat.sub]
    split <;> simp
  · simp [UnpackedFloat.sub]
  · simp [UnpackedFloat.sub]
  · exact normalize_ne_notANumber

theorem exact_mul_ne_nan {x y : Float} (hx : (exact x).isFinite) (hy : (exact y).isFinite) :
    exact (x.mul y) ≠ .nan := by
  refine exact_ne_nan ?_
  rcases unpack_of_isFinite hx with ⟨s, hx⟩ | ⟨s, m, e, hm, hx⟩ <;>
    rcases unpack_of_isFinite hy with ⟨s', hy⟩ | ⟨s', m', e', hm', hy⟩ <;> rw [hx, hy]
  · simp [UnpackedFloat.mul]
  · simp [UnpackedFloat.mul]
  · simp [UnpackedFloat.mul]
  · exact round_ne_notANumber

theorem sub_self_of_isFinite {x : Float} (hx : (exact x).isFinite) : x.sub x = .ofBits 0 := by
  have hzero : UnpackedFloat.sub Format.binary64 x.toModel.unpack x.toModel.unpack = .zero .positive := by
    rcases unpack_of_isFinite hx with ⟨s, hx⟩ | ⟨s, m, e, hm, hx⟩ <;> rw [hx]
    · cases s <;> rfl
    · simp [UnpackedFloat.sub, UnpackedFloat.normalize]
  calc x.sub x = .ofModel (.pack (UnpackedFloat.sub Format.binary64 x.toModel.unpack x.toModel.unpack)) := rfl
    _ = .ofModel (.pack (.zero .positive)) := by rw [hzero]
    _ = .ofBits 0 := by decide

/-- The distance of two doubles that stand for the same number is zero. -/
theorem exact_abs_sub_of_exact {x y : Float} {q : ℚ} (hx : exact x = .finite q)
    (hy : exact y = .finite q) : exact (x.sub y).abs = .finite 0 := by
  by_cases hq : q = 0
  · subst hq
    rcases eq_zero_of_exact hx with rfl | rfl <;> rcases eq_zero_of_exact hy with rfl | rfl <;>
      decide +kernel
  · obtain rfl := eq_of_exact hx hy hq
    rw [sub_self_of_isFinite (by rw [hx]; rfl)]
    decide +kernel

/-! ### Powers of two -/

/-- A finite double is an integer divided by a power of two. -/
theorem exact_dyadic {x : Float} {q : ℚ} (h : exact x = .finite q) :
    ∃ m : ℤ, ∃ k : ℕ, q * 2 ^ k = m := by
  obtain ⟨-, rfl⟩ := exact_eq_finite.mp h
  have hsize : ∃ m : ℤ, ∃ k : ℕ, (fields x).size * 2 ^ k = m := by
    unfold Fields.size
    rw [twoPow_eq]
    rcases Int.eq_nat_or_neg (fields x).magnitude.2 with ⟨n, hn | hn⟩ <;> rw [hn]
    · exact ⟨(fields x).magnitude.1 * 2 ^ n, 0, by rw [zpow_natCast]; push_cast; ring⟩
    · refine ⟨(fields x).magnitude.1, n, ?_⟩
      rw [zpow_neg, zpow_natCast, mul_assoc, inv_mul_cancel₀ (by positivity), mul_one, Int.cast_natCast]
  obtain ⟨m, k, hk⟩ := hsize
  unfold Fields.number
  split
  · exact ⟨-m, k, by rw [neg_mul, hk, Int.cast_neg]⟩
  · exact ⟨m, k, hk⟩

theorem shiftRight_pow (n m : ℕ) :
    ExtendedMantissa.mk (2 ^ n * m) false false >>> n = ⟨m, false, false⟩ := by
  induction n generalizing m with
  | zero => simp [HShiftRight.hShiftRight, Nat.repeat]
  | succ n ih =>
    have hstep : Nat.repeat ExtendedMantissa.shiftRightOne n ⟨2 ^ n * (2 * m), false, false⟩ =
        ⟨2 * m, false, false⟩ := ih (2 * m)
    simp only [HShiftRight.hShiftRight]
    rw [Nat.repeat, show 2 ^ (n + 1) * m = 2 ^ n * (2 * m) by ring, hstep]
    simp [ExtendedMantissa.shiftRightOne]

theorem targetExponent_eq (t : ℤ) : Format.binary64.targetExponent t = max (t - 53) (-1074) := rfl

/-- A power of two in the normal range is brought to 53 digits without a rest. -/
theorem shiftToTargetExponent_pow (i : ℕ) {e : ℤ} (hi : 52 ≤ i) (he : -1074 ≤ e) :
    shiftToTargetExponent Format.binary64 (2 ^ i) e .exact = (⟨2 ^ 52, false, false⟩, e + i - 52) := by
  have hamount :
      (Format.binary64.targetExponent (totalExponent (2 ^ i) e) - e).toNat = i - 52 := by
    rw [targetExponent_eq, totalExponent, Nat.log2_two_pow]
    omega
  have hsplit : 2 ^ i = 2 ^ (i - 52) * 2 ^ 52 := by
    rw [← pow_add]
    congr 1
    omega
  rw [shiftToTargetExponent, shiftToExponent, hamount]
  simp only [ExtendedMantissa.ofMantissaAndAccuracy]
  rw [hsplit, shiftRight_pow]
  congr 1
  omega

theorem roundWithAccuracy_pow (s : Sign) (i : ℕ) {e : ℤ} (hi : 52 ≤ i) (he : -1074 ≤ e) :
    roundWithAccuracy Format.binary64 s (2 ^ i) e .exact =
      .finite s (2 ^ 52) (e + i - 52) (Nat.two_pow_pos 52) := by
  have hround : ExtendedMantissa.roundedMantissa ⟨2 ^ 52, false, false⟩ = 2 ^ 52 := rfl
  have hagain : e + i - 52 + (52 : ℕ) - 52 = e + i - 52 := by omega
  unfold roundWithAccuracy
  rw [shiftToTargetExponent_pow i hi he]
  simp only [hround, shiftToTargetExponent_pow 52 le_rfl (by omega : -1074 ≤ e + i - 52), hagain]
  rfl

/-- One divided by a power of two. -/
theorem div_pow (s s' : Sign) {k : ℕ} (hk : k ≤ 1022) (h : 0 < 2 ^ 52) (h' : 0 < 2 ^ 52) :
    UnpackedFloat.div Format.binary64 (.finite s (2 ^ 52) (-52) h) (.finite s' (2 ^ 52) (k - 52) h') =
      .finite (s / s') (2 ^ 52) (-(k : ℤ) - 52) (Nat.two_pow_pos 52) := by
  have htotal : (totalExponent (2 ^ 52) (-52) - totalExponent (2 ^ 52) (k - 52) : ℤ) = -k := by
    simp only [totalExponent]
    omega
  have htarget : min ((-52 : ℤ) - (k - 52)) (Format.binary64.targetExponent (-k)) =
      max (-(k : ℤ) - 53) (-1074) := by
    rw [targetExponent_eq]
    omega
  obtain ⟨i, hi⟩ : ∃ i : ℕ, (-52 : ℤ) - (k - 52) - max (-(k : ℤ) - 53) (-1074) = i :=
    ⟨_, (Int.toNat_of_nonneg (by omega)).symm⟩
  have hcore : divCore Format.binary64 (2 ^ 52) (-52) (2 ^ 52) (k - 52) =
      (2 ^ i, max (-(k : ℤ) - 53) (-1074), .exact) := by
    unfold divCore
    simp only [htotal, htarget, hi, Int.toNat_natCast, Nat.shiftLeft_eq]
    rw [Nat.mul_div_cancel_left _ (Nat.two_pow_pos 52), Nat.mul_mod_right]
    rfl
  simp only [UnpackedFloat.div, hcore]
  rw [roundWithAccuracy_pow _ _ (by omega) (by omega)]
  congr 1
  omega

theorem sign_eq (x : Float) :
    (@unpackSign Format.binary64 x.toBits.toBitVec).toNat = (fields x).negative.toNat := by
  have hlt : x.toBits.toNat < 2 ^ 64 := x.toBits.toNat_lt
  have hsign : (@unpackSign Format.binary64 x.toBits.toBitVec).toNat =
      x.toBits.toNat / 2 ^ 63 % 2 := by
    simp [unpackSign, Nat.shiftRight_eq_div_pow]
  rw [hsign]
  simp only [fields]
  norm_num at *
  by_cases h : 9223372036854775808 ≤ x.toBits.toNat <;> simp [h] <;> omega

def signOf (negative : Bool) : Sign := if negative then .negative else .positive

/-- A double with a mantissa, from its fields. -/
theorem unpack_of_fields {x : Float} (he : (fields x).exponent ≠ Nat.pow 2 11 - 1)
    (hm : 0 < (fields x).magnitude.1) :
    x.toModel.unpack =
      .finite (signOf (fields x).negative) (fields x).magnitude.1 (fields x).magnitude.2 hm := by
  have hunpack : x.toModel.unpack = UnpackedFloat.unpack Format.binary64 x.toBits.toBitVec := rfl
  have hsign : Sign.ofBitVec (@unpackSign Format.binary64 x.toBits.toBitVec) =
      signOf (fields x).negative := by
    have hsign := sign_eq x
    unfold Sign.ofBitVec signOf
    rcases hn : (fields x).negative with _ | _ <;> rw [hn] at hsign
    · rw [if_pos (BitVec.eq_of_toNat_eq hsign)]
      rfl
    · rw [if_neg fun h => by rw [h] at hsign; cases hsign]
      rfl
  have hfraction := fraction_eq x
  have hmax : ¬ @unpackExponent Format.binary64 x.toBits.toBitVec = -1#_ :=
    fun h => he ((exponent_eq_iff x).mp h)
  have hmin : @unpackExponent Format.binary64 x.toBits.toBitVec = 0#_ ↔ (fields x).exponent = 0 := by
    rw [← BitVec.toNat_inj, exponent_eq x]
    rfl
  have hbias : ((Format.binary64.exponentBias : ℤ) + (52 : ℕ)) = 1075 := rfl
  rw [hunpack, UnpackedFloat.unpack]
  simp only [hmax, hmin, hsign, exponent_eq x, if_false, hbias]
  unfold Fields.magnitude at hm ⊢
  by_cases h : (fields x).exponent = 0
  · simp only [h, if_true] at hm ⊢
    have hne : ¬ @unpackMantissa Format.binary64 x.toBits.toBitVec = 0#_ := fun h0 =>
      hm.ne' ((fraction_eq_iff x).mp h0)
    simp only [hne, hfraction, dite_false]
    rfl
  · simp only [h, if_false] at hm ⊢
    have hmantissa : (1#1 ++ @unpackMantissa Format.binary64 x.toBits.toBitVec).toNat =
        Nat.pow 2 52 + (fields x).fraction := by
      rw [BitVec.toNat_append, hfraction, ← Nat.shiftLeft_add_eq_or_of_lt (fraction_lt x)]
      rfl
    simp only [hmantissa]

/-- A power of two from the fields of the double. -/
theorem unpack_pow {x : Float} {k : ℕ} (hk : k ≤ 1022) (he : (fields x).exponent = k + 1023)
    (hf : (fields x).fraction = 0) :
    x.toModel.unpack =
      .finite (signOf (fields x).negative) (2 ^ 52) (k - 52) (Nat.two_pow_pos 52) := by
  have hmagnitude : (fields x).magnitude = (2 ^ 52, (k : ℤ) - 52) := by
    unfold Fields.magnitude
    rw [if_neg (by omega), he, hf]
    exact Prod.ext rfl (by push_cast; ring)
  have hunpack := unpack_of_fields (x := x) (by norm_num [he]; omega) (by simp [hmagnitude])
  simpa only [hmagnitude] using hunpack

/-- The fields of what a mantissa and an exponent are packed into, if they are those of fields. -/
theorem fields_pack {f : Fields} (he : f.exponent < Nat.pow 2 11 - 1) (hf : f.fraction < Nat.pow 2 52)
    (hm : 0 < f.magnitude.1) :
    fields (.ofModel (.pack (.finite (signOf f.negative) f.magnitude.1 f.magnitude.2 hm))) = f := by
  have hbits : (Float.ofModel (.pack (.finite (signOf f.negative) f.magnitude.1 f.magnitude.2 hm))).toBits.toBitVec =
      UnpackedFloat.pack Format.binary64 (.finite (signOf f.negative) f.magnitude.1 f.magnitude.2 hm) := rfl
  generalize Float.ofModel (.pack (.finite (signOf f.negative) f.magnitude.1 f.magnitude.2 hm)) = x at hbits
  have hpack : UnpackedFloat.pack Format.binary64 (.finite (signOf f.negative) f.magnitude.1 f.magnitude.2 hm) =
      packComponents Format.binary64 (signOf f.negative) (BitVec.ofNat _ f.exponent)
        (BitVec.ofNat _ f.fraction) := by
    have hbias : Format.binary64.exponentBias = 1023 := rfl
    change f.exponent < 2047 at he
    change f.fraction < 2 ^ 52 at hf
    rw [UnpackedFloat.pack]
    unfold Fields.magnitude at hm ⊢
    simp only [hbias]
    by_cases h : f.exponent = 0
    · simp only [h, if_true] at hm ⊢
      have hdigits : f.fraction.log2 + 1 ≠ Format.binary64.mantissaBits := by
        have hlog := (Nat.log2_lt hm.ne').mpr hf
        change _ ≠ 53
        omega
      rw [if_neg (by decide), if_neg hdigits]
    · simp only [h, if_false] at hm ⊢
      have hexponent : ((f.exponent : ℤ) - 1075 + (1023 : ℕ) + (52 : ℕ)).toNat = f.exponent := by omega
      have hdigits : (Nat.pow 2 52 + f.fraction).log2 + 1 = Format.binary64.mantissaBits := by
        have hlow := (Nat.le_log2 hm.ne').mpr (Nat.le_add_right (2 ^ 52) f.fraction)
        have hhigh := (Nat.log2_lt hm.ne').mpr (show _ < 2 ^ 53 by change 2 ^ 52 + _ < _; omega)
        change _ = 53
        omega
      have hmantissa : BitVec.ofNat 52 (Nat.pow 2 52 + f.fraction) = BitVec.ofNat 52 f.fraction := by
        apply BitVec.eq_of_toNat_eq
        simp
      rw [hexponent, if_neg (by omega), if_pos hdigits, hmantissa]
  rw [hpack] at hbits
  have hsign := sign_eq x
  have hexponent := exponent_eq x
  have hfraction := fraction_eq x
  rw [hbits, unpackSign_packComponents] at hsign
  rw [hbits, unpackExponent_packComponents, BitVec.toNat_ofNat, Nat.mod_eq_of_lt (Nat.lt_of_lt_of_le he (by decide))] at hexponent
  rw [hbits, unpackMantissa_packComponents, BitVec.toNat_ofNat, Nat.mod_eq_of_lt (show _ < 2 ^ 52 from hf)] at hfraction
  refine fields_ext ?_ ⟨hexponent.symm, hfraction.symm⟩
  generalize (fields x).negative = n at hsign
  generalize f.negative = n' at hsign
  cases n <;> cases n' <;> first | rfl | cases hsign

/-- What a power of two is packed into. -/
theorem fields_pack_pow (negative : Bool) {e : ℤ} (hlow : -1074 ≤ e) (hhigh : e ≤ 970) (h : 0 < 2 ^ 52) :
    fields (.ofModel (.pack (.finite (signOf negative) (2 ^ 52) e h))) =
      ⟨negative, (e + 1075).toNat, 0⟩ := by
  have hmagnitude : (Fields.mk negative (e + 1075).toNat 0).magnitude = (2 ^ 52, e) := by
    unfold Fields.magnitude
    rw [if_neg (by dsimp only; omega)]
    exact Prod.ext (Nat.add_zero _) (by dsimp only; omega)
  have hexponent : (e + 1075).toNat < Nat.pow 2 11 - 1 := by
    norm_num
    omega
  have hpack := fields_pack (f := ⟨negative, (e + 1075).toNat, 0⟩) hexponent (Nat.two_pow_pos 52)
    (by rw [hmagnitude]; exact h)
  simp only [hmagnitude] at hpack
  exact hpack

theorem size_pow (negative : Bool) {k : ℕ} (hk : 0 < k) :
    (Fields.mk negative k 0).size = 2 ^ ((k : ℤ) - 1023) := by
  have hsplit : (2 : ℚ) ^ ((k : ℤ) - 1023) = 2 ^ (52 : ℤ) * 2 ^ ((k : ℤ) - 1075) := by
    rw [← zpow_add₀ two_ne_zero]
    congr 1
    ring
  rw [Fields.size, Fields.magnitude, if_neg hk.ne', twoPow_eq, hsplit]
  norm_num

theorem abs_number (f : Fields) : |f.number| = f.size := by
  unfold Fields.number
  split
  · rw [abs_neg, abs_of_nonneg f.size_nonneg]
  · exact abs_of_nonneg f.size_nonneg

/-- The fields of a power of two. -/
theorem fields_of_pow {b : Float} {q : ℚ} {k : ℕ} (hb : exact b = .finite q) (hq : |q| = 2 ^ k) :
    ∃ negative, fields b = ⟨negative, k + 1023, 0⟩ := by
  obtain ⟨-, hnumber⟩ := exact_eq_finite.mp hb
  have hexponent : ((k + 1023 : ℕ) : ℤ) - 1023 = k := by omega
  refine ⟨(fields b).negative, fields_ext rfl (size_unique (fraction_lt b) (Nat.two_pow_pos 52) ?_)⟩
  rw [← abs_number, hnumber, hq, size_pow _ (by omega), hexponent, zpow_natCast]

theorem unpack_one : (nearest 1).toModel.unpack = .finite .positive (2 ^ 52) (-52) (Nat.two_pow_pos 52) := by
  have hone : fields (nearest 1) = ⟨false, 1023, 0⟩ := by decide +kernel
  have hunpack := unpack_pow (x := nearest 1) (k := 0) (by omega) (by rw [hone]) (by rw [hone])
  rw [hunpack, hone]
  rfl

/-- One divided by the greatest power of two. -/
theorem exact_inverse_greatest {b : Float} {negative : Bool} (h : fields b = ⟨negative, 2046, 0⟩) :
    exact (Float.div (nearest 1) b) = .finite (1 / (fields b).number) := by
  rw [h]
  cases negative
  · obtain rfl : b = .ofBits (UInt64.ofNat (2046 * Nat.pow 2 52)) :=
      eq_of_fields (h.trans (by decide))
    decide +kernel
  · obtain rfl : b = .ofBits (UInt64.ofNat (Nat.pow 2 63 + 2046 * Nat.pow 2 52)) :=
      eq_of_fields (h.trans (by decide))
    decide +kernel

/-- One divided by a power of two is exact. -/
theorem exact_inverse {b : Float} {q : ℚ} {k : ℕ} (hb : exact b = .finite q) (hq : |q| = 2 ^ k) :
    exact (Float.div (nearest 1) b) = .finite (1 / q) := by
  obtain ⟨negative, hfields⟩ := fields_of_pow hb hq
  obtain ⟨hfinite, rfl⟩ := exact_eq_finite.mp hb
  have hk : k < 1024 := by
    have hlt := exponent_lt b
    rw [hfields] at hlt hfinite
    change k + 1023 < 2048 at hlt
    change k + 1023 ≠ 2047 at hfinite
    omega
  rcases Nat.lt_or_ge k 1023 with hlt | hge
  · have hunpack := unpack_pow (x := b) (k := k) (by omega) (by rw [hfields]) (by rw [hfields])
    rw [hfields] at hunpack
    have hsign : Sign.positive / signOf negative = signOf negative := by cases negative <;> rfl
    have hdiv : Float.div (nearest 1) b = .ofModel (.pack (.finite (signOf negative) (2 ^ 52)
        (-(k : ℤ) - 52) (Nat.two_pow_pos 52))) := by
      have hmodel : Float.div (nearest 1) b = .ofModel (.pack (UnpackedFloat.div Format.binary64
        (nearest 1).toModel.unpack b.toModel.unpack)) := rfl
      rw [hmodel, unpack_one, hunpack, div_pow _ _ (by omega), hsign]
    have hquotient := fields_pack_pow negative (e := -(k : ℤ) - 52) (by omega) (by omega)
      (Nat.two_pow_pos 52)
    have hexponent : ((-(k : ℤ) - 52 + 1075).toNat : ℤ) - 1023 = -k := by omega
    have hinverse : ((k + 1023 : ℕ) : ℤ) - 1023 = k := by omega
    rw [exact_eq_finite, hdiv, hquotient, hfields]
    refine ⟨?_, ?_⟩
    · change _ ≠ 2047
      dsimp only
      omega
    · unfold Fields.number
      rw [size_pow _ (by omega), size_pow _ (by omega), hexponent, hinverse, zpow_neg, one_div]
      cases negative
      · rfl
      · exact (inv_neg (a := (2 : ℚ) ^ (k : ℤ))).symm
  · obtain rfl : k = 1023 := by omega
    exact exact_inverse_greatest hfields

end DecisionModel.Double
