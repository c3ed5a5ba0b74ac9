import Mathlib.Data.Nat.Prime.Basic
import Mathlib.Tactic.FieldSimp
import DecisionModel.Number.DoubleScalar
import DecisionModel.Proofs.Builder.Names
import DecisionModel.Proofs.Lowering.Memo
import DecisionModel.Proofs.Number.Double
import DecisionModel.Proofs.Number.Rounding
import DecisionModel.Proofs.Z3.Interpretation

/-!
# Quotients by a constant for Z3

A term that is divided by a constant, or averaged, is multiplied by the reciprocal of the divisor, which
was computed as a double (`runs_divide`). So the value is right for every value of the term if and only
if the literal of that double stands for the reciprocal (`quotient_exact_iff`). Taken for what the doubles
are, this is so for the powers of two among the integers (`readExactly_reciprocal`); taken for the texts
of the doubles, which are decimals, it can be so only if two and five are the only prime factors.
-/

namespace DecisionModel

open LowerM

namespace Z3

open Tolerant

/-- The back-end of Z3 for doubles. -/
abbrev doubles : Backend Float (Number Float) (Encoding Float (Solver Float)) := backend primitives

/-- One divided by a double, as it is computed. -/
def reciprocal (b : Float) : Float := Scalar.div Scalar.one b

/-! ### Readings of literals -/

/-- The shortest decimal that reads back as a finite double. -/
def decimal (x : Float) : ℚ :=
  match Double.exact x with
  | .finite q =>
    if q = 0 then 0
    else (if q < 0 then -1 else 1) * (Decimal.shortest (Double.fields x).roundsTo |q|).toRat
  | _ => 0

section

variable {K : Type} [Field K]

/-- The value of a finite double. -/
def readExactly (x : Float) : K :=
  match Double.exact x with
  | .finite q => q
  | _ => 0

/-- The decimal that is written for a double. -/
def readText (x : Float) : K := (decimal x : K)

/-- Literals stand for finite decimals. -/
def Interpretation.ReadsDecimals (I : Interpretation Float K) : Prop :=
  ∀ x, ∃ (m : ℤ) (k : ℕ), I.literal x * 10 ^ k = m

end

theorem tenPow_decimal (e : ℤ) : ∃ (m : ℤ) (k : ℕ), Decimal.tenPow e * 10 ^ k = m := by
  obtain ⟨n, rfl | rfl⟩ := e.eq_nat_or_neg
  · exact ⟨10 ^ n, 0, by rw [Decimal.tenPow_eq]; simp⟩
  · exact ⟨1, n, by rw [Decimal.tenPow_eq]; simp⟩

theorem decimal_decimal (x : Float) : ∃ (m : ℤ) (k : ℕ), decimal x * 10 ^ k = m := by
  unfold decimal
  split
  · split
    · exact ⟨0, 0, by simp⟩
    · rename_i q _ _
      obtain ⟨m, k, hk⟩ := tenPow_decimal (Decimal.shortest (Double.fields x).roundsTo |q|).exponent
      refine ⟨(if q < 0 then -1 else 1) * (Decimal.shortest (Double.fields x).roundsTo |q|).coefficient * m,
        k, ?_⟩
      rw [Decimal.toRat, mul_assoc, mul_assoc, hk]
      push_cast
      ring
  · exact ⟨0, 0, by simp⟩

theorem readsDecimals_readText {K : Type} [Field K] [CharZero K] {I : Interpretation Float K}
    (h : I.literal = readText) : I.ReadsDecimals := fun x => by
  obtain ⟨m, k, hk⟩ := decimal_decimal x
  refine ⟨m, k, ?_⟩
  rw [h, readText]
  exact_mod_cast congrArg (Rat.cast (K := K)) hk

/-! ### Divisions -/

/-- A node divides what `dividend` lowers by the constant `b`: a quotient, or an average over inline
operands, which divides their sum by their number. -/
inductive Divides (c : Context Float) : Term Float → Z3M Float (Handle (Number Float)) → Float → Prop
  | quotient {id : NodeId} {a : Term Float} {ts : List (Term Float)} {b : Float} :
    Divides c (.node id .quotient (a :: ts ++ [.const b]))
      (Backend.chain doubles.divide (Backend.operandsOf doubles c (a :: ts))) b
  | average {id : NodeId} {ts : List (Term Float)} :
    Operand.soleCollection? (Backend.operandsOf doubles c ts) = none →
      Divides c (.node id (.custom "avg") ts)
        (Backend.chain doubles.add (Backend.operandsOf doubles c ts)) (Scalar.ofInt ts.length)

/-- What stands for the quotient of `x` by `n`: the product of `x` and the reciprocal of the double `b`. -/
structure Divided {K : Type} [Field K] [LinearOrder K] (I : Interpretation Float K)
    (x h : Handle (Number Float)) (s : Z3State Float) (b : Float) (n : ℤ) : Prop where
  value (ρ : HandleId → K) : I.value ρ h = I.value ρ x * I.literal (reciprocal b)
  exact_iff (ρ : HandleId → K) :
    I.value ρ h = I.value ρ x / n ↔ I.value ρ x = 0 ∨ I.literal (reciprocal b) = 1 / n
  /-- A variable that is defined as the quotient is tied to the product. -/
  defined (ρ : HandleId → K) (name : String) (v : Handle (Number Float)) :
    ∃ s', (doubles.postDefinition name v h).Runs s () s' ∧
      (I.Admits ρ s' ↔ I.Admits ρ s ∧ I.value ρ v = I.value ρ h)
  double_iff : I.literal = readExactly → (I.literal (reciprocal b) = 1 / n ↔ ∃ k : ℕ, n.natAbs = 2 ^ k)
  decimal : I.ReadsDecimals → I.literal (reciprocal b) = 1 / n → ∃ k : ℕ, n ∣ 10 ^ k

variable {c : Context Float} {t : Term Float} {dividend : Z3M Float (Handle (Number Float))} {b : Float}
  {n : ℤ} {id : NodeId} {s s₁ : Z3State Float} {x : Handle (Number Float)}

/-- The last operand of a chain is combined with what the chain makes of the others. -/
theorem chain_append {α ν σ : Type} (f : Handle ν → Handle ν → LowerM α ν σ (Handle ν))
    (o o' : Operand α ν σ) (os : List (Operand α ν σ)) :
    Backend.chain f (o :: os ++ [o']) =
      Backend.chain f (o :: os) >>= fun x => o'.lower >>= fun y => f x y := by
  simp only [Backend.chain, List.cons_append, List.foldlM_append, List.foldlM_cons, List.foldlM_nil,
    bind_pure, bind_assoc]

theorem operandsOf_append {α ν σ : Type} [Scalar α] [Numeral ν] (B : Backend α ν σ) (c : Context α)
    (ts us : List (Term α)) :
    Backend.operandsOf B c (ts ++ us) = Backend.operandsOf B c ts ++ Backend.operandsOf B c us := by
  induction ts with
  | nil => rfl
  | cons t ts ih => rw [List.cons_append, Backend.operandsOf, ih, Backend.operandsOf, List.cons_append]

theorem length_operandsOf {α ν σ : Type} [Scalar α] [Numeral ν] (B : Backend α ν σ) (c : Context α)
    (ts : List (Term α)) : (Backend.operandsOf B c ts).length = ts.length := by
  induction ts with
  | nil => rfl
  | cons t ts ih => rw [Backend.operandsOf, List.length_cons, List.length_cons, ih]

/-- An average that is not over a collection is one over inline operands. -/
theorem lowerCustom_avg {α ν σ : Type} [Scalar α] [Numeral ν] (B : Backend α ν σ) (c : Context α)
    {operands : List (Operand α ν σ)} (h : Operand.soleCollection? operands = none) :
    Backend.lowerCustom B c "avg" operands = Backend.lowerInline B "avg" operands := by
  unfold Backend.lowerCustom
  simp only [h]
  split
  · rfl
  · rfl

/-- A term divided by a constant is multiplied by the reciprocal. -/
theorem runs_divide (hterm : x.number? = none) (hb : (Number.real b).isZero = false) :
    (doubles.divide x (scalar b)).Runs s (.node ⟨s.nextHandle⟩ .mul [x, scalar (reciprocal b)])
      { s with nextHandle := s.nextHandle + 1 } := by
  have hdivide : doubles.divide x (scalar b) = LowerM.mul x (scalar (reciprocal b)) := by
    change divide primitives x (scalar b) = _
    have hnumber : (scalar b).number? = some (Number.real b) := rfl
    simp only [divide, hterm, hnumber, hb]
    rfl
  rw [hdivide]
  cases x with
  | const x => cases hterm
  | _ => exact runs_node.mpr ⟨rfl, rfl⟩

/-- A division that is lowered for the first time divides what its dividend is lowered to. -/
theorem runs_divides (ht : Divides c t dividend b) (hid : t.identity? = some id)
    (hnew : s.memo? id = none) (hx : dividend.Runs s x s₁) {h : Handle (Number Float)} {s' : Z3State Float}
    (hdivide : (doubles.divide x (scalar b)).Runs s₁ h s') :
    (Backend.translate doubles c t).Runs s h { s' with memo := (id, h) :: s'.memo } := by
  have hmemo {run : Z3M Float (Handle (Number Float))} (hrun : run.Runs s h s') :
      (Backend.memoized id run).Runs s h { s' with memo := (id, h) :: s'.memo } := by
    refine runs_bind.mpr ⟨s, s, runs_get.mpr ⟨rfl, rfl⟩, ?_⟩
    rw [show (s.memo.find? (·.1 = id)).map (·.2) = none from hnew]
    exact runs_bind.mpr ⟨h, s', hrun, runs_bind.mpr ⟨⟨⟩, _, runs_modify.mpr rfl, runs_pure.mpr ⟨rfl, rfl⟩⟩⟩
  have hconst : (doubles.constant b).Runs s₁ (scalar b) s₁ := runs_pure.mpr ⟨rfl, rfl⟩
  cases ht with
  | quotient =>
    cases hid
    rw [Backend.translate]
    refine hmemo ?_
    rw [operandsOf_append, Backend.operandsOf]
    simp only [Backend.lowerNode, Backend.operandsOf, chain_append, runs_bind]
    exact ⟨x, s₁, hx, scalar b, s₁, hconst, hdivide⟩
  | average hinline =>
    cases hid
    rw [Backend.translate]
    refine hmemo ?_
    change (Backend.lowerCustom doubles c "avg" (Backend.operandsOf doubles c _)).Runs s h s'
    rw [lowerCustom_avg doubles c hinline]
    rw [← length_operandsOf doubles c] at hdivide hconst
    exact runs_bind.mpr ⟨x, s₁, hx, runs_bind.mpr ⟨scalar _, s₁, hconst, hdivide⟩⟩

/-! ### Which reciprocals are exact -/

theorem isZero_of_exact (hb : Double.exact b = .finite n) (hn : n ≠ 0) :
    (Number.real b).isZero = false := by
  change (Double.exact b).eq (.finite 0) = false
  rw [hb]
  exact decide_eq_false (Int.cast_ne_zero.mpr hn)

section

variable {K : Type} [Field K] [LinearOrder K] [IsStrictOrderedRing K]

/-- Among the integers, the reciprocals of the powers of two are doubles. -/
theorem readExactly_reciprocal (hb : Double.exact b = .finite n) (hn : n ≠ 0) :
    (readExactly (reciprocal b) : K) = 1 / n ↔ ∃ k : ℕ, n.natAbs = 2 ^ k := by
  constructor
  · intro h
    unfold readExactly at h
    split at h
    · rename_i q hq
      obtain ⟨m, k, hk⟩ := Double.exact_dyadic hq
      have hq : q = 1 / n := by exact_mod_cast h
      have hpow : m * n = 2 ^ k := by
        have hcast : (m : ℚ) * n = 2 ^ k := by
          rw [← hk, hq]
          field_simp
        exact_mod_cast hcast
      have hdvd : n.natAbs ∣ 2 ^ k := by
        have hn : n ∣ 2 ^ k := ⟨m, by rw [← hpow, mul_comm]⟩
        simpa [Int.natAbs_pow] using Int.natAbs_dvd_natAbs.mpr hn
      obtain ⟨j, -, hj⟩ := (Nat.dvd_prime_pow Nat.prime_two).mp hdvd
      exact ⟨j, hj⟩
    · exact absurd h.symm (one_div_ne_zero (Int.cast_ne_zero.mpr hn))
  · rintro ⟨k, hk⟩
    have habs : |(n : ℚ)| = 2 ^ k := by
      rw [← Int.cast_abs, Int.abs_eq_natAbs, hk]
      norm_cast
    have hinverse : Double.exact (reciprocal b) = .finite (1 / n) := Double.exact_inverse hb habs
    rw [readExactly, hinverse]
    push_cast
    rfl

end

/-! ### Quotients -/

theorem exact_zero : (realZero : Number Float).exact = .finite 0 := by decide +kernel

theorem within_zero {K : Type} [Field K] [LinearOrder K] {x : K} :
    Within (.finite 0) (.finite 0) x ↔ x = 0 := by
  simp only [Within, Exact.finite.injEq, forall_eq', Rat.cast_zero]
  exact ⟨fun h => le_antisymm h.2 h.1, fun h => ⟨h.ge, h.le⟩⟩

/-- A term can be required to be zero. -/
theorem runs_constrain_zero {δ : Handle (Number Float)} (hterm : δ.number? = none) (s : Z3State Float) :
    ∃ s', (constrain primitives δ realZero realZero).Runs s () s' := by
  have hsame : Numeral.holds .eq (realZero : Number Float) realZero = true := by
    change Comparison.holdsExactly .eq realZero.exact realZero.exact = true
    rw [exact_zero]
    rfl
  have hexact (s : Z3State Float) : (exactTerm (realZero : Number Float)).Runs s (integer 0) s := by
    refine runs_bind.mpr ⟨0, s, runs_lift.mpr ⟨by rw [exact_zero]; rfl, rfl⟩, ?_⟩
    exact runs_pure.mpr ⟨rfl, rfl⟩
  have hrange (name : String) (s : Z3State Float) :
      ∃ s', (addRange δ realZero realZero name).Runs s () s' := by
    unfold addRange
    rw [if_pos hsame]
    exact ⟨_, runs_bind.mpr ⟨_, s, hexact s, rfl⟩⟩
  simp only [constrain, hterm]
  obtain ⟨s', hs'⟩ := hrange ("c" ++ "#" ++ toString (s.auxiliaries + 1)) _
  exact ⟨s', runs_bind.mpr ⟨_, _, runs_auxiliaryName.mpr ⟨rfl, rfl⟩, runs_bind.mpr ⟨(), _, rfl, hs'⟩⟩⟩

/-- A variable defined as a node is tied to it by an equality. -/
theorem runs_postDefinition {id : HandleId} {f : SolverFunction} {args : List (Handle (Number Float))}
    (name : String) (v : Handle (Number Float)) (s : Z3State Float) :
    ∃ s', (doubles.postDefinition name v (.node id f args)).Runs s () s' ∧
      ∀ {K : Type} [Field K] [LinearOrder K] (I : Interpretation Float K) (ρ : HandleId → K),
        I.Admits ρ s' ↔ I.Admits ρ s ∧ I.value ρ v = I.value ρ (.node id f args) := by
  let h : Handle (Number Float) := .node id f args
  let δ : Handle (Number Float) := .node ⟨s.nextHandle⟩ .sub [v, h]
  have hsub : (LowerM.sub v h : Z3M Float _).Runs s δ { s with nextHandle := s.nextHandle + 1 } := by
    cases v <;> exact runs_node.mpr ⟨rfl, rfl⟩
  obtain ⟨s', hs'⟩ := runs_constrain_zero (δ := δ) rfl { s with nextHandle := s.nextHandle + 1 }
  refine ⟨s', runs_bind.mpr ⟨δ, _, hsub, hs'⟩, fun I ρ => ?_⟩
  have hvalue : I.value ρ δ = I.value ρ v - I.value ρ h := Interpretation.value_node _ _
  rw [admits_constrain I ρ rfl hs', exact_zero, within_zero, hvalue, sub_eq_zero]
  exact Iff.rfl

/-- Dividing a term by a constant that is an integer returns, and the result is the quotient where the
term is zero, or the literal of the reciprocal is exact. -/
theorem quotient_exact_iff (ht : Divides c t dividend b) (hb : Double.exact b = .finite n) (hn : n ≠ 0)
    (hid : t.identity? = some id) (hnew : s.memo? id = none) (hx : dividend.Runs s x s₁)
    (hterm : x.number? = none) :
    ∃ h s', (Backend.translate doubles c t).Runs s h s' ∧
      ∀ {K : Type} [Field K] [LinearOrder K] [IsStrictOrderedRing K] (I : Interpretation Float K),
        Divided I x h s' b n := by
  have hruns := runs_divides ht hid hnew hx (runs_divide hterm (isZero_of_exact hb hn))
  refine ⟨_, _, hruns, fun {K} _ _ _ I => ?_⟩
  have hvalue (ρ : HandleId → K) : I.value ρ (.node ⟨s₁.nextHandle⟩ .mul [x, scalar (reciprocal b)]) =
      I.value ρ x * I.literal (reciprocal b) := by
    simp [Interpretation.apply, scalar, Interpretation.number]
  refine ⟨hvalue, fun ρ => ?_, fun ρ name v => ?_, fun hread => ?_, fun hread heq => ?_⟩
  · rw [hvalue, div_eq_mul_one_div, mul_eq_mul_left_iff, or_comm]
  · obtain ⟨s', hruns, hadmits⟩ := runs_postDefinition name v _
    exact ⟨s', hruns, hadmits I ρ⟩
  · rw [hread]
    exact readExactly_reciprocal hb hn
  · obtain ⟨m, k, hk⟩ := hread (reciprocal b)
    refine ⟨k, m, ?_⟩
    have hcast : (10 : K) ^ k = n * m := by
      rw [← hk, heq]
      have hne : (n : K) ≠ 0 := Int.cast_ne_zero.mpr hn
      field_simp
    exact_mod_cast hcast

end Z3

/-! ### A third and a quarter -/

namespace Thirds

open Double Z3 Tolerant

/-- A variable from zero to nine, and an integral one defined as its third. -/
def calls : List (DecisionModel.Call Float) :=
  [.newModel .feasible, .addVariable ⟨0⟩ .integer "x" (.int 0) (.int 9) (.literal .absent),
    .divide (.term (.var ⟨0⟩)) (.literal (.int 3)),
    .addVariable ⟨0⟩ .integer "q" .absent .absent
      (.term (.node ⟨1⟩ .quotient [.var ⟨0⟩, .const (nearest 3)]))]

def context : Context Float := ⟨.afterCalls {} calls, ⟨0⟩, {}⟩

def lowered : Z3State Float := ((Z3.lowerModel context).run.run Z3.initial).2

def readingExactly : Interpretation Float ℚ := ⟨readExactly, fun _ => 0, fun x _ => x⟩

def readingTexts : Interpretation Float ℚ := ⟨readText, fun _ => 0, fun x _ => x⟩

/-- Three, and one for its third. -/
def three (id : HandleId) : ℚ := if id.index = 0 then 3 else 1

/-- However literals are read, the third of three is not one, and one is not accepted for it. -/
theorem third_rejected :
    ((lowered.memo? ⟨1⟩).map (readingExactly.value three) ≠ some (3 / 3) ∧
      ¬ readingExactly.Admits three lowered) ∧
    (lowered.memo? ⟨1⟩).map (readingTexts.value three) ≠ some (3 / 3) ∧
      ¬ readingTexts.Admits three lowered := by
  decide +kernel

/-- A quarter is exact, and a third only of zero where the texts of the doubles are read. -/
theorem quarter_exact : (∃ x s₁ h s',
    (Backend.chain doubles.divide (Backend.operandsOf doubles context [.var ⟨0⟩])).Runs lowered x s₁ ∧
      (Backend.translate doubles context (.node ⟨2⟩ .quotient [.var ⟨0⟩, .const (nearest 4)])).Runs
        lowered h s' ∧
      ∀ ρ, readingExactly.value ρ h = readingExactly.value ρ x / 4) ∧
    ∃ x s₁ h s',
      (Backend.chain doubles.divide (Backend.operandsOf doubles context [.var ⟨0⟩])).Runs lowered x s₁ ∧
        (Backend.translate doubles context (.node ⟨2⟩ .quotient [.var ⟨0⟩, .const (nearest 3)])).Runs
          lowered h s' ∧
        ∀ ρ, readingTexts.value ρ h = readingTexts.value ρ x / 3 ↔ readingTexts.value ρ x = 0 := by
  let dividend := Backend.chain doubles.divide (Backend.operandsOf doubles context [.var ⟨0⟩])
  obtain ⟨x, hx, hterm⟩ := Option.map_eq_some_iff.mp (show (dividend.run.run lowered).1.toOption.map
    Handle.number? = some none by decide +kernel)
  have hr := runs_of_toOption hx
  have hnew : lowered.memo? ⟨2⟩ = none := Option.not_isSome_iff_eq_none.mp (by decide +kernel)
  constructor
  · have hdivides := @Divides.quotient context ⟨2⟩ (.var ⟨0⟩) [] (nearest 4)
    obtain ⟨h, s', hruns, hdivided⟩ := quotient_exact_iff (n := 4) hdivides (by decide +kernel)
      (by decide) rfl hnew hr hterm
    have hreading := hdivided readingExactly
    refine ⟨x, _, h, s', hr, hruns, fun ρ => ?_⟩
    exact_mod_cast (hreading.exact_iff ρ).mpr (.inr ((hreading.double_iff rfl).mpr ⟨2, rfl⟩))
  · have hdivides := @Divides.quotient context ⟨2⟩ (.var ⟨0⟩) [] (nearest 3)
    obtain ⟨h, s', hruns, hdivided⟩ := quotient_exact_iff (n := 3) hdivides (by decide +kernel)
      (by decide) rfl hnew hr hterm
    have hreading := hdivided readingTexts
    have hinexact : readingTexts.literal (reciprocal (nearest 3)) ≠ 1 / (3 : ℤ) := fun heq => by
      obtain ⟨k, hk⟩ := hreading.decimal (readsDecimals_readText rfl) heq
      have hten : (3 : ℤ) ∣ 10 := Int.prime_three.dvd_of_dvd_pow hk
      omega
    refine ⟨x, _, h, s', hr, hruns, fun ρ => ?_⟩
    have hiff := hreading.exact_iff ρ
    rw [or_iff_left hinexact] at hiff
    exact_mod_cast hiff

end Thirds

end DecisionModel
