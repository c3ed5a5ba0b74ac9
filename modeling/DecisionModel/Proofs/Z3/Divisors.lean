import DecisionModel.Proofs.Builder.Names
import DecisionModel.Proofs.Z3.Collected

/-!
# Divisors for Z3

A quotient by a term, or a power with a negative exponent, becomes a quotient of Z3, and nothing is
collected with it that keeps the divisor away from zero. Where the divisor is zero, Z3 takes the quotient
for what it likes (`Reciprocal.zero_admitted`).

Only the model can exclude that: by the bounds of a variable, or by a constraint that compares the
divisor with a constant and does not tolerate zero for it (`Guarded`). Then quotients and powers are what
they are in the field (`inverts_of_guarded`).
-/

namespace DecisionModel

open LowerM

namespace Z3

open Tolerant

variable {α K : Type} [Scalar α] [Field K] [LinearOrder K] {I : Interpretation α K} {ρ : HandleId → K}
  {c : Context α} {model : Model α} {h : Handle (Number α)} {s s' : Z3State α}

/-! ### Divisions -/

/-- The term has an inverse: a quotient by it, and a power of it with a negative exponent, are what they
are in the field, whatever quotients by zero are taken for. -/
structure Interpretation.Inverts (I : Interpretation α K) (ρ : HandleId → K) (h : Handle (Number α)) :
    Prop where
  ne_zero : I.value ρ h ≠ 0
  quotient {x k : Handle (Number α)} {s s' : Z3State α} :
    ((backend primitives).divide x h).Runs s k s' → I.value ρ k = I.value ρ x / I.value ρ h
  power {e : α} {n : ℤ} {k : Handle (Number α)} {s s' : Z3State α} : Scalar.exact e = .finite n → n < 0 →
    ((backend primitives).power h (scalar e)).Runs s k s' → I.value ρ k = I.value ρ h ^ n

omit [Scalar α] in
theorem value_of_realTerm {k : Handle (Number α)} (hr : (realTerm h).Runs s k s') :
    I.value ρ k = I.value ρ h := by
  unfold realTerm at hr
  split at hr
  · obtain ⟨rfl, -⟩ := runs_node.mp hr
    rw [Interpretation.value_node]
    rfl
  · obtain ⟨rfl, -⟩ := runs_pure.mp hr
    rfl

theorem value_of_repeatedProduct (hterm : h.number? = none) {n : ℕ} {k : Handle (Number α)}
    (hr : (repeatedProduct h n).Runs s k s') :
    k.number? = none ∧ I.value ρ k = I.value ρ h ^ (n + 1) := by
  induction n generalizing k s' with
  | zero =>
    obtain ⟨rfl, -⟩ := runs_pure.mp hr
    exact ⟨hterm, by rw [zero_add, pow_one]⟩
  | succ n ih =>
    obtain ⟨product, s₁, hproduct, hmul⟩ := runs_bind.mp hr
    obtain ⟨hproduct, hvalue⟩ := ih hproduct
    rw [LowerM.mul, binary_of_term _ _ hproduct] at hmul
    obtain ⟨rfl, -⟩ := runs_node.mp hmul
    refine ⟨rfl, ?_⟩
    rw [Interpretation.value_node, pow_succ, ← hvalue]
    rfl

omit [Scalar α] in
/-- A quotient of Z3 by a term that is not zero. -/
theorem value_of_quotient {x k : Handle (Number α)} (hne : I.value ρ h ≠ 0)
    (hr : (do node .div [x, ← realTerm h] : Z3M α _).Runs s k s') :
    I.value ρ k = I.value ρ x / I.value ρ h := by
  obtain ⟨y, s₁, hreal, hnode⟩ := runs_bind.mp hr
  obtain ⟨rfl, -⟩ := runs_node.mp hnode
  have hvalue : I.value ρ y = I.value ρ h := value_of_realTerm hreal
  rw [Interpretation.value_node]
  change I.quotient (I.value ρ x) (I.value ρ y) = _
  rw [hvalue, Interpretation.quotient_of_ne_zero hne]

/-- A power with a negative exponent is the reciprocal of a product. -/
theorem value_of_power {e : α} {n : ℤ} (he : Scalar.exact e = .finite n) (hn : n < 0)
    (hterm : h.number? = none) (hne : I.value ρ h ≠ 0) {k : Handle (Number α)}
    (hr : (Z3.power h e).Runs s k s') : I.value ρ k = I.value ρ h ^ n := by
  have hinteger : Scalar.isInteger e = true := by simp [Scalar.isInteger, he, Exact.isInteger]
  have htruncate : (Scalar.exact e).truncate = .ok n := by simp [he, Exact.truncate, Exact.toIntBy]
  rw [Z3.power, if_pos hinteger, htruncate] at hr
  obtain ⟨m, _, hlift, hr⟩ := runs_bind.mp hr
  obtain ⟨hm, rfl⟩ := runs_lift.mp hlift
  obtain rfl := Except.ok.inj hm
  obtain ⟨product, s₁, hproduct, hr⟩ := runs_bind.mp hr
  rw [if_pos hn] at hr
  obtain ⟨-, hvalue⟩ := value_of_repeatedProduct (I := I) (ρ := ρ) hterm hproduct
  have hcount : n.natAbs - 1 + 1 = n.natAbs := by omega
  rw [hcount] at hvalue
  have hone : I.value ρ (integer 1) = 1 := by simp [integer, Interpretation.number]
  rw [value_of_quotient (by rw [hvalue]; exact pow_ne_zero _ hne) hr, hone, hvalue, one_div,
    ← zpow_natCast, ← zpow_neg]
  congr 1
  omega

theorem inverts_of_ne_zero (hterm : h.number? = none) (hne : I.value ρ h ≠ 0) : I.Inverts ρ h where
  ne_zero := hne
  quotient {x k s s'} hr := by
    have hquotient : (backend primitives).divide x h = Z3.quotient x h := by
      change divide primitives x h = _
      simp only [divide, hterm]
      rfl
    rw [hquotient] at hr
    exact value_of_quotient hne hr
  power {e n k s s'} he hn hr := by
    have hpower : (backend primitives).power h (scalar e) = Z3.power h e := by
      have hzero : (Number.real e).isZero = false := by
        simp [Number.isZero, Number.exact, he, Exact.eq, hn.ne]
      have hone : Numeral.holds .eq (Number.real e) (.int 1) = false := by
        change (Scalar.exact e).eq (.finite 1) = false
        rw [he]
        exact decide_eq_false (by exact_mod_cast (show n ≠ 1 by omega))
      change Tolerant.power primitives h (scalar e) = _
      have hnumber : (scalar e).number? = some (Number.real e) := rfl
      simp only [Tolerant.power, hterm, hnumber, hzero, hone]
      rfl
    rw [hpower] at hr
    exact value_of_power he hn hterm hne hr

/-! ### Guards -/

/-- Zero is excluded for a term: by the bounds of a variable, or by a constraint that compares the term
with a constant. -/
inductive Guarded (I : Interpretation α K) (c : Context α) (model : Model α) : Term α → Prop
  | bounds {v : VarId} : (∀ lower upper, CreatedWithin c model v lower upper →
      ¬ Within (Scalar.exact lower) (Scalar.exact upper) (0 : K)) → Guarded I c model (.var v)
  | comparison {t d : Term α} {id : NodeId} {k : Comparison} {x : α} {rest : List (Term α)} :
    t ∈ model.constraints → (Term.node id (.comparison k) (d :: .const x :: rest)).Conjunct t →
      ¬ Tolerates (toleranceOf c) k (0 - I.literal x) → Guarded I c model d

/-- What is guarded is not zero in any solution, and can be divided by. -/
theorem inverts_of_guarded [IsStrictOrderedRing K] (hmodel : c.workspace.findModel c.model = some model)
    (hlowered : (Z3.lowerModel c).Runs initial () s) (hρ : I.Admits ρ s) {d : Term α}
    (hd : Guarded I c model d) (hh : (Backend.translate (backend primitives) c d).Runs s h s)
    (hterm : h.number? = none) : I.Inverts ρ h := by
  refine inverts_of_ne_zero hterm fun hzero => ?_
  cases hd with
  | bounds hexcluded =>
    obtain ⟨lower, upper, hcreated, hwithin⟩ := within_of_lowered hmodel hlowered hρ hh
    exact hexcluded lower upper hcreated (hzero ▸ hwithin)
  | comparison ht hconjunct hexcluded =>
    have htolerates := tolerates_of_conjunct hmodel hlowered hρ ht hconjunct hh hterm
    exact hexcluded (hzero ▸ htolerates)

end Z3

/-! ### Ten divided by a variable, and its reciprocal -/

namespace Reciprocal

open Z3 Tolerant

def quotient : Term Exact := .node ⟨1⟩ .quotient [.const (.finite 10), .var ⟨0⟩]

def power : Term Exact := .node ⟨3⟩ (.custom "pow") [.var ⟨0⟩, .const (.finite (-1))]

/-- A variable from zero to five divides ten and is raised to the power of minus one; the results have to be
at least one. Guards may follow. -/
def calls (guards : List (DecisionModel.Call Exact)) : List (DecisionModel.Call Exact) :=
  [.newModel .feasible, .addVariable ⟨0⟩ .integer "x" (.int 0) (.int 5) (.literal .absent),
    .divide (.literal (.int 10)) (.term (.var ⟨0⟩)),
    .relate .ge (.term quotient) (.literal (.int 1)),
    .addConstraint ⟨0⟩ (.term (.node ⟨2⟩ (.comparison .ge) [quotient, .const (.finite 1)])),
    .custom "pow" [.term (.var ⟨0⟩), .literal (.int (-1))],
    .relate .ge (.term power) (.literal (.int 1)),
    .addConstraint ⟨0⟩ (.term (.node ⟨4⟩ (.comparison .ge) [power, .const (.finite 1)]))] ++ guards

def context (guards : List (DecisionModel.Call Exact)) : Context Exact :=
  ⟨.afterCalls {} (calls guards), ⟨0⟩, {}⟩

def lowered (guards : List (DecisionModel.Call Exact)) : Z3State Exact :=
  ((Z3.lowerModel (context guards)).run.run Z3.initial).2

/-- A quotient by zero is seven. -/
def reading : Interpretation Exact ℚ where
  literal x := (x.toRat.toOption).getD 0
  byZero _ := 7
  power x _ := x

def zeroSolution : Solution Exact := { model := ⟨0⟩, values := [(⟨0⟩, .finite 0)] }

/-- Without a guard, zero is a solution for Z3; evaluation finds neither result defined. -/
theorem zero_admitted : ((Z3.lowerModel (context [])).run.run Z3.initial).1.toOption = some () ∧
    reading.Admits (fun _ => 0) (lowered []) ∧
    ((lowered []).handle? ⟨0⟩).map (reading.value fun _ => 0) = some 0 ∧
    (zeroSolution.errors (context []).workspace).toOption =
      some ["undefined: 10.00 / x >= 1.00 (division by zero in 10.00 / x)",
        "undefined: pow( x, -1.00 ) >= 1.00 (pow(0.0, -1.0) is undefined: math domain error)"] := by
  decide +kernel

/-- The variable is not zero. -/
def guard : Term Exact := .node ⟨5⟩ (.comparison .ne) [.var ⟨0⟩, .const (.finite 0)]

def guards : List (DecisionModel.Call Exact) :=
  [.relate .ne (.term (.var ⟨0⟩)) (.literal (.int 0)), .addConstraint ⟨0⟩ (.term guard)]

/-- With a guard there are solutions for Z3, in which the variable can be divided by, and zero is none. -/
theorem zero_excluded : ∃ h s, (Z3.lowerModel (context guards)).Runs Z3.initial () s ∧
    (Backend.translate (backend primitives) (context guards) (.var ⟨0⟩)).Runs s h s ∧
    reading.Admits (fun _ => 1) s ∧ reading.Inverts (fun _ => 1) h ∧
    ¬ reading.Admits (fun _ => 0) s := by
  have hruns : (Z3.lowerModel (context guards)).Runs Z3.initial () (lowered guards) :=
    runs_of_toOption (by decide +kernel)
  obtain ⟨model, hmodel, hguard⟩ : ∃ model, (context guards).workspace.findModel ⟨0⟩ = some model ∧
      model.constraints[2]? = some guard := ⟨_, rfl, rfl⟩
  obtain ⟨h, hh, hterm⟩ := Option.map_eq_some_iff.mp
    (show ((lowered guards).handle? ⟨0⟩).map Handle.number? = some none by decide +kernel)
  have hrange : (postedRange (toleranceOf (context guards)) .ne).1.exact = .finite (11 / 10000000) := by
    decide +kernel
  have hguarded : Guarded reading (context guards) model (.var ⟨0⟩) := by
    refine .comparison (List.mem_of_getElem? hguard) (.self rfl) fun h => ?_
    have hbound := h.1 _ hrange
    norm_num [reading, Exact.toRat, Except.toOption] at hbound
  have hlowered := runs_variableHandle (c := context guards).mpr ⟨hh, rfl⟩
  have hone : reading.Admits (fun _ => 1) (lowered guards) := by decide +kernel
  exact ⟨h, lowered guards, hruns, hlowered, hone,
    inverts_of_guarded hmodel hruns hone hguarded hlowered hterm, by decide +kernel⟩

end Reciprocal

end DecisionModel
