import Mathlib.Algebra.Order.Field.Basic
import Mathlib.Data.Rat.Cast.Order
import DecisionModel.Proofs.Lowering.Semantics
import DecisionModel.Solver.Z3.Basic

/-!
# What Z3 makes of its terms

Z3 computes in an ordered field and not with doubles, and it leaves open what a term is that has no
value there. An `Interpretation` settles which number the literal of a scalar stands for, what a quotient
by zero is and what powers are. Z3 may answer with any interpretation of the quotients by zero, and with
any values of the variables at which the collected constraints hold (`Interpretation.Admits`).

What is collected for a number, for bounds and for a range is the same for every interpretation
(`admits_requireBounds`, `admits_constrain`).
-/

namespace DecisionModel

/-- The comparison holds of two elements of an order. -/
def Comparison.Orders {K : Type} [LinearOrder K] : Comparison → K → K → Prop
  | lt, x, y => x < y
  | le, x, y => x ≤ y
  | gt, x, y => y < x
  | ge, x, y => y ≤ x
  | eq, x, y => x = y
  | ne, x, y => x ≠ y

instance {K : Type} [LinearOrder K] (c : Comparison) (x y : K) : Decidable (c.Orders x y) := by
  cases c <;> unfold Comparison.Orders <;> infer_instance

namespace Z3

open LowerM Tolerant

/-- What the arithmetic of the solver leaves open. -/
structure Interpretation (α K : Type) where
  /-- The number that the literal of a scalar stands for. -/
  literal : α → K
  /-- A quotient by zero. -/
  byZero : K → K
  power : K → K → K

variable {α K : Type} [Field K] [LinearOrder K]

namespace Interpretation

section

variable (I : Interpretation α K)

def quotient (x y : K) : K := if y = 0 then I.byZero x else x / y

def number : Number α → K
  | .int n => n
  | .truth b => if b then 1 else 0
  | .real x => I.literal x

/-- The function of a node, over the values of its arguments. -/
def apply : SolverFunction → List K → K
  | .add, [x, y] => x + y
  | .sub, [x, y] => x - y
  | .mul, [x, y] => x * y
  | .div, [x, y] => I.quotient x y
  | .pow, [x, y] => I.power x y
  | .neg, [x] => -x
  | .choose c, [x, y, t, e] => if c.Orders x y then t else e
  | .toReal, [x] => x
  | .quotient q, [] => q
  | _, _ => 0

mutual

/-- The value of a term where the variables have the values `ρ`. -/
def value (ρ : HandleId → K) : Handle (Number α) → K
  | .const x => I.number x
  | .leaf id _ _ => ρ id
  | .node _ f args => I.apply f (values ρ args)

def values (ρ : HandleId → K) : List (Handle (Number α)) → List K
  | [] => []
  | h :: hs => value ρ h :: values ρ hs

end

/-- A constraint holds. -/
def Meets (ρ : HandleId → K) (r : Relation (Number α)) : Prop :=
  r.comparison.Orders (I.value ρ r.lhs) (I.value ρ r.rhs)

/-- All constraints that were collected hold. -/
def Admits (ρ : HandleId → K) (s : Z3State α) : Prop :=
  ∀ r ∈ s.solver.solver.constraints.toList, I.Meets ρ r

instance (ρ : HandleId → K) (r : Relation (Number α)) : Decidable (I.Meets ρ r) :=
  inferInstanceAs (Decidable (Comparison.Orders ..))

instance (ρ : HandleId → K) (s : Z3State α) : Decidable (I.Admits ρ s) :=
  inferInstanceAs (Decidable (∀ r ∈ s.solver.solver.constraints.toList, I.Meets ρ r))

end

variable {I : Interpretation α K} {ρ : HandleId → K} {h : Handle (Number α)} {id : HandleId}

@[simp] theorem value_const (x : Number α) : I.value ρ (.const x) = I.number x := by rw [value]

@[simp] theorem value_leaf (name : String) (integral : Bool) :
    I.value ρ (.leaf id name integral) = ρ id := by rw [value]

theorem values_eq_map (hs : List (Handle (Number α))) : I.values ρ hs = hs.map (I.value ρ) := by
  induction hs with
  | nil => rw [values, List.map_nil]
  | cons h hs ih => rw [values, ih, List.map_cons]

@[simp] theorem value_node (f : SolverFunction) (args : List (Handle (Number α))) :
    I.value ρ (.node id f args) = I.apply f (args.map (I.value ρ)) := by rw [value, values_eq_map]

theorem quotient_of_ne_zero {x y : K} (hy : y ≠ 0) : I.quotient x y = x / y := if_neg hy

end Interpretation

/-! ### What is collected -/

/-- The value is within the bounds that are finite. -/
def Within (lower upper : Exact) (v : K) : Prop :=
  (∀ q : ℚ, lower = .finite q → (q : K) ≤ v) ∧ ∀ q : ℚ, upper = .finite q → v ≤ q

variable [Scalar α] (I : Interpretation α K) (ρ : HandleId → K) {h t : Handle (Number α)}
  {s s' : Z3State α} {lower upper : Number α} {x : Number α} {name : String}

omit [Scalar α] in
theorem exists_of_toRat {x : Exact} {q : ℚ} (hx : x.toRat = .ok q) : x = .finite q := by
  cases x with
  | finite p => exact congrArg Exact.finite (Except.ok.inj hx)
  | _ => cases hx

/-- A number that is taken exactly is finite, and nothing is collected for it. -/
theorem value_of_exactTerm (hr : (exactTerm x).Runs s t s') :
    ∃ q : ℚ, x.exact = .finite q ∧ s'.solver = s.solver ∧ ∀ ρ, I.value ρ t = q := by
  obtain ⟨q, s₁, hlift, hr₁⟩ := runs_bind.mp hr
  obtain ⟨hq, rfl⟩ := runs_lift.mp hlift
  refine ⟨q, exists_of_toRat hq, ?_⟩
  split at hr₁
  · rename_i hden
    obtain ⟨rfl, rfl⟩ := runs_pure.mp hr₁
    refine ⟨rfl, fun ρ => ?_⟩
    rw [integer, Interpretation.value_const, Interpretation.number]
    exact_mod_cast congrArg (Rat.cast (K := K)) (Rat.coe_int_num_of_den_eq_one hden)
  · obtain ⟨rfl, rfl⟩ := runs_node.mp hr₁
    exact ⟨rfl, fun ρ => by rw [Interpretation.value_node]; rfl⟩

/-- A comparison with a number that is taken exactly. -/
theorem admits_require {c : Comparison}
    (hr : (do require c h (← exactTerm x) : Z3M α Unit).Runs s () s') :
    ∃ q : ℚ, x.exact = .finite q ∧ (I.Admits ρ s' ↔ I.Admits ρ s ∧ c.Orders (I.value ρ h) q) := by
  obtain ⟨t, s₁, hterm, hrequire⟩ := runs_bind.mp hr
  obtain ⟨q, hq, hsolver, hvalue⟩ := value_of_exactTerm I hterm
  refine ⟨q, hq, ?_⟩
  rw [require, modifyOwn, modifyEncoding, runs_modifySolver] at hrequire
  subst hrequire
  simp only [Interpretation.Admits, hsolver, Array.toList_push, List.forall_mem_append,
    List.forall_mem_singleton]
  rw [Interpretation.Meets, hvalue]

/-- One side of some bounds: nothing is collected for an infinity. -/
def requireUnless (infinity : Exact) (c : Comparison) (h : Handle (Number α)) (x : Number α) :
    Z3M α Unit :=
  if !x.exact.eq infinity then do require c h (← exactTerm x) else pure ()

theorem requireBounds_eq (h : Handle (Number α)) (lower upper : Number α) :
    requireBounds h lower upper = (do
      requireUnless .negInf .ge h lower
      requireUnless .posInf .le h upper) := by
  unfold requireBounds requireUnless
  split <;> split <;> simp only [bind_assoc, pure_bind]

theorem admits_requireUnless {infinity : Exact} (hinfinity : infinity = .negInf ∨ infinity = .posInf)
    {c : Comparison} (hr : (requireUnless infinity c h x).Runs s () s') :
    I.Admits ρ s' ↔ I.Admits ρ s ∧ ∀ q : ℚ, x.exact = .finite q → c.Orders (I.value ρ h) q := by
  unfold requireUnless at hr
  split at hr
  · obtain ⟨q, hq, hadmits⟩ := admits_require I ρ hr
    simp only [hadmits, hq, Exact.finite.injEq, forall_eq']
  · rename_i heq
    obtain ⟨-, rfl⟩ := runs_pure.mp hr
    refine (and_iff_left fun q hq => absurd ?_ heq).symm
    rcases hinfinity with rfl | rfl <;> simp [hq, Exact.eq]

/-- Bounds are collected on each side that is finite. -/
theorem admits_requireBounds (hr : (requireBounds h lower upper).Runs s () s') :
    I.Admits ρ s' ↔ I.Admits ρ s ∧ Within lower.exact upper.exact (I.value ρ h) := by
  rw [requireBounds_eq] at hr
  obtain ⟨_, s₁, hlower, hupper⟩ := runs_bind.mp hr
  rw [admits_requireUnless I ρ (.inr rfl) hupper, admits_requireUnless I ρ (.inl rfl) hlower, and_assoc]
  exact Iff.rfl

/-- A range is collected as an equality or as bounds. -/
theorem admits_addRange (hr : (addRange h lower upper name).Runs s () s') :
    I.Admits ρ s' ↔ I.Admits ρ s ∧ Within lower.exact upper.exact (I.value ρ h) := by
  unfold addRange at hr
  split at hr
  · rename_i heq
    obtain ⟨q, hq, hadmits⟩ := admits_require I ρ hr
    have hupper : upper.exact = .finite q := by
      change lower.exact.eq upper.exact = true at heq
      rw [hq] at heq
      cases hu : upper.exact with
      | finite p =>
        rw [hu] at heq
        rw [of_decide_eq_true heq]
      | _ =>
        rw [hu] at heq
        cases heq
    rw [hadmits, Within, hq, hupper]
    simp only [Exact.finite.injEq, forall_eq', Comparison.Orders]
    exact and_congr_right fun _ => ⟨fun h => ⟨h.ge, h.le⟩, fun h => le_antisymm h.2 h.1⟩
  · exact admits_requireBounds I ρ hr

/-- A range for a term. -/
theorem admits_constrain (hterm : h.number? = none)
    (hr : (constrain primitives h lower upper).Runs s () s') :
    I.Admits ρ s' ↔ I.Admits ρ s ∧ Within lower.exact upper.exact (I.value ρ h) := by
  simp only [constrain, hterm, runs_bind] at hr
  obtain ⟨name, s₁, hname, _, s₂, hposted, hrange⟩ := hr
  obtain ⟨-, rfl⟩ := runs_auxiliaryName.mp hname
  rw [modifyEncoding, runs_modifySolver] at hposted
  subst hposted
  change (addRange h lower upper name).Runs _ () s' at hrange
  exact (admits_addRange I ρ hrange).trans Iff.rfl

end Z3

end DecisionModel
