import Mathlib.Data.List.Forall2
import DecisionModel.Evaluation.Basic
import DecisionModel.Proofs.Number.Integral
import DecisionModel.Proofs.Term.WellBuilt

/-!
# Integral outcomes

A `Reader` evaluates terms of one model: it gives readings to variables and leaves named operators
their fixed meaning. `Reader.Gives o n` says that an outcome is the integer `n`, read from a place
that holds this value or computed. Places decide membership beside values, and two readings of one
place have one value if identities are registered, so on integers membership is a matter of values
(`isSame_iff`).

The operators with plain operands are computed here for operands that all give integers; each
theorem `evaluate_…` says what the node gives.
-/

namespace DecisionModel

section

variable {β γ : Type} {R : β → γ → Prop} {xs : List β} {ys : List γ} {k : Nat}

theorem forall₂_getElem?_left (h : List.Forall₂ R xs ys) {x : β} (hx : xs[k]? = some x) :
    ∃ y, ys[k]? = some y ∧ R x y := by
  induction h generalizing k with
  | nil => simp at hx
  | @cons x' y' xs ys hr _ ih =>
    cases k with
    | zero =>
      obtain rfl : x' = x := by simpa using hx
      exact ⟨y', rfl, hr⟩
    | succ k => exact ih (by simpa using hx)

theorem forall₂_getElem?_right (h : List.Forall₂ R xs ys) {y : γ} (hy : ys[k]? = some y) :
    ∃ x, xs[k]? = some x ∧ R x y := forall₂_getElem?_left h.flip hy

theorem exists_forall₂ (h : ∀ x ∈ xs, ∃ y, R x y) : ∃ ys, List.Forall₂ R xs ys := by
  induction xs with
  | nil => exact ⟨[], .nil⟩
  | cons x xs ih =>
    obtain ⟨y, hy⟩ := h x (by simp)
    obtain ⟨ys, hys⟩ := ih fun x hx => h x (by simp [hx])
    exact ⟨y :: ys, .cons hy hys⟩

end

/-- `q` comes from `n` by steps along the list, each related by `P`. -/
def FoldsTo (P : ℤ → ℤ → ℤ → Prop) : ℤ → List ℤ → ℤ → Prop
  | n, [], q => q = n
  | n, m :: ms, q => ∃ k, P n m k ∧ FoldsTo P k ms q

theorem FoldsTo.eq_foldl {f : ℤ → ℤ → ℤ} {n q : ℤ} {ns : List ℤ}
    (h : FoldsTo (fun n m k => k = f n m) n ns q) : q = ns.foldl f n := by
  induction ns generalizing n with
  | nil => exact h
  | cons m ns ih =>
    obtain ⟨_, rfl, h⟩ := h
    exact ih h

/-- A way to evaluate the terms of a model of the workspace `w`, with named operators in their fixed
meaning. -/
structure Reader (w : Workspace Exact) (m : ModelId) where
  assignment : Assignment Exact
  read : VarId → Partially Exact (Reading Exact)
  model_eq : assignment.model = m
  evaluators_eq (name : String) : assignment.evaluators name = none

namespace Reader

variable {w : Workspace Exact} {m : ModelId} (r : Reader w m) (origin : NodeId → Option (Term Exact))

theorem custom_eq (name : String) : r.assignment.custom name = Operator.builtin? name := by
  simp [Assignment.custom, r.evaluators_eq]

/-- The place that a reading names holds its value. -/
def Placed (x : Reading Exact) : Prop :=
  match x.place with
  | none => True
  | some (.stored v) => r.read v = .ok (some x)
  | some (.constant id k) =>
    ∃ op ts, origin id = some (.node id op ts) ∧ ts[k]? = some (.const x.value)

/-- The outcome is the integer `n`. -/
def Gives (o : Partially Exact (Reading Exact)) (n : ℤ) : Prop :=
  ∃ x : Reading Exact, o = .ok (some x) ∧ x.value = .finite n ∧ r.Placed origin x

/-- The operands give the integers, one by one. -/
def GivesAll (args : List (Argument Exact)) (ns : List ℤ) : Prop :=
  List.Forall₂ (fun a n => r.Gives origin (a.value ()) n) args ns

variable {r origin}

theorem gives_value {x : Exact} {n : ℤ} (h : x = .finite n) :
    r.Gives origin (Outcome.value x) n :=
  ⟨.computed x, rfl, h, trivial⟩

theorem gives_truth (p : Prop) [Decidable p] :
    r.Gives origin (Outcome.truth (decide p)) (indicator p) :=
  gives_value (Scalar.ofBool_indicator p)

theorem Gives.unique {o : Partially Exact (Reading Exact)} {m n : ℤ} (hm : r.Gives origin o m)
    (hn : r.Gives origin o n) : m = n := by
  obtain ⟨x, rfl, hx, -⟩ := hm
  obtain ⟨y, hy, hy', -⟩ := hn
  cases hy
  rw [hx] at hy'
  simpa using hy'

/-- Two readings of integers are the same exactly if the integers are. -/
theorem isSame_iff {x y : Reading Exact} {m n : ℤ} (hx : x.value = .finite m)
    (hy : y.value = .finite n) (px : r.Placed origin x) (py : r.Placed origin y) :
    x.isSame y = decide (m = n) := by
  have hval : Scalar.eq x.value y.value = decide (m = n) := by simp [hx, hy]
  rw [Reading.isSame, hval]
  by_cases hmn : m = n
  · simp [hmn]
  · -- One place cannot hold two values.
    have hplace : (x.place.isSome && x.place == y.place) = false := by
      rw [Bool.eq_false_iff]
      intro hs
      simp only [Bool.and_eq_true, beq_iff_eq] at hs
      obtain ⟨hsome, heq⟩ := hs
      obtain ⟨p, hp⟩ := Option.isSome_iff_exists.mp hsome
      have hvalues : x.value = y.value := by
        cases p with
        | stored v =>
          simp only [Placed, hp, ← heq] at px py
          have heq' := px.symm.trans py
          simp only [Except.ok.injEq, Option.some.injEq] at heq'
          exact congrArg Reading.value heq'
        | constant id k =>
          simp only [Placed, hp, ← heq] at px py
          obtain ⟨op, ts, ho, hk⟩ := px
          obtain ⟨op', ts', ho', hk'⟩ := py
          rw [ho] at ho'
          cases ho'
          rw [hk] at hk'
          simpa using hk'
      rw [hx, hy] at hvalues
      simp only [Exact.finite.injEq, Int.cast_inj] at hvalues
      exact hmn hvalues
    simp [hmn, hplace]

/-! ### Values of operands -/

/-- The readings of operands that all give integers. -/
def Readings (r : Reader w m) (origin : NodeId → Option (Term Exact)) (xs : List (Reading Exact))
    (ns : List ℤ) : Prop :=
  List.Forall₂ (fun x n => x.value = Exact.finite (n : ℤ) ∧ r.Placed origin x) xs ns

theorem GivesAll.values {args : List (Argument Exact)} {ns : List ℤ} (h : r.GivesAll origin args ns) :
    ∃ xs, Argument.values args = .ok (some xs) ∧ r.Readings origin xs ns := by
  induction h with
  | nil => exact ⟨[], rfl, .nil⟩
  | cons ha _ ih =>
    obtain ⟨x, hx, hv, hp⟩ := ha
    obtain ⟨xs, hxs, hr⟩ := ih
    refine ⟨x :: xs, ?_, .cons ⟨hv, hp⟩ hr⟩
    simp only [Argument.values, hx, hxs, Outcome.andThen]

theorem GivesAll.nth {args : List (Argument Exact)} {ns : List ℤ} (h : r.GivesAll origin args ns)
    {k : Nat} {n : ℤ} (hk : ns[k]? = some n) : r.Gives origin (Argument.nth args k) n := by
  obtain ⟨a, ha, hg⟩ := forall₂_getElem?_right h hk
  simpa only [Argument.nth, ha] using hg

theorem Readings.values_eq {xs : List (Reading Exact)} {ns : List ℤ} (h : r.Readings origin xs ns) :
    xs.map (·.value) = ns.map fun n : ℤ => Exact.finite n := by
  induction h with
  | nil => rfl
  | cons hx _ ih => rw [List.map_cons, List.map_cons, ih, hx.1]

/-! ### Arithmetic and comparisons -/

attribute [local simp] Operator.evaluate Outcome.andThen Operator.computeStrict Operator.headed

variable {custom : String → Option (CustomEvaluator Exact)} {text : Unit → Except Fault String}
  {args : List (Argument Exact)} {ns : List ℤ}

theorem evaluate_wrapper {n : ℤ} (h : r.GivesAll origin args [n]) :
    r.Gives origin (Operator.wrapper.evaluate custom text args) n :=
  h.nth (k := 0) rfl

theorem evaluate_negation {n : ℤ} (h : r.GivesAll origin args [n]) :
    r.Gives origin (Operator.negation.evaluate custom text args) (-n) := by
  obtain ⟨_, hxs, hr⟩ := h.values
  obtain _ | ⟨⟨hx, -⟩, hr⟩ := hr
  cases hr
  simp only [Operator.evaluate, hxs, Outcome.andThen, Operator.computeStrict, Operator.headed]
  exact gives_value (by simp [hx])

theorem evaluate_complement {n : ℤ} (h : r.GivesAll origin args [n]) :
    r.Gives origin (Operator.complement.evaluate custom text args) (indicator (n = 0)) := by
  obtain ⟨_, hxs, hr⟩ := h.values
  obtain _ | ⟨⟨hx, -⟩, hr⟩ := hr
  cases hr
  simp only [Operator.evaluate, hxs, Outcome.andThen, Operator.computeStrict, Operator.headed, hx,
    Scalar.isZero_int]
  exact gives_truth _

theorem total_gives {xs : List (Reading Exact)} (hr : r.Readings origin xs ns) :
    r.Gives origin (Operator.total xs) ns.sum := by
  refine ⟨.computed (.finite (ns.sum : ℤ)), ?_, rfl, trivial⟩
  simp only [Operator.total, hr.values_eq, Scalar.sum_int]
  rfl

theorem evaluate_sum (h : r.GivesAll origin args ns) :
    r.Gives origin (Operator.sum.evaluate custom text args) ns.sum := by
  obtain ⟨xs, hxs, hr⟩ := h.values
  simp only [Operator.evaluate, hxs, Outcome.andThen, Operator.computeStrict]
  exact total_gives hr

theorem evaluate_difference {n : ℤ} (h : r.GivesAll origin args (n :: ns)) :
    r.Gives origin (Operator.difference.evaluate custom text args) (ns.foldl (· - ·) n) := by
  obtain ⟨_, hxs, hr⟩ := h.values
  obtain _ | ⟨⟨hx, hp⟩, hr⟩ := hr
  simp only [Operator.evaluate, hxs, Outcome.andThen, Operator.computeStrict, Operator.headed,
    Operator.subtractAll]
  rename_i x xs
  clear hxs h
  induction hr generalizing x n with
  | nil => exact ⟨x, rfl, hx, hp⟩
  | cons hy _ ih =>
    refine ih (x := .computed (Scalar.sub x.value _)) ?_ trivial
    simp [Reading.computed, hx, hy.1]

theorem product_finite (ns : List ℤ) (p : ℤ) :
    (ns.map fun n : ℤ => Exact.finite n).foldl Scalar.mul (.finite p) =
      .finite (p * ns.prod : ℤ) := by
  induction ns generalizing p with
  | nil => simp
  | cons n ns ih =>
    simp only [List.map_cons, List.foldl_cons, Scalar.mul_exact, Exact.finite_mul, List.prod_cons]
    rw [← Int.cast_mul, ih, mul_assoc]

theorem evaluate_product (h : r.GivesAll origin args ns) :
    r.Gives origin (Operator.product.evaluate custom text args) ns.prod := by
  obtain ⟨xs, hxs, hr⟩ := h.values
  simp only [Operator.evaluate, hxs, Outcome.andThen, Operator.computeStrict, hr.values_eq]
  refine gives_value ?_
  have hp := product_finite ns 1
  rw [one_mul] at hp
  simpa [Scalar.product] using hp

theorem evaluate_quotient {n q : ℤ} (h : r.GivesAll origin args (n :: ns))
    (hq : FoldsTo (fun n m k => m ≠ 0 ∧ k * m = n) n ns q) :
    r.Gives origin (Operator.quotient.evaluate custom text args) q := by
  obtain ⟨_, hxs, hr⟩ := h.values
  obtain _ | ⟨⟨hx, hp⟩, hr⟩ := hr
  simp only [Operator.evaluate, hxs, Outcome.andThen, Operator.computeStrict, Operator.headed]
  rename_i x xs
  clear hxs h
  induction hr generalizing x n with
  | nil =>
    cases hq
    exact ⟨x, rfl, hx, hp⟩
  | @cons y m _ _ hy _ ih =>
    obtain ⟨k, ⟨hm, rfl⟩, hk⟩ := hq
    simp only [Operator.divideAll, hy.1, Scalar.isZero_int, hm, decide_false, Bool.false_eq_true,
      if_false]
    refine ih (x := .computed _) hk ?_ trivial
    rw [Reading.computed, hx]
    exact (Exact.div_int hm).mpr rfl

theorem evaluate_comparison {c : Comparison} {m n : ℤ} (h : r.GivesAll origin args [m, n]) :
    r.Gives origin ((Operator.comparison c).evaluate custom text args)
      (indicator (c.Relates m n)) := by
  obtain ⟨_, hxs, hr⟩ := h.values
  obtain _ | ⟨⟨hx, -⟩, hr⟩ := hr
  obtain _ | ⟨⟨hy, -⟩, hr⟩ := hr
  cases hr
  simp only [Operator.evaluate, hxs, Outcome.andThen, Operator.computeStrict, hx, hy,
    Comparison.holds_int]
  exact gives_truth _

/-! ### Connectives -/

theorem evaluate_conjunction (h : r.GivesAll origin args ns) :
    r.Gives origin (Operator.conjunction.evaluate custom text args)
      (indicator (∀ n ∈ ns, n ≠ 0)) := by
  simp only [Operator.evaluate]
  induction h with
  | nil =>
    rw [indicator_congr (q := True) (by simp)]
    exact gives_truth True
  | @cons a n _ ns ha _ ih =>
    obtain ⟨x, ho, hx, -⟩ := ha
    simp only [Operator.evaluateAll, ho, Outcome.andThen, hx, Scalar.isZero_int]
    by_cases hn : n = 0
    · simp only [hn, decide_true, if_true]
      rw [indicator_congr (q := False) (by simp)]
      exact gives_truth False
    · simp only [hn, decide_false, Bool.false_eq_true, if_false]
      rw [indicator_congr (q := ∀ m ∈ ns, m ≠ 0) (by simp [hn])]
      exact ih

theorem evaluate_disjunction (h : r.GivesAll origin args ns) :
    r.Gives origin (Operator.disjunction.evaluate custom text args)
      (indicator (∃ n ∈ ns, n ≠ 0)) := by
  simp only [Operator.evaluate]
  induction h with
  | nil =>
    rw [indicator_congr (q := False) (by simp)]
    exact gives_truth False
  | @cons a n _ ns ha _ ih =>
    obtain ⟨x, ho, hx, -⟩ := ha
    simp only [Operator.evaluateAny, ho, Outcome.andThen, hx, Scalar.isZero_int]
    by_cases hn : n = 0
    · simp only [hn, decide_true, if_true]
      rw [indicator_congr (q := ∃ m ∈ ns, m ≠ 0) (by simp)]
      exact ih
    · simp only [hn, decide_false, Bool.false_eq_true, if_false]
      rw [indicator_congr (q := True) (by simp [hn])]
      exact gives_truth True

end Reader

end DecisionModel
