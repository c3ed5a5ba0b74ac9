import DecisionModel.Proofs.Evaluation.Agrees
import DecisionModel.Proofs.Evaluation.Verdict
import DecisionModel.Proofs.Lowering.Memo
import DecisionModel.Tolerant.Encoding

/-!
# Tolerant lowering of numbers

The encodings for algebraic solvers compute with numbers while lowering: each operation on scalars
returns a scalar, or fails, and leaves the state as it is (`folds_divide`, `conjoin_scalars`, ...).
The selection of a first match is such an operation if the solver's sums are chains of additions
(`firstMatch_scalars`); among the terms added at most one is not zero.

`Folds` says of a computation that it changes nothing but the memo, which keeps a property, and what it
returns.
-/

namespace DecisionModel

variable {α ν σ β γ : Type}

/-! ### Computations that change the memo only -/

namespace LowerM

/-- From a memo with the property, a run leaves all but the memo as it is, the memo with the property,
and returns something with the other property. -/
def Folds (I : List (NodeId × Handle ν) → Prop) (m : LowerM α ν σ β) (Q : β → Prop) : Prop :=
  ∀ ⦃s x s'⦄, I s.memo → m.Runs s x s' → I s'.memo ∧ s' = { s with memo := s'.memo } ∧ Q x

variable {I : List (NodeId × Handle ν) → Prop} {m : LowerM α ν σ β} {f : β → LowerM α ν σ γ}
  {Q Q' : β → Prop} {R : γ → Prop}

theorem folds_pure {x : β} (h : Q x) : Folds I (pure x : LowerM α ν σ β) Q := by
  intro s y s' hs hr
  obtain ⟨rfl, rfl⟩ := runs_pure.mp hr
  exact ⟨hs, rfl, h⟩

theorem folds_fail (e : LoweringError α) : Folds I (fail e : LowerM α ν σ β) Q :=
  fun _ _ _ _ hr => absurd hr runs_fail

theorem lift_ok (x : β) : (lift (.ok x) : LowerM α ν σ β) = pure x := rfl

theorem folds_lift (r : Except Fault β) : Folds I (lift r : LowerM α ν σ β) fun x => r = .ok x := by
  intro s x s' hs hr
  obtain ⟨hx, rfl⟩ := runs_lift.mp hr
  exact ⟨hs, rfl, hx⟩

theorem Folds.mono (h : Folds I m Q) (hQ : ∀ x, Q x → Q' x) : Folds I m Q' := by
  intro s x s' hs hr
  obtain ⟨hs', hsame, hx⟩ := h hs hr
  exact ⟨hs', hsame, hQ x hx⟩

theorem folds_bind (hm : Folds I m Q) (hf : ∀ x, Q x → Folds I (f x) R) : Folds I (m >>= f) R := by
  intro s y s' hs hr
  obtain ⟨x, s₁, hx, hy⟩ := runs_bind.mp hr
  obtain ⟨hs₁, hsame₁, hQ⟩ := hm hs hx
  obtain ⟨hs', hsame, hR⟩ := hf x hQ hs₁ hy
  refine ⟨hs', ?_, hR⟩
  rw [hsame, hsame₁]

theorem folds_fail_bind (e : LoweringError α) (f : β → LowerM α ν σ γ) : Folds I (fail e >>= f) R :=
  folds_bind (folds_fail (Q := fun _ => False) e) fun _ h => h.elim

/-- A condition under which the computation fails, and what follows otherwise. -/
theorem folds_unless {p : Prop} [Decidable p] {e : LoweringError α} {f : PUnit → LowerM α ν σ β}
    (hf : ¬p → Folds I (f ⟨⟩) Q) : Folds I (if p then fail e >>= f else f ⟨⟩) Q := by
  split
  · exact folds_fail_bind e f
  · exact hf ‹_›

theorem folds_mapM {f : γ → LowerM α ν σ β} {xs : List γ} {Q : γ → β → Prop}
    (hf : ∀ x ∈ xs, Folds I (f x) (Q x)) : Folds I (xs.mapM f) (List.Forall₂ Q xs) := by
  induction xs with
  | nil => exact folds_pure .nil
  | cons x xs ih =>
    rw [List.mapM_cons]
    refine folds_bind (hf x List.mem_cons_self) fun y hy => ?_
    refine folds_bind (ih fun z hz => hf z (List.mem_cons_of_mem x hz)) fun ys hys => ?_
    exact folds_pure (.cons hy hys)

theorem folds_collection [Scalar α] (c : Context α) (key : Int) :
    Folds I (c.collection key : LowerM α ν σ (List α))
      fun xs => c.workspace.collection c.model key = .ok (.ok xs) := by
  unfold Context.collection
  split
  · rename_i xs hxs
    refine (folds_lift xs).mono fun ys hys => ?_
    rw [hxs, hys]
  · exact folds_fail _

/-- A memoized computation, if what the memo has for the identity is right. -/
theorem folds_memoized {id : NodeId} {run : LowerM α ν σ (Handle ν)} {Q : Handle ν → Prop}
    (hfound : ∀ memo h, I memo → (memo.find? (·.1 = id)).map (·.2) = some h → Q h)
    (henter : ∀ memo h, I memo → Q h → I ((id, h) :: memo)) (hrun : Folds I run Q) :
    Folds I (Backend.memoized id run) Q := by
  intro s h s' hs hr
  obtain ⟨hm, rfl⟩ | ⟨-, s₁, hruns, rfl⟩ := Backend.runs_memoized.mp hr
  · exact ⟨hs, rfl, hfound _ h hs hm⟩
  · obtain ⟨hs₁, hsame, hQ⟩ := hrun hs hruns
    refine ⟨henter _ h hs₁ hQ, ?_, hQ⟩
    rw [hsame]

end LowerM

namespace Tolerant

open LowerM

variable [Scalar α] {P : Primitives α σ} {I : List (NodeId × Handle (Number α)) → Prop} {x y : α}

/-! ### Arithmetic -/

/-- A number is not divided by zero. -/
theorem folds_divide : Folds I (divide P (scalar x) (scalar y)) fun h =>
    Scalar.isZero y = false ∧ h = scalar (Scalar.div x y) := by
  change Folds I (if Scalar.isZero y then fail .divisionByZero >>= _ else _) _
  exact folds_unless fun hy => folds_pure ⟨by simpa using hy, rfl⟩

theorem folds_power : Folds I (power P (scalar x) (scalar y)) fun h =>
    ∃ z, Scalar.power x y = .ok z ∧ h = scalar z := by
  unfold power
  dsimp only [scalar, Handle.number?, Number.toScalar]
  split
  · exact folds_pure ⟨_, ‹_›, rfl⟩
  · exact folds_fail _

omit [Scalar α] in
theorem mapM_number? (xs : List α) :
    (xs.map scalar : List (Handle (Number α))).mapM Handle.number? = some (xs.map .real) := by
  induction xs with
  | nil => rfl
  | cons x xs ih => rw [List.map_cons, List.mapM_cons, ih]; rfl

theorem extremum_scalars (x : α) (xs : List α) :
    extremum P .least ((x :: xs).map scalar) = pure (scalar (Scalar.least x xs)) ∧
      extremum P .greatest ((x :: xs).map scalar) = pure (scalar (Scalar.greatest x xs)) := by
  have hxs : (xs.map .real).map Number.toScalar = xs := by
    rw [List.map_map]
    exact List.map_id xs
  constructor <;>
  · unfold extremum
    rw [mapM_number?, List.map_cons]
    dsimp only [Number.toScalar]
    rw [hxs]

/-- The entry at the integer nearest to a number, counted from one. -/
theorem folds_element (hs : List (Handle (Number α))) :
    Folds I ((backend P).element (scalar x) (hs.mapIdx fun i h => ((i : Int) + 1, h))) fun h =>
      ∃ position, (Scalar.exact x).round = .ok position ∧ Reader.entry? hs position = some h := by
  have hnumber : (scalar x).number? = some (.real x) := rfl
  unfold Backend.element
  rw [hnumber]
  refine folds_bind (folds_lift _) fun position hposition => ?_
  split
  · rename_i h hh
    exact folds_pure ⟨position, hposition, (Reader.find?_positions hs position).symm.trans hh⟩
  · split <;> exact folds_fail _

/-! ### Truth values -/

variable [Scalar.Decisive α]

theorem isZero_zero : Scalar.isZero (Scalar.zero : α) = true := Scalar.Decisive.isZero_ofBool false

theorem isZero_one : Scalar.isZero (Scalar.one : α) = false := Scalar.Decisive.isZero_ofBool true

omit [Scalar.Decisive α] in
theorem truth_scalar : truth P (scalar x) = pure (scalar (Scalar.ofBool !Scalar.isZero x)) := by
  change pure (if Scalar.isZero x then zero else one) = _
  cases Scalar.isZero x <;> rfl

omit [Scalar.Decisive α] in
theorem complement_scalar :
    complement P (scalar x) =
      pure (scalar (Scalar.sub Scalar.one (Scalar.ofBool !Scalar.isZero x))) := by
  unfold complement
  rw [truth_scalar, pure_bind]
  rfl

omit [Scalar.Decisive α] in
theorem gated_scalar (h : Handle (Number α)) :
    gated P (scalar x) h = pure (if Scalar.isZero x then zero else h) := rfl

theorem conditional_scalar (t e : Handle (Number α)) :
    conditional P (scalar x) t e = pure (if Scalar.isZero x then e else t) := by
  unfold conditional
  rw [truth_scalar, pure_bind]
  change pure (if Scalar.isZero (Scalar.ofBool !Scalar.isZero x) then e else t) = _
  rw [Scalar.Decisive.isZero_ofBool, Bool.not_not]

theorem conjoin_scalars (xs : List α) :
    conjoin P (xs.map scalar) = pure (scalar (Scalar.ofBool (xs.all fun x => !Scalar.isZero x))) := by
  unfold conjoin
  induction xs with
  | nil => rfl
  | cons x xs ih =>
    rw [List.map_cons, conjoinFrom, truth_scalar, pure_bind, one, gated_scalar, isZero_one, pure_bind]
    change (if Scalar.isZero (Scalar.ofBool !Scalar.isZero x) then _ else _) = _
    rw [Scalar.Decisive.isZero_ofBool, Bool.not_not, List.all_cons]
    cases Scalar.isZero x with
    | true => rfl
    | false => exact ih

theorem openTruths_scalars (xs : List α) :
    openTruths P (xs.map scalar) =
      pure (if xs.any fun x => !Scalar.isZero x then none else some []) := by
  induction xs with
  | nil => rfl
  | cons x xs ih =>
    rw [List.map_cons, openTruths, truth_scalar, pure_bind]
    change (if Scalar.isZero (Scalar.ofBool !Scalar.isZero x) then _ else _) = _
    rw [Scalar.Decisive.isZero_ofBool, Bool.not_not, List.any_cons]
    cases Scalar.isZero x with
    | true => exact ih
    | false => rfl

theorem disjoin_scalars (xs : List α) :
    disjoin P (xs.map scalar) = pure (scalar (Scalar.ofBool (xs.any fun x => !Scalar.isZero x))) := by
  unfold disjoin
  rw [openTruths_scalars, pure_bind]
  cases xs.any fun x => !Scalar.isZero x <;> rfl

omit [Scalar.Decisive α] [Scalar α] in
theorem mapM_scalars {f : Handle (Number α) → TolerantM α σ (Handle (Number α))} {g : α → α}
    (hf : ∀ y, f (scalar y) = pure (scalar (g y))) (ys : List α) :
    (ys.map scalar).mapM f = pure ((ys.map g).map scalar) := by
  induction ys with
  | nil => rfl
  | cons y ys ih =>
    rw [List.map_cons, List.mapM_cons, hf, ih, pure_bind, pure_bind]
    rfl

/-- Whether a number is among numbers. -/
theorem membership_scalars (x : α) (ys : List α) :
    membership P (scalar x) ((ys.map scalar).map some) =
      pure (scalar (Scalar.ofBool (ys.any (Scalar.eq x)))) := by
  have htests : ((ys.map scalar).map some).filterMap id = ys.map (scalar (α := α)) := by
    rw [List.filterMap_map]
    exact List.filterMap_some
  unfold membership
  rw [htests, mapM_scalars (g := fun y => Scalar.ofBool (Scalar.eq x y)), pure_bind, disjoin_scalars,
    List.any_map]
  · simp only [Function.comp_def, Scalar.Decisive.isZero_ofBool, Bool.not_not]
  · intro y
    change pure (if Scalar.eq x y then one else zero) = _
    cases Scalar.eq x y <;> rfl

/-! ### Selection of a first match -/

theorem isZero_complement [Scalar.Congruent α] (b : Bool) :
    Scalar.isZero (Scalar.sub Scalar.one (Scalar.ofBool b) : α) = b := by
  rw [Scalar.isZero_congr (Scalar.Congruent.one_sub_ofBool b), Scalar.Decisive.isZero_ofBool,
    Bool.not_not]

/-- One pair of a first match. Its value counts if nothing was picked before and its condition holds,
and then nothing is picked any more. -/
theorem gatePairs_cons (p c v : α) (pairs : List (Handle (Number α) × Handle (Number α))) :
    gatePairs P (scalar p) ((scalar c, scalar v) :: pairs) = (do
      let rest ← gatePairs P (scalar (if Scalar.isZero p then Scalar.zero
        else Scalar.sub Scalar.one (Scalar.ofBool !Scalar.isZero c))) pairs
      return (scalar (if Scalar.isZero p || Scalar.isZero c then Scalar.zero else v) :: rest.1,
        rest.2)) := by
  have hgate (y : α) : gated P (scalar p) (scalar y) =
      pure (scalar (if Scalar.isZero p then Scalar.zero else y)) := by
    rw [gated_scalar]
    cases Scalar.isZero p <;> rfl
  have hterm : gated P
      (scalar (if Scalar.isZero p then (Scalar.zero : α) else Scalar.ofBool !Scalar.isZero c))
      (scalar v) = pure (scalar (if Scalar.isZero p || Scalar.isZero c then Scalar.zero else v)) := by
    rw [gated_scalar]
    cases Scalar.isZero p <;> cases Scalar.isZero c <;>
      simp [isZero_zero, Scalar.Decisive.isZero_ofBool, zero]
  have hnumber : (scalar (Scalar.ofBool !Scalar.isZero c)).number? =
      some (.real (Scalar.ofBool !Scalar.isZero c : α)) := rfl
  have hnot : (pure (.const (realOne.sub (.real (Scalar.ofBool !Scalar.isZero c)))) :
      TolerantM α σ (Handle (Number α))) =
      pure (scalar (Scalar.sub Scalar.one (Scalar.ofBool !Scalar.isZero c))) := rfl
  rw [gatePairs, truth_scalar, pure_bind, hgate, pure_bind, hterm, pure_bind, hnumber]
  dsimp only
  rw [hnot, pure_bind, hgate, pure_bind]

/-- Of the terms of a first match, at most the one that is picked is not zero. -/
theorem gatePairs_scalars [Scalar.Congruent α] (p : α) (pairs : List (α × α)) :
    ∃ (ts : List α) (q : α),
      gatePairs P (scalar p) (pairs.map (Prod.map scalar scalar)) = pure (ts.map scalar, scalar q) ∧
      ∀ e, (ts ++ [if Scalar.isZero q then Scalar.zero else e]).filter (!Scalar.isZero ·) =
        [if Scalar.isZero p then Scalar.zero else Operator.pick pairs e].filter (!Scalar.isZero ·) := by
  induction pairs generalizing p with
  | nil => exact ⟨[], p, rfl, fun e => rfl⟩
  | cons pair pairs ih =>
    obtain ⟨c, v⟩ := pair
    obtain ⟨ts, q, hrun, hfilter⟩ := ih (if Scalar.isZero p then Scalar.zero
      else Scalar.sub Scalar.one (Scalar.ofBool !Scalar.isZero c))
    refine ⟨(if Scalar.isZero p || Scalar.isZero c then Scalar.zero else v) :: ts, q, ?_, fun e => ?_⟩
    · rw [List.map_cons, Prod.map_apply, gatePairs_cons, hrun, pure_bind]
      rfl
    · rw [List.cons_append, List.filter_cons, hfilter, Operator.pick]
      cases Scalar.isZero p <;> cases Scalar.isZero c <;>
        simp [isZero_zero, isZero_complement, List.filter_cons]

omit [Scalar.Decisive α] in
theorem same_of_isZero (hx : Scalar.isZero x = true) (hy : Scalar.isZero y = true) :
    Scalar.Same x y := by
  have hzero {z : α} (hz : Scalar.isZero z = true) : Scalar.exact z = .finite 0 := by
    unfold Scalar.isZero at hz
    cases he : Scalar.exact z <;> simp_all [Exact.eq]
  exact (hzero hx).trans (hzero hy).symm

/-- The sum of the terms is the value that is picked. -/
theorem firstMatch_scalars [Scalar.Congruent α] (hP : P.total = chainedSum)
    (conditions values : List α) (e : α) :
    ∃ y, Scalar.Same y (Operator.pick (conditions.zip values) e) ∧
      firstMatch P (conditions.map scalar) (values.map scalar) (scalar e) = pure (scalar y) := by
  obtain ⟨ts, q, hrun, hfilter⟩ := gatePairs_scalars (P := P) Scalar.one (conditions.zip values)
  have hfirst : firstMatch P (conditions.map scalar) (values.map scalar) (scalar e) =
      chainedSum
        (([Operator.pick (conditions.zip values) e].filter (!Scalar.isZero ·)).map scalar) := by
    have hlast : gated P (scalar q) (scalar e) =
        pure (scalar (if Scalar.isZero q then Scalar.zero else e)) := by
      rw [gated_scalar]
      cases Scalar.isZero q <;> rfl
    rw [isZero_one] at hfilter
    unfold firstMatch
    rw [List.zip_map, one, hrun, pure_bind]
    dsimp only
    rw [hlast, pure_bind, hP, ← List.map_singleton, ← List.map_append, List.filter_map]
    exact congrArg (fun zs => chainedSum (zs.map scalar)) (hfilter e)
  rw [hfirst]
  cases hzero : Scalar.isZero (Operator.pick (conditions.zip values) e) with
  | true => exact ⟨Scalar.zero, same_of_isZero isZero_zero hzero, by simp [hzero, chainedSum, zero]⟩
  | false => exact ⟨_, rfl, by simp [hzero, chainedSum]⟩

end Tolerant

end DecisionModel
