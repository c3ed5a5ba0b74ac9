import DecisionModel.Proofs.Evaluation.Function
import DecisionModel.Proofs.Evaluation.Places
import DecisionModel.Proofs.Number.Congruent

/-!
# Numbers that agree with outcomes

A number agrees with an outcome if it equals the value whenever there is one (`Agrees`). Where numbers
agree with the operands of a node, the number that the operator makes of them agrees with the node:
one theorem `agrees_…` for each operator. Only a sum is left open, since it rounds once and not after
each addition; there the numbers have to add up (`Scalar.AddsUp`).
-/

namespace DecisionModel

open Outcome

variable {α : Type} [Scalar α]

namespace Scalar

/-- The scalars stand for the same number. -/
def Same (x y : α) : Prop := exact x = exact y

/-- The sum from left to right, which is rounded after each addition. -/
def leftTotal : List α → α
  | [] => zero
  | x :: xs => xs.foldl add x

/-- Adding from left to right gives the sum that is rounded once. -/
def AddsUp (xs : List α) : Prop := ∀ z, sum xs = .ok z → Same (leftTotal xs) z

theorem foldl_congr {f : α → α → α} (hf : ∀ {x x' y y' : α}, Same x x' → Same y y' →
    Same (f x y) (f x' y'))
    {x y : α} {xs ys : List α} (h : Same x y) (hs : List.Forall₂ Same xs ys) :
    Same (xs.foldl f x) (ys.foldl f y) := by
  induction hs generalizing x y with
  | nil => exact h
  | cons h' _ ih => exact ih (hf h h')

theorem isZero_congr {x y : α} (h : Same x y) : isZero x = isZero y := by
  rw [isZero, isZero, h]

variable [Congruent α]

theorem leftTotal_congr {xs ys : List α} (h : List.Forall₂ Same xs ys) :
    Same (leftTotal xs) (leftTotal ys) := by
  cases h with
  | nil => rfl
  | cons h hs => exact foldl_congr Congruent.add_congr h hs

omit [Congruent α] in
theorem least_congr {x y : α} {xs ys : List α} (h : Same x y) (hs : List.Forall₂ Same xs ys) :
    Same (least x xs) (least y ys) := by
  refine foldl_congr (fun {x x' y y'} h h' => ?_) h hs
  rw [lt, lt, h, h']
  split
  · exact h'
  · exact h

omit [Congruent α] in
theorem greatest_congr {x y : α} {xs ys : List α} (h : Same x y) (hs : List.Forall₂ Same xs ys) :
    Same (greatest x xs) (greatest y ys) := by
  refine foldl_congr (fun {x x' y y'} h h' => ?_) h hs
  rw [lt, lt, h, h']
  split
  · exact h'
  · exact h

/-- The product is that of the scalars without the one that it starts from. -/
theorem product_cons (x : α) (xs : List α) : Same (product (x :: xs)) (xs.foldl mul x) := by
  change Same (xs.foldl mul (mul one x)) _
  exact foldl_congr Congruent.mul_congr (Congruent.one_mul x) (List.forall₂_same.mpr fun _ _ => rfl)

theorem div_foldl_congr {x y : α} {xs ys : List α} (h : Same x y) (hs : List.Forall₂ Same xs ys)
    (hne : ∀ d ∈ xs, isZero d = false) : Same (xs.foldl div x) (ys.foldl div y) := by
  induction hs generalizing x y with
  | nil => exact h
  | cons h' _ ih =>
    exact ih (Congruent.div_congr h h' (hne _ List.mem_cons_self)) fun d hd =>
      hne d (List.mem_cons_of_mem _ hd)

end Scalar

open Scalar

/-- The scalar is the number that the outcome is, if this is a value. -/
def Agrees (y : α) (o : Partially α (Reading α)) : Prop := Yields (fun r => Same y r.value) o

/-- The scalars are the numbers that the operands are, one by one. -/
def AgreesAll (ys : List α) (args : List (Argument α)) : Prop :=
  List.Forall₂ (fun y a => Agrees y (a.value ())) ys args

theorem agrees_value {y x : α} (h : Same y x) : Agrees y (value x) := yields_of h

theorem agrees_andThen {β : Type} {y : α} {o : Partially α β} {f : β → Partially α (Reading α)}
    (h : ∀ x, o = .ok (some x) → Agrees y (f x)) : Agrees y (andThen o f) := yields_andThen h

variable {args : List (Argument α)} {y : α} {ys : List α}

theorem AgreesAll.values (h : AgreesAll ys args) {xs : List (Reading α)}
    (hxs : Argument.values args = .ok (some xs)) : List.Forall₂ Same ys (xs.map (·.value)) := by
  induction h generalizing xs with
  | nil =>
    cases hxs
    exact .nil
  | cons ha _ ih =>
    obtain ⟨x, hx, hxs⟩ := exists_of_andThen hxs
    obtain ⟨rest, hrest, hxs⟩ := exists_of_andThen hxs
    cases hxs
    exact .cons (ha x hx) (ih hrest)

theorem AgreesAll.nth (h : AgreesAll ys args) {k : Nat} (hk : ys[k]? = some y) :
    Agrees y (Argument.nth args k) := by
  induction h generalizing k with
  | nil => simp at hk
  | cons ha _ ih =>
    cases k with
    | zero =>
      obtain rfl := Option.some.inj hk
      exact ha
    | succ k => exact ih hk

namespace Operator

variable {custom : String → Option (CustomEvaluator α)} {text : Unit → Except Fault String}

/-! ### Arithmetic and comparisons -/

/-- An operator that first asks for the values of all operands. -/
theorem agrees_strict {op : Operator} {z : α} (h : AgreesAll ys args)
    (hz : ∀ xs : List (Reading α), List.Forall₂ Same ys (xs.map (·.value)) →
      Agrees z (computeStrict op text xs)) :
    Agrees z (andThen (Argument.values args) (computeStrict op text)) :=
  agrees_andThen fun xs hxs => hz xs (h.values hxs)

theorem agrees_complement (h : AgreesAll [y] args) :
    Agrees (ofBool (isZero y)) (complement.evaluate custom text args) := by
  refine agrees_strict h fun xs hs => ?_
  rcases xs with _ | ⟨x, xs⟩
  · cases hs
  · obtain _ | ⟨hx, -⟩ := hs
    exact agrees_value (by rw [isZero_congr hx]; rfl)

theorem agrees_comparison {c : Comparison} {x : α} (h : AgreesAll [x, y] args) :
    Agrees (ofBool (c.holds x y)) ((comparison c).evaluate custom text args) := by
  refine agrees_strict h fun xs hs => ?_
  rcases xs with _ | ⟨x', _ | ⟨y', xs⟩⟩
  · cases hs
  · obtain _ | ⟨-, hs⟩ := hs
    cases hs
  · obtain _ | ⟨hx, hs⟩ := hs
    obtain _ | ⟨hy, hs⟩ := hs
    obtain rfl : xs = [] := by
      cases xs with
      | nil => rfl
      | cons _ _ => cases hs
    refine agrees_value ?_
    rw [Comparison.holds, Comparison.holds, hx, hy]
    rfl

theorem value_subtractAll (x : Reading α) (xs : List (Reading α)) :
    (subtractAll x xs).value = (xs.map (·.value)).foldl sub x.value := by
  induction xs generalizing x with
  | nil => rfl
  | cons y xs ih => exact ih (.computed (sub x.value y.value))

theorem value_divideAll {x r : Reading α} {xs : List (Reading α)}
    (h : divideAll text x xs = .ok (some r)) : r.value = (xs.map (·.value)).foldl div x.value := by
  induction xs generalizing x with
  | nil =>
    cases h
    rfl
  | cons y xs ih =>
    rw [divideAll] at h
    split at h
    · split at h <;> cases h
    · exact ih h

variable [Congruent α]

theorem agrees_negation (h : AgreesAll [y] args) :
    Agrees (neg y) (negation.evaluate custom text args) := by
  refine agrees_strict h fun xs hs => ?_
  rcases xs with _ | ⟨x, xs⟩
  · cases hs
  · obtain _ | ⟨hx, -⟩ := hs
    exact agrees_value (Congruent.neg_congr hx)

theorem agrees_total {xs : List (Reading α)} (hs : List.Forall₂ Same ys (xs.map (·.value)))
    (hadds : AddsUp (xs.map (·.value))) : Agrees (leftTotal ys) (total xs) := by
  intro r hr
  unfold total at hr
  rcases hsum : Scalar.sum (xs.map (·.value)) with f | z <;> rw [hsum] at hr <;> cases hr
  exact (leftTotal_congr hs).trans (hadds z hsum)

theorem agrees_sum (h : AgreesAll ys args)
    (hadds : ∀ xs, Argument.values args = .ok (some xs) → AddsUp (xs.map (·.value))) :
    Agrees (leftTotal ys) (sum.evaluate custom text args) :=
  agrees_andThen fun xs hxs => agrees_total (h.values hxs) (hadds xs hxs)

theorem agrees_difference (h : AgreesAll (y :: ys) args) :
    Agrees (ys.foldl sub y) (difference.evaluate custom text args) := by
  refine agrees_strict h fun xs hs => ?_
  rcases xs with _ | ⟨x, xs⟩
  · cases hs
  · obtain _ | ⟨hx, hs⟩ := hs
    rintro r ⟨⟩
    rw [value_subtractAll]
    exact foldl_congr Congruent.sub_congr hx hs

theorem agrees_product (h : AgreesAll (y :: ys) args) :
    Agrees (ys.foldl mul y) (product.evaluate custom text args) := by
  refine agrees_strict h fun xs hs => ?_
  rcases xs with _ | ⟨x, xs⟩
  · cases hs
  · obtain _ | ⟨hx, hs⟩ := hs
    exact agrees_value ((foldl_congr Congruent.mul_congr hx hs).trans (product_cons _ _).symm)

theorem agrees_quotient (h : AgreesAll (y :: ys) args) (hne : ∀ d ∈ ys, isZero d = false) :
    Agrees (ys.foldl div y) (quotient.evaluate custom text args) := by
  refine agrees_strict h fun xs hs => ?_
  rcases xs with _ | ⟨x, xs⟩
  · cases hs
  · obtain _ | ⟨hx, hs⟩ := hs
    intro r hr
    rw [value_divideAll hr]
    exact div_foldl_congr hx hs hne

/-! ### Connectives -/

omit [Congruent α] in
theorem agrees_conjunction (h : AgreesAll ys args) :
    Agrees (ofBool (ys.all fun y => !isZero y)) (conjunction.evaluate custom text args) := by
  change Agrees _ (evaluateAll args)
  induction h with
  | nil => exact agrees_value rfl
  | @cons y a ys args ha _ ih =>
    refine agrees_andThen fun x hx => ?_
    rw [List.all_cons, isZero_congr (ha x hx)]
    cases hzero : isZero x.value with
    | true => exact agrees_value rfl
    | false => exact ih

omit [Congruent α] in
theorem agrees_disjunction (h : AgreesAll ys args) :
    Agrees (ofBool (ys.any fun y => !isZero y)) (disjunction.evaluate custom text args) := by
  change Agrees _ (evaluateAny args)
  induction h with
  | nil => exact agrees_value rfl
  | @cons y a ys args ha _ ih =>
    refine agrees_andThen fun x hx => ?_
    rw [List.any_cons, isZero_congr (ha x hx)]
    cases hzero : isZero x.value with
    | true => exact ih
    | false => exact agrees_value rfl

/-! ### Named operators over inline operands -/

variable (hinline : Argument.soleCollection? args = none)

include hinline in
theorem agrees_evaluateSum (h : AgreesAll ys args)
    (hadds : ∀ xs, Argument.values args = .ok (some xs) → AddsUp (xs.map (·.value))) :
    Agrees (leftTotal ys) (evaluateSum args) := by
  rw [evaluateSum, Argument.withItems_inline hinline]
  exact agrees_andThen fun xs hxs => agrees_total (h.values hxs) (hadds xs hxs)

omit [Congruent α] in
/-- An aggregate of the values of its operands, of which there is a first one. -/
theorem agrees_aggregate {name : String} {z : α}
    {f : Reading α → List (Reading α) → Partially α (Reading α)}
    (hinline : Argument.soleCollection? args = none)
    (h : AgreesAll (y :: ys) args) (hf : ∀ x xs, Argument.values args = .ok (some (x :: xs)) →
      Same y x.value → List.Forall₂ Same ys (xs.map (·.value)) → Agrees z (f x xs)) :
    Agrees z (aggregate name f args) := by
  rw [aggregate, Argument.withItems_inline hinline]
  refine agrees_andThen fun xs hxs => ?_
  have hs := h.values hxs
  rcases xs with _ | ⟨x, xs⟩
  · cases hs
  · obtain _ | ⟨hx, hs⟩ := hs
    exact hf x xs hxs hx hs

include hinline in
theorem agrees_evaluateAverage (h : AgreesAll (y :: ys) args)
    (hadds : ∀ xs, Argument.values args = .ok (some xs) → AddsUp (xs.map (·.value)))
    (hcount : isZero (ofInt (ys.length + 1) : α) = false) :
    Agrees (div (leftTotal (y :: ys)) (ofInt (ys.length + 1))) (aggregate "avg" average args) := by
  refine agrees_aggregate hinline h fun x xs hxs hx hs => agrees_andThen fun total htotal => ?_
  have hsum := agrees_total (List.Forall₂.cons hx hs) (hadds _ hxs) total htotal
  have hlength : xs.length = ys.length := by simpa using hs.length_eq.symm
  rw [hlength]
  exact agrees_value (Congruent.div_congr hsum rfl hcount)

omit [Congruent α]

theorem value_least {x r : Reading α} {xs : List (Reading α)} (h : least x xs = .ok (some r)) :
    r.value = Scalar.least x.value (xs.map (·.value)) := by
  obtain rfl := Option.some.inj (Except.ok.inj h)
  clear h
  induction xs generalizing x with
  | nil => rfl
  | cons y xs ih =>
    rw [List.foldl_cons, ih, Scalar.least, Scalar.least, List.map_cons, List.foldl_cons]
    congr 1
    split <;> rfl

theorem value_greatest {x r : Reading α} {xs : List (Reading α)} (h : greatest x xs = .ok (some r)) :
    r.value = Scalar.greatest x.value (xs.map (·.value)) := by
  obtain rfl := Option.some.inj (Except.ok.inj h)
  clear h
  induction xs generalizing x with
  | nil => rfl
  | cons y xs ih =>
    rw [List.foldl_cons, ih, Scalar.greatest, Scalar.greatest, List.map_cons, List.foldl_cons]
    congr 1
    split <;> rfl

include hinline in
theorem agrees_evaluateLeast (h : AgreesAll (y :: ys) args) :
    Agrees (Scalar.least y ys) (aggregate "min" least args) :=
  agrees_aggregate hinline h fun x xs _ hx hs r hr => by
    change Same _ r.value
    rw [value_least hr]
    exact least_congr hx hs

include hinline in
theorem agrees_evaluateGreatest (h : AgreesAll (y :: ys) args) :
    Agrees (Scalar.greatest y ys) (aggregate "max" greatest args) :=
  agrees_aggregate hinline h fun x xs _ hx hs r hr => by
    change Same _ r.value
    rw [value_greatest hr]
    exact greatest_congr hx hs

include hinline in
theorem agrees_evaluateCount : Agrees (ofInt args.length) (evaluateCount args) := by
  rw [evaluateCount, hinline]
  exact agrees_value rfl

theorem agrees_evaluateAbsolute [Congruent α] (h : Agrees y (Argument.nth args 0)) :
    Agrees (abs y) (evaluateAbsolute args) :=
  agrees_andThen fun x hx => agrees_value (Congruent.abs_congr (h x hx))

theorem agrees_evaluatePower [Congruent α] {x z : α} (h : AgreesAll (x :: y :: ys) args)
    (hz : power x y = .ok z) : Agrees z (evaluatePower args) := by
  refine agrees_andThen fun xs hxs => ?_
  have hs := h.values hxs
  rcases xs with _ | ⟨x', _ | ⟨y', xs⟩⟩
  · cases hs
  · obtain _ | ⟨-, hs⟩ := hs
    cases hs
  · obtain _ | ⟨hx, hs⟩ := hs
    obtain _ | ⟨hy, -⟩ := hs
    dsimp only
    split
    · exact agrees_value (Congruent.power_congr hx hy hz ‹_›)
    · rintro r ⟨⟩

theorem agrees_evaluateConditional {c t e : α} (hc : Agrees c (Argument.nth args 0))
    (ht : Agrees t (Argument.nth args 1)) (he : Agrees e (Argument.nth args 2)) :
    Agrees (if isZero c then e else t) (evaluateConditional args) := by
  refine agrees_andThen fun x hx => ?_
  rw [isZero_congr (hc x hx)]
  cases isZero x.value with
  | true => exact he
  | false => exact ht

/-- The scalar beside the first one that is not zero, or the last one. -/
def firstMatch : List α → Option α
  | [] => none
  | [otherwise] => some otherwise
  | condition :: result :: rest =>
    if isZero condition then (if rest.isEmpty then some result else firstMatch rest) else some result

/-- The second of the first pair whose first scalar is not zero, or the last argument. -/
def pick : List (α × α) → α → α
  | [], otherwise => otherwise
  | (condition, result) :: rest, otherwise => if isZero condition then pick rest otherwise else result

theorem agrees_evaluateFirstMatch {z : α} (h : AgreesAll ys args) (hz : firstMatch ys = some z) :
    Agrees z (evaluateFirstMatch args) := by
  fun_induction evaluateFirstMatch args generalizing ys with
  | case1 =>
    cases h
    cases hz
  | case2 otherwise =>
    obtain _ | ⟨ha, h⟩ := h
    cases h
    cases hz
    exact ha
  | case3 condition result rest ih =>
    obtain _ | ⟨hc, h⟩ := h
    obtain _ | ⟨hr, h⟩ := h
    refine agrees_andThen fun c hc' => ?_
    have hempty (us : List α) (hus : AgreesAll us rest) : us.isEmpty = rest.isEmpty := by
      cases hus <;> rfl
    rw [firstMatch, isZero_congr (hc c hc'), hempty _ h] at hz
    split at hz <;> rename_i hzero
    · split at hz <;> rename_i hrest
      · obtain rfl := Option.some.inj hz
        rwa [if_pos hzero, if_pos hrest]
      · rw [if_pos hzero, if_neg hrest]
        exact ih h hz
    · obtain rfl := Option.some.inj hz
      rwa [if_neg hzero]

/-- Where a reading is the same as another only if they are equal, a test for the one is one for its
value. -/
theorem any_isSame {x : Reading α} {xs : List (Reading α)} (h : Same y x.value)
    (hs : List.Forall₂ Same ys (xs.map (·.value)))
    (hsame : ∀ x' ∈ xs, x.isSame x' = eq x.value x'.value) :
    ys.any (eq y) = xs.any x.isSame := by
  generalize hzs : xs.map (·.value) = zs at hs
  induction hs generalizing xs with
  | nil =>
    obtain rfl := List.map_eq_nil_iff.mp hzs
    rfl
  | cons h' _ ih =>
    obtain ⟨x', xs, rfl, rfl, rfl⟩ := List.map_eq_cons_iff.mp hzs
    rw [List.any_cons, List.any_cons, ih (fun z hz => hsame z (List.mem_cons_of_mem _ hz)) rfl,
      hsame x' List.mem_cons_self, eq, eq, h, h']

/-- A number is among operands. Beside equal numbers, one that was read twice from its place would
count as found, which must not make a difference. -/
theorem agrees_evaluateMembership (h : AgreesAll (y :: ys) args)
    (hinline : Argument.soleCollection? args.tail = none)
    (hsame : ∀ x xs, Argument.nth args 0 = .ok (some x) → Argument.values args.tail = .ok (some xs) →
      ∀ x' ∈ xs, x.isSame x' = eq x.value x'.value) :
    Agrees (ofBool (ys.any (eq y))) (evaluateMembership args) := by
  refine agrees_andThen fun x hx => ?_
  rw [Argument.withItems_inline hinline]
  refine agrees_andThen fun xs hxs => agrees_value ?_
  obtain _ | ⟨ha, hs⟩ := h
  have hsame := hsame x xs hx hxs
  have hany : ys.any (eq y) = xs.any x.isSame := any_isSame (ha x hx) (AgreesAll.values hs hxs) hsame
  rw [hany]
  rfl

theorem agrees_evaluateNonMembership [Congruent α] {b : Bool}
    (h : Agrees (ofBool b) (evaluateMembership args)) :
    Agrees (sub one (ofBool b)) (evaluateNonMembership args) :=
  agrees_andThen fun x hx => agrees_value (Congruent.sub_congr rfl (h x hx))

/-- The operand at a position, counted from one. -/
theorem agrees_evaluateEntry {z : α} {position : Int} (h : AgreesAll (y :: ys) args)
    (hinline : Argument.soleCollection? args.tail = none) (hround : (exact y).round = .ok position)
    (hz : Reader.entry? ys position = some z) : Agrees z (evaluateEntry args) := by
  obtain ⟨k, rfl, hk⟩ := Reader.entry?_eq_some.mp hz
  refine agrees_andThen fun x hx => ?_
  have hindex : exact y = exact x.value := h.nth (k := 0) rfl x hx
  rw [← hindex, hround]
  dsimp only
  rw [hinline]
  dsimp only
  split
  · refine h.nth (k := k + 1) ?_
    rwa [List.getElem?_cons_succ]
  · rintro r ⟨⟩

/-! ### Named operators over a collection -/

section

variable {c : CollectionArgument α} {xs : List α} (hcollection : Argument.soleCollection? args = some c)
  (hxs : c.values () = .ok (some xs))

omit [Scalar α] in
theorem value_computed (xs : List α) : (xs.map Reading.computed).map (·.value) = xs := by
  rw [List.map_map]
  exact List.map_id xs

include hcollection hxs in
theorem agrees_withItems {f : List (Reading α) → String → Partially α (Reading α)}
    (hf : ∀ source, Agrees y (f (xs.map Reading.computed) source)) :
    Agrees y (Argument.withItems args f) := by
  intro r hr
  obtain ⟨_, source, hf', ⟨c', vs, hc', hvs, rfl⟩ | ⟨hnone, -⟩⟩ := Argument.exists_of_withItems hr
  · cases hcollection.symm.trans hc'
    cases hxs.symm.trans hvs
    exact hf source r hf'
  · cases hcollection.symm.trans hnone

theorem agrees_total_computed (h : Scalar.sum xs = .ok y) :
    Agrees y (total (xs.map Reading.computed)) := by
  intro r hr
  rw [total, value_computed, h] at hr
  cases hr
  rfl

include hcollection hxs in
theorem agrees_evaluateSum_collection (h : Scalar.sum xs = .ok y) : Agrees y (evaluateSum args) :=
  agrees_withItems hcollection hxs fun _ => agrees_total_computed h

include hcollection hxs in
theorem agrees_evaluateCount_collection : Agrees (ofInt xs.length) (evaluateCount args) := by
  rw [evaluateCount, hcollection]
  dsimp only
  rw [hxs]
  exact agrees_value rfl

include hcollection hxs in
theorem agrees_evaluateAverage_collection {sum : α} {x : α} {rest : List α} (hcons : xs = x :: rest)
    (h : Scalar.sum xs = .ok sum) :
    Agrees (div sum (ofInt xs.length)) (aggregate "avg" average args) := by
  refine agrees_withItems hcollection hxs fun _ => ?_
  subst hcons
  have htotal : total ((x :: rest).map Reading.computed) = .ok (some (.computed sum)) := by
    rw [total, value_computed, h]
    rfl
  refine agrees_andThen fun y hy => ?_
  obtain rfl := Option.some.inj (Except.ok.inj (htotal.symm.trans hy))
  rw [List.length_map]
  exact agrees_value rfl

include hcollection hxs in
theorem agrees_evaluateLeast_collection {x : α} {rest : List α} (hcons : xs = x :: rest) :
    Agrees (Scalar.least x rest) (aggregate "min" least args) := by
  refine agrees_withItems hcollection hxs fun _ r hr => ?_
  subst hcons
  rw [value_least hr, value_computed]
  rfl

include hcollection hxs in
theorem agrees_evaluateGreatest_collection {x : α} {rest : List α} (hcons : xs = x :: rest) :
    Agrees (Scalar.greatest x rest) (aggregate "max" greatest args) := by
  refine agrees_withItems hcollection hxs fun _ r hr => ?_
  subst hcons
  rw [value_greatest hr, value_computed]
  rfl

variable {a : Argument α} (hcontainer : Argument.soleCollection? args = some c)
    (ha : Agrees y (a.value ()))

include hcontainer hxs ha in
theorem agrees_evaluateMembership_collection :
    Agrees (ofBool (isMember y xs)) (evaluateMembership (a :: args)) := by
  refine agrees_andThen fun x hx => agrees_withItems hcontainer hxs fun _ => agrees_value ?_
  have hany : (xs.map Reading.computed).any x.isSame = xs.any (eq x.value) := by
    rw [List.any_map]
    congr 1
    funext x'
    cases hplace : x.place <;> simp [Reading.isSame, Reading.computed, hplace]
  rw [hany, isMember, show eq y = eq x.value by funext z; rw [eq, eq, ha x hx]]
  rfl

include hcontainer hxs ha in
theorem agrees_evaluateEntry_collection {z : α} {position : Int}
    (hround : (exact y).round = .ok position)
    (hz : Reader.entry? xs position = some z) : Agrees z (evaluateEntry (a :: args)) := by
  have hrange := Reader.range_of_entry hz
  obtain ⟨k, rfl, hk⟩ := Reader.entry?_eq_some.mp hz
  refine agrees_andThen fun x hx => ?_
  have hindex : exact y = exact x.value := ha x hx
  rw [← hindex, hround]
  dsimp only
  rw [List.tail_cons, hcontainer]
  dsimp only
  rw [hxs]
  change Agrees z (if _ then _ else _)
  rw [if_pos hrange, show ((k : Int) + 1).toNat - 1 = k by omega, hk]
  exact agrees_value rfl

end

end Operator

end DecisionModel
