import Mathlib.Data.List.Forall2
import DecisionModel.Evaluation.Operator
import DecisionModel.Proofs.Term.WellBuilt

/-!
# Outcomes that extend each other

An outcome `o'` extends an outcome `o` if it is the same wherever `o` is not missing
(`Outcome.Extends`). Which missing values and which errors may occur in `o` at all is a parameter,
`Allowed`, so that one pass over the operators serves for several laws: with missing values allowed,
that more stored values change no value and no error; with one and the same outcome on both sides, that
no value is missing, or that only certain errors are raised.

An operator asks for its operands from left to right and stops at the first missing value or error.
Hence its outcome is extended if the outcomes of its operands are (`evaluate_extends`), as long as it
has the operands that it reads (`Operator.Served`) or the fault that it has not is allowed.
-/

namespace DecisionModel

variable {α β γ : Type}

/-- What an outcome may be besides a value. -/
structure Allowed (α : Type) where
  missing : Prop
  error : EvaluationError α → Prop

/-- Faults of arithmetic: a number without an integer near it, a sum that does not exist or leaves the
finite range, and an integer beyond the range of scalars. -/
def Fault.isNumeric : Fault → Bool
  | nanToInteger | infinityToInteger | oppositeInfinities | sumOverflow | integerTooLarge => true
  | _ => false

/-- Faults of rounding: a number without an integer near it, and a sum that does not exist or leaves the
finite range. -/
def Fault.isRounding : Fault → Bool
  | nanToInteger | infinityToInteger | oppositeInfinities | sumOverflow => true
  | _ => false

theorem Fault.isNumeric_of_isRounding {f : Fault} (h : f.isRounding = true) : f.isNumeric = true := by
  cases f <;> first | rfl | cases h

/-- All errors of the modelling language are allowed, and the faults of rounding. -/
structure Allowed.Regular (A : Allowed α) : Prop where
  undefined {e : EvaluationError α} : e.isUndefined = true → A.error e
  rounding {f : Fault} : f.isRounding = true → A.error (.fault f)

/-- The faults of a node with too few operands or too many are allowed. -/
structure Allowed.Malformed (A : Allowed α) : Prop where
  operand : A.error (.fault .missingOperand)
  count (m n : Nat) : A.error (.fault (.operandCount m n))

variable {A : Allowed α}

namespace Outcome

/-- The outcome is allowed, and the other one is the same unless it is missing. -/
def Extends (A : Allowed α) (o o' : Partially α β) : Prop :=
  match o with
  | .error e => A.error e ∧ o' = .error e
  | .ok none => A.missing
  | .ok (some x) => o' = .ok (some x)

theorem exists_of_andThen {o : Partially α β} {f : β → Partially α γ} {y : γ}
    (h : andThen o f = .ok (some y)) : ∃ x, o = .ok (some x) ∧ f x = .ok (some y) := by
  obtain e | _ | x := o
  · cases h
  · cases h
  · exact ⟨x, rfl, h⟩

theorem extends_some (x : β) : Extends A (.ok (some x)) (.ok (some x)) := rfl

theorem extends_error {e : EvaluationError α} (h : A.error e) :
    Extends A (.error e : Partially α β) (.error e) := ⟨h, rfl⟩

/-- An outcome extends itself if it is allowed. -/
theorem extends_self_iff {o : Partially α β} :
    Extends A o o ↔ (o = .ok none → A.missing) ∧ ∀ e, o = .error e → A.error e := by
  obtain e | _ | x := o
  · simp [Extends]
  · simp [Extends]
  · simp [Extends]

theorem extends_andThen {o o' : Partially α β} {f f' : β → Partially α γ} (h : Extends A o o')
    (hf : ∀ x, o = .ok (some x) → Extends A (f x) (f' x)) :
    Extends A (andThen o f) (andThen o' f') := by
  obtain e | _ | x := o
  · obtain ⟨he, rfl⟩ := h
    exact ⟨he, rfl⟩
  · exact h
  · obtain rfl := h
    exact hf x rfl

end Outcome

open Outcome

/-- Two references to one collection: the text is the same, and where it cannot be written the values
are the same. -/
structure CollectionArgument.Extends (A : Allowed α) (c c' : CollectionArgument α) : Prop where
  values : Outcome.Extends A (c.values ()) (c'.values ())
  text : c'.text () = c.text ()
  unwritten {f : Fault} : c.text () = .error f → A.error (.fault f) ∧ c'.values () = c.values ()

/-- The outcome of one operand extends that of the other, and both refer to one collection or to
none. -/
structure Argument.Extends (A : Allowed α) (a a' : Argument α) : Prop where
  value : Outcome.Extends A (a.value ()) (a'.value ())
  collection : Option.Rel (CollectionArgument.Extends A) a.collection a'.collection

/-- Operand by operand. -/
abbrev Argument.ExtendsAll (A : Allowed α) : List (Argument α) → List (Argument α) → Prop :=
  List.Forall₂ (Argument.Extends A)

namespace Argument

variable {args args' : List (Argument α)}

theorem nth_extends (h : ExtendsAll A args args') {k : Nat}
    (hk : k < args.length ∨ A.error (.fault .missingOperand)) :
    Outcome.Extends A (nth args k) (nth args' k) := by
  induction h generalizing k with
  | nil =>
    rcases hk with hk | hk
    · exact absurd hk (Nat.not_lt_zero k)
    · exact extends_error hk
  | cons ha _ ih =>
    cases k with
    | zero => exact ha.value
    | succ k => exact ih (hk.imp_left Nat.lt_of_succ_lt_succ)

theorem values_extends (h : ExtendsAll A args args') :
    Outcome.Extends A (values args) (values args') := by
  induction h with
  | nil => exact extends_some []
  | cons ha _ ih =>
    refine extends_andThen ha.value fun x _ => ?_
    exact extends_andThen ih fun xs _ => extends_some (x :: xs)

theorem length_of_values {xs : List (Reading α)} (h : values args = .ok (some xs)) :
    xs.length = args.length := by
  induction args generalizing xs with
  | nil =>
    cases h
    rfl
  | cons a args ih =>
    rcases ha : a.value () with e | _ | x
    · simp [values, ha, andThen] at h
    · simp [values, ha, andThen] at h
    · rcases hv : values args with e | _ | ys
      · simp [values, ha, hv, andThen] at h
      · simp [values, ha, hv, andThen] at h
      · obtain rfl : x :: ys = xs := by simpa [values, ha, hv, andThen] using h
        rw [List.length_cons, List.length_cons, ih hv]

theorem soleCollection_extends (h : ExtendsAll A args args') :
    Option.Rel (CollectionArgument.Extends A) (soleCollection? args) (soleCollection? args') := by
  cases h with
  | nil => exact .none
  | cons ha h =>
    cases h with
    | nil => exact ha.collection
    | cons _ _ => exact .none

/-- The items of one collection whose text can be written: its values. -/
theorem withItems_collection {c : CollectionArgument α} (hc : soleCollection? args = some c)
    {s : String} (hs : c.text () = .ok s) (f : List (Reading α) → String → Partially α β) :
    withItems args f = andThen (c.values ()) fun xs => f (xs.map Reading.computed) s := by
  rcases hv : c.values () with e | _ | xs <;>
    simp [withItems, items, hc, hv, hs, Outcome.lift, andThen, bind, Except.bind, pure, Except.pure]

/-- A text that cannot be written decides even if values are missing. -/
theorem withItems_unwritten {c : CollectionArgument α} (hc : soleCollection? args = some c)
    {fault : Fault} (hf : c.text () = .error fault) (f : List (Reading α) → String → Partially α β) :
    withItems args f = (c.values ()).bind fun _ => .error (.fault fault) := by
  rcases hv : c.values () with e | xs <;>
    simp [withItems, items, hc, hv, hf, Outcome.lift, bind, Except.bind]

/-- The items of inline operands are their values. -/
theorem withItems_inline (hc : soleCollection? args = none)
    (f : List (Reading α) → String → Partially α β) :
    withItems args f = andThen (values args) fun xs => f xs "operands" := by
  rcases hv : values args with e | _ | xs <;>
    simp [withItems, items, hc, hv, andThen, bind, Except.bind, pure, Except.pure]

/-- What is computed from items is computed from the values of a collection or from those of the operands. -/
theorem exists_of_withItems {f : List (Reading α) → String → Partially α β} {z : β}
    (h : withItems args f = .ok (some z)) : ∃ xs source, f xs source = .ok (some z) ∧
      ((∃ c vs, soleCollection? args = some c ∧ c.values () = .ok (some vs) ∧ xs = vs.map Reading.computed) ∨
        soleCollection? args = none ∧ values args = .ok (some xs)) := by
  rcases hc : soleCollection? args with _ | c
  · rw [withItems_inline hc] at h
    obtain ⟨xs, hxs, h⟩ := exists_of_andThen h
    exact ⟨xs, _, h, .inr ⟨rfl, hxs⟩⟩
  · rcases ht : c.text () with fault | s
    · rw [withItems_unwritten hc ht] at h
      rcases hv : c.values () with e | xs <;> rw [hv] at h <;> cases h
    · rw [withItems_collection hc ht] at h
      obtain ⟨xs, hxs, h⟩ := exists_of_andThen h
      exact ⟨_, s, h, .inl ⟨c, xs, rfl, hxs, rfl⟩⟩

theorem withItems_extends (h : ExtendsAll A args args')
    {f : List (Reading α) → String → Partially α β}
    (hf : ∀ xs source, Outcome.Extends A (f xs source) (f xs source)) :
    Outcome.Extends A (withItems args f) (withItems args' f) := by
  have hsole := soleCollection_extends h
  rcases hc : soleCollection? args with _ | c <;> rcases hc' : soleCollection? args' with _ | c' <;>
    rw [hc, hc'] at hsole
  · rw [withItems_inline hc, withItems_inline hc']
    exact extends_andThen (values_extends h) fun xs _ => hf xs "operands"
  · cases hsole
  · cases hsole
  · cases hsole with | some hcc => ?_
    have hv := hcc.values
    rcases ht : c.text () with fault | s
    · obtain ⟨hfault, hsame⟩ := hcc.unwritten ht
      rw [withItems_unwritten hc ht, withItems_unwritten hc' (hcc.text.trans ht), hsame]
      rw [hsame] at hv
      rcases hvs : c.values () with e | xs
      · rw [hvs] at hv
        exact extends_error hv.1
      · exact extends_error hfault
    · rw [withItems_collection hc ht, withItems_collection hc' (hcc.text.trans ht)]
      exact extends_andThen hv fun xs _ => hf _ s

end Argument

namespace Operator

variable [Scalar α] {args args' : List (Argument α)} {text : Unit → Except Fault String}

/-- An operator with so many operands has those that it reads. -/
def Served (op : Operator) (n : Nat) : Prop :=
  match op with
  | comparison _ => n = 2
  | wrapper | negation | complement | difference | quotient | collection | entry => 0 < n
  | custom name => operandsRead name ≤ n
  | _ => True

omit [Scalar α] in
/-- Operands of the form that the operator calls for are as many as it reads. -/
theorem Shape.served {op : Operator} {ts : List (Term α)} (h : op.Shape ts) :
    op.Served ts.length := by
  cases op with
  | wrapper | negation | complement | collection =>
    obtain ⟨t, rfl⟩ := h
    exact Nat.one_pos
  | comparison c =>
    obtain ⟨s, t, rfl⟩ := h
    rfl
  | entry =>
    obtain ⟨container, index, rfl, -⟩ := h
    exact Nat.two_pos
  | difference | quotient => exact List.length_pos_iff.mpr h
  | custom name => exact h.2
  | _ => trivial

/-! ### Faults of rounding -/

theorem isRounding_of_round {x : Exact} {f : Fault} (h : x.round = .error f) :
    f.isRounding = true := by
  cases x <;> cases h <;> rfl

theorem isRounding_of_step {s : RunningSum α} {x : α} {f : Fault} (h : s.step x = .error f) :
    f.isRounding = true := by
  unfold RunningSum.step at h
  split at h
  · cases h
  · cases h
  · cases h
  · dsimp only at h
    split at h
    · cases h
      rfl
    · cases h

theorem isRounding_of_steps {s : RunningSum α} {xs : List α} {f : Fault}
    (h : xs.foldlM RunningSum.step s = .error f) : f.isRounding = true := by
  induction xs generalizing s with
  | nil => cases h
  | cons x xs ih =>
    rw [List.foldlM_cons] at h
    rcases hs : s.step x with g | s₁
    · rw [hs] at h
      cases h
      exact isRounding_of_step hs
    · rw [hs] at h
      exact ih h

theorem isRounding_of_sum {xs : List α} {f : Fault} (h : Scalar.sum xs = .error f) :
    f.isRounding = true := by
  unfold Scalar.sum at h
  rcases hs : xs.foldlM RunningSum.step {} with g | s
  · rw [hs] at h
    cases h
    exact isRounding_of_steps hs
  · rw [hs] at h
    change s.result = .error f at h
    unfold RunningSum.result at h
    split at h
    · cases h
      rfl
    · split at h
      · cases h
      · split at h
        · cases h
        · split at h
          · cases h
          · split at h <;> cases h

/-! ### Arithmetic, comparisons and connectives -/

theorem total_extends (hA : A.Regular) (xs : List (Reading α)) : Extends A (total xs) (total xs) := by
  have hsum (f) (hf : Scalar.sum (xs.map (·.value)) = .error f) := isRounding_of_sum hf
  unfold total
  generalize Scalar.sum (xs.map (·.value)) = r at hsum ⊢
  cases r with
  | error f => exact extends_error (hA.rounding (hsum f rfl))
  | ok x => exact extends_some (Reading.computed x)

theorem divideAll_extends (hA : A.Regular) (htext : ∀ f, text () = .error f → A.error (.fault f))
    (x : Reading α) (ys : List (Reading α)) :
    Extends A (divideAll text x ys) (divideAll text x ys) := by
  induction ys generalizing x with
  | nil => exact extends_some x
  | cons y ys ih =>
    unfold divideAll
    split
    · rcases h : text () with f | s
      · exact extends_error (htext f h)
      · exact extends_error (hA.undefined rfl)
    · exact ih _

omit [Scalar α] in
theorem headed_extends {f : Reading α → List (Reading α) → Partially α (Reading α)}
    {xs : List (Reading α)} (hxs : 0 < xs.length ∨ A.error (.fault .missingOperand))
    (hf : ∀ x ys, Extends A (f x ys) (f x ys)) : Extends A (headed f xs) (headed f xs) := by
  cases xs with
  | nil => exact extends_error (hxs.resolve_left (Nat.not_lt_zero 0))
  | cons x ys => exact hf x ys

/-- The operators that compute with the values of all their operands. -/
theorem computeStrict_extends (hA : A.Regular) (htext : ∀ f, text () = .error f → A.error (.fault f))
    {op : Operator} {xs : List (Reading α)} (hs : op.Served xs.length ∨ A.Malformed)
    (hop : op ∈ [negation, complement, sum, difference, product, quotient] ∨
      ∃ c, op = comparison c) :
    Extends A (computeStrict op text xs) (computeStrict op text xs) := by
  cases op with
  | negation => exact headed_extends (hs.imp_right (·.operand)) fun _ _ => extends_some _
  | complement => exact headed_extends (hs.imp_right (·.operand)) fun _ _ => extends_some _
  | sum => exact total_extends hA xs
  | difference => exact headed_extends (hs.imp_right (·.operand)) fun _ _ => extends_some _
  | product => exact extends_some _
  | quotient => exact headed_extends (hs.imp_right (·.operand)) (divideAll_extends hA htext)
  | comparison c =>
    simp only [computeStrict]
    split
    · exact extends_some _
    · rename_i hne
      rcases hs with hs | hs
      · obtain ⟨x, y, rfl⟩ := List.length_eq_two.mp hs
        exact absurd rfl (hne x y)
      · exact extends_error (hs.count 2 _)
  | _ => simp at hop

theorem evaluateAll_extends (h : Argument.ExtendsAll A args args') :
    Extends A (evaluateAll args) (evaluateAll args') := by
  induction h with
  | nil => exact extends_some _
  | cons ha _ ih =>
    refine extends_andThen ha.value fun x _ => ?_
    split
    · exact extends_some _
    · exact ih

theorem evaluateAny_extends (h : Argument.ExtendsAll A args args') :
    Extends A (evaluateAny args) (evaluateAny args') := by
  induction h with
  | nil => exact extends_some _
  | cons ha _ ih =>
    refine extends_andThen ha.value fun x _ => ?_
    split
    · exact ih
    · exact extends_some _

/-! ### Named operators -/

omit [Scalar α] in
theorem aggregate_extends (hA : A.Regular) (h : Argument.ExtendsAll A args args') (name : String)
    {f : Reading α → List (Reading α) → Partially α (Reading α)}
    (hf : ∀ x xs, Extends A (f x xs) (f x xs)) :
    Extends A (aggregate name f args) (aggregate name f args') := by
  refine Argument.withItems_extends h fun xs source => ?_
  cases xs with
  | nil => exact extends_error (hA.undefined rfl)
  | cons x xs => exact hf x xs

theorem average_extends (hA : A.Regular) (x : Reading α) (xs : List (Reading α)) :
    Extends A (average x xs) (average x xs) :=
  extends_andThen (total_extends hA _) fun _ _ => extends_some _

theorem evaluateCount_extends (h : Argument.ExtendsAll A args args') :
    Extends A (evaluateCount args) (evaluateCount args') := by
  have hsole := Argument.soleCollection_extends h
  unfold evaluateCount
  rcases hc : Argument.soleCollection? args with _ | c <;>
    rcases hc' : Argument.soleCollection? args' with _ | c' <;> rw [hc, hc'] at hsole
  · rw [h.length_eq]
    exact extends_some _
  · cases hsole
  · cases hsole
  · cases hsole with | some hcc => ?_
    exact extends_andThen hcc.values fun _ _ => extends_some _

theorem evaluateAbsolute_extends (h : Argument.ExtendsAll A args args')
    (hs : 0 < args.length ∨ A.error (.fault .missingOperand)) :
    Extends A (evaluateAbsolute args) (evaluateAbsolute args') :=
  extends_andThen (Argument.nth_extends h hs) fun _ _ => extends_some _

theorem evaluatePower_extends (hA : A.Regular) (h : Argument.ExtendsAll A args args')
    (hs : 2 ≤ args.length ∨ A.error (.fault .missingOperand)) :
    Extends A (evaluatePower args) (evaluatePower args') := by
  refine extends_andThen (Argument.values_extends h) fun xs hxs => ?_
  have hlen := Argument.length_of_values hxs
  split
  · split
    · exact extends_some _
    · exact extends_error (hA.undefined rfl)
  · rename_i hne
    refine extends_error (hs.resolve_left fun hs => ?_)
    obtain _ | ⟨x, _ | ⟨y, rest⟩⟩ := xs
    · simp at hlen
      omega
    · simp at hlen
      omega
    · exact hne x y rest rfl

theorem evaluateConditional_extends (h : Argument.ExtendsAll A args args')
    (hs : 3 ≤ args.length ∨ A.error (.fault .missingOperand)) :
    Extends A (evaluateConditional args) (evaluateConditional args') := by
  refine extends_andThen (Argument.nth_extends h (hs.imp_left fun hs => by omega)) fun x _ => ?_
  refine Argument.nth_extends h (hs.imp_left fun hs => ?_)
  split <;> omega

theorem evaluateFirstMatch_extends (h : Argument.ExtendsAll A args args')
    (hs : 0 < args.length ∨ A.error (.fault .missingOperand)) :
    Extends A (evaluateFirstMatch args) (evaluateFirstMatch args') := by
  fun_induction evaluateFirstMatch args generalizing args' with
  | case1 =>
    cases h
    exact extends_error (hs.resolve_left (Nat.not_lt_zero 0))
  | case2 otherwise =>
    obtain _ | ⟨ha, h⟩ := h
    cases h
    exact ha.value
  | case3 condition result rest ih =>
    obtain _ | ⟨hc, _ | ⟨hr, h⟩⟩ := h
    refine extends_andThen hc.value fun x _ => ?_
    split
    · cases h with
      | nil => exact hr.value
      | cons hd h => exact ih (.cons hd h) (.inl (Nat.succ_pos _))
    · exact hr.value

theorem evaluateMembership_extends (h : Argument.ExtendsAll A args args')
    (hs : 0 < args.length ∨ A.error (.fault .missingOperand)) :
    Extends A (evaluateMembership args) (evaluateMembership args') := by
  refine extends_andThen (Argument.nth_extends h hs) fun x _ => ?_
  refine Argument.withItems_extends ?_ fun _ _ => extends_some _
  cases h with
  | nil => exact .nil
  | cons _ h => exact h

theorem evaluateNonMembership_extends (h : Argument.ExtendsAll A args args')
    (hs : 0 < args.length ∨ A.error (.fault .missingOperand)) :
    Extends A (evaluateNonMembership args) (evaluateNonMembership args') :=
  extends_andThen (evaluateMembership_extends h hs) fun _ _ => extends_some _

theorem evaluateEntry_extends (hA : A.Regular) (h : Argument.ExtendsAll A args args')
    (hs : 0 < args.length ∨ A.error (.fault .missingOperand)) :
    Extends A (evaluateEntry args) (evaluateEntry args') := by
  refine extends_andThen (Argument.nth_extends h hs) fun index _ => ?_
  rcases hround : (Scalar.exact index.value).round with f | position
  · exact extends_error (hA.rounding (isRounding_of_round hround))
  have htail : Argument.ExtendsAll A args.tail args'.tail := by
    cases h with
    | nil => exact .nil
    | cons _ h => exact h
  have hsole := Argument.soleCollection_extends htail
  rcases hc : Argument.soleCollection? args.tail with _ | c <;>
    rcases hc' : Argument.soleCollection? args'.tail with _ | c' <;> rw [hc, hc'] at hsole
  · dsimp only
    rw [h.length_eq]
    split
    · rename_i hp
      exact Argument.nth_extends h (.inl (by rw [h.length_eq]; omega))
    · exact extends_error (hA.undefined rfl)
  · cases hsole
  · cases hsole
  · cases hsole with | some hcc => ?_
    refine extends_andThen hcc.values fun xs _ => ?_
    split
    · rename_i hp
      rw [List.getElem?_eq_getElem (by omega)]
      exact extends_some _
    · rw [hcc.text]
      rcases ht : c.text () with f | s
      · exact extends_error (hcc.unwritten ht).1
      · exact extends_error (hA.undefined rfl)

/-- The operators with a fixed meaning by name. -/
theorem builtin_extends (hA : A.Regular) (h : Argument.ExtendsAll A args args') {name : String}
    (hs : operandsRead name ≤ args.length ∨ A.error (.fault .missingOperand))
    {evaluator : CustomEvaluator α} (he : builtin? name = some evaluator) :
    Extends A (evaluator args) (evaluator args') := by
  unfold builtin? at he
  split at he <;> cases he
  · exact Argument.withItems_extends h fun xs _ => total_extends hA xs
  · exact aggregate_extends hA h _ (average_extends hA)
  · exact evaluateCount_extends h
  · exact aggregate_extends hA h _ fun _ _ => extends_some _
  · exact aggregate_extends hA h _ fun _ _ => extends_some _
  · exact evaluateAbsolute_extends h hs
  · exact evaluatePower_extends hA h hs
  · exact evaluateConditional_extends h hs
  · exact evaluateFirstMatch_extends h hs
  · exact evaluateMembership_extends h hs
  · exact evaluateNonMembership_extends h hs
  · exact evaluateEntry_extends hA h hs

/-- An operator whose operands extend those of another one extends it, if named operators have their
fixed meaning on both sides and the faults of its text are allowed. -/
theorem evaluate_extends (hA : A.Regular) {op : Operator}
    {custom custom' : String → Option (CustomEvaluator α)}
    (hcustom : ∀ name, op = Operator.custom name →
      custom name = builtin? name ∧ custom' name = builtin? name)
    (htext : ∀ f, text () = .error f → A.error (.fault f))
    (hs : op.Served args.length ∨ A.Malformed) (h : Argument.ExtendsAll A args args') :
    Extends A (op.evaluate custom text args) (op.evaluate custom' text args') := by
  have hstrict : op ∈ [negation, complement, sum, difference, product, quotient] ∨
      (∃ c, op = comparison c) → Extends A (andThen (Argument.values args) (computeStrict op text))
        (andThen (Argument.values args') (computeStrict op text)) := fun hop => by
    refine extends_andThen (Argument.values_extends h) fun xs hxs => ?_
    exact computeStrict_extends hA htext (by rwa [Argument.length_of_values hxs]) hop
  cases op with
  | wrapper => exact Argument.nth_extends h (hs.imp_right (·.operand))
  | conjunction => exact evaluateAll_extends h
  | disjunction => exact evaluateAny_extends h
  | custom name =>
    obtain ⟨hc, hc'⟩ := hcustom name rfl
    simp only [evaluate, hc, hc']
    rcases he : builtin? name with _ | evaluator
    · exact extends_error (hA.undefined rfl)
    · exact builtin_extends hA h (hs.imp_right (·.operand)) he
  | entry =>
    refine evaluateEntry_extends hA ?_ ?_
    · cases h with
      | nil => exact .nil
      | cons ha h => exact List.rel_append h (.cons ha .nil)
    · refine hs.imp (fun hs => ?_) (·.operand)
      obtain _ | ⟨a, rest⟩ := args
      · exact hs
      · simp
  | collection =>
    simp only [evaluate]
    rcases ht : text () with f | s
    · exact extends_error (htext f ht)
    · exact extends_error (hA.undefined rfl)
  | comparison c => exact hstrict (.inr ⟨c, rfl⟩)
  | negation | complement | sum | difference | product | quotient => exact hstrict (by simp)

end Operator

end DecisionModel
