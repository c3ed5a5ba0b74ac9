import DecisionModel.Proofs.Evaluation.Reading

/-!
# Where readings come from

An operator computes its value or hands on the reading of an operand (`evaluate_yields`). So a term
without variables is read from one of the constants in it, unless its value is computed
(`reading_traced`), and two such readings of one place have one value. Hence where no constant is NaN,
membership is a matter of values alone (`isSame_eq`).
-/

namespace DecisionModel

variable {α β : Type}

/-- The reading, if there is one, has the property. -/
def Outcome.Yields (Q : Reading α → Prop) (o : Partially α (Reading α)) : Prop :=
  ∀ r, o = .ok (some r) → Q r

open Outcome

variable {Q : Reading α → Prop}

theorem yields_andThen {o : Partially α β} {f : β → Partially α (Reading α)}
    (h : ∀ x, o = .ok (some x) → Yields Q (f x)) : Yields Q (andThen o f) := by
  intro r hr
  obtain ⟨x, hx, hr⟩ := exists_of_andThen hr
  exact h x hx r hr

theorem yields_error (e : EvaluationError α) : Yields Q (.error e) := fun _ h => nomatch h

theorem yields_of {r : Reading α} (h : Q r) : Yields Q (.ok (some r)) := by
  rintro _ ⟨⟩
  exact h

/-- A fold that takes one of two at each step, or makes something new, keeps the property. -/
theorem of_foldl {f : Reading α → Reading α → Reading α} (hf : ∀ x y, Q x → Q y → Q (f x y))
    {x : Reading α}
    {xs : List (Reading α)} (hx : Q x) (hxs : ∀ y ∈ xs, Q y) : Q (xs.foldl f x) := by
  induction xs generalizing x with
  | nil => exact hx
  | cons y xs ih =>
    obtain ⟨hy, hxs⟩ := List.forall_mem_cons.mp hxs
    exact ih (hf x y hx hy) hxs

theorem of_extremum {better : Reading α → Reading α → Bool} (x : Reading α) (xs : List (Reading α))
    (hx : Q x)
    (hxs : ∀ y ∈ xs, Q y) : Q (xs.foldl (fun m y => if better m y then y else m) x) := by
  refine of_foldl (fun m y hm hy => ?_) hx hxs
  split
  · exact hy
  · exact hm

namespace Operator

theorem yields_value (hQ : ∀ x, Q (.computed x)) (x : α) : Yields Q (value x) := yields_of (hQ x)

variable [Scalar α] {args : List (Argument α)} (hQ : ∀ x, Q (.computed x))
  (hargs : ∀ a ∈ args, Yields Q (a.value ()))

include hargs in
omit [Scalar α] in
theorem yields_nth (k : Nat) : Yields Q (Argument.nth args k) := by
  unfold Argument.nth
  split
  · exact hargs _ (List.mem_of_getElem? ‹_›)
  · exact yields_error _

include hargs in
omit [Scalar α] in
theorem forall_of_values {xs : List (Reading α)} (h : Argument.values args = .ok (some xs)) :
    ∀ x ∈ xs, Q x := by
  induction args generalizing xs with
  | nil =>
    cases h
    exact fun _ hx => nomatch hx
  | cons a args ih =>
    obtain ⟨x, hx, h⟩ := exists_of_andThen h
    obtain ⟨rest, hrest, h⟩ := exists_of_andThen h
    cases h
    refine List.forall_mem_cons.mpr ⟨hargs a List.mem_cons_self x hx, ?_⟩
    exact ih (fun b hb => hargs b (List.mem_cons_of_mem a hb)) hrest

include hQ hargs in
omit [Scalar α] in
theorem yields_withItems {f : List (Reading α) → String → Partially α (Reading α)}
    (hf : ∀ xs source, (∀ x ∈ xs, Q x) → Yields Q (f xs source)) :
    Yields Q (Argument.withItems args f) := by
  intro r hr
  obtain ⟨xs, source, h, ⟨c, vs, -, -, rfl⟩ | ⟨-, hxs⟩⟩ := Argument.exists_of_withItems hr
  · refine hf _ source (fun x hx => ?_) r h
    obtain ⟨y, -, rfl⟩ := List.mem_map.mp hx
    exact hQ y
  · exact hf xs source (forall_of_values hargs hxs) r h

omit [Scalar α] in
theorem yields_headed {f : Reading α → List (Reading α) → Partially α (Reading α)}
    {xs : List (Reading α)} (hxs : ∀ x ∈ xs, Q x)
    (hf : ∀ x ys, Q x → (∀ y ∈ ys, Q y) → Yields Q (f x ys)) : Yields Q (headed f xs) := by
  cases xs with
  | nil => exact yields_error _
  | cons x ys =>
    obtain ⟨hx, hys⟩ := List.forall_mem_cons.mp hxs
    exact hf x ys hx hys

include hargs in
theorem yields_evaluateFirstMatch : Yields Q (evaluateFirstMatch args) := by
  fun_induction evaluateFirstMatch args with
  | case1 => exact yields_error _
  | case2 otherwise => exact hargs otherwise (by simp)
  | case3 condition result rest ih =>
    refine yields_andThen fun c _ => ?_
    split
    · split
      · exact hargs result (by simp)
      · exact ih fun a ha => hargs a (by simp [ha])
    · exact hargs result (by simp)

section

include hQ

theorem yields_total (xs : List (Reading α)) : Yields Q (total xs) := by
  intro r hr
  unfold total at hr
  rcases hsum : Scalar.sum (xs.map (·.value)) with f | z <;> rw [hsum] at hr <;> cases hr
  exact hQ z

theorem yields_divideAll {text : Unit → Except Fault String} {x : Reading α} (hx : Q x)
    (xs : List (Reading α)) : Yields Q (divideAll text x xs) := by
  induction xs generalizing x with
  | nil => exact yields_of hx
  | cons y xs ih =>
    rw [divideAll]
    split
    · split <;> exact yields_error _
    · exact ih (hQ _)

theorem yields_computeStrict {op : Operator} {text : Unit → Except Fault String} {xs : List (Reading α)}
    (hxs : ∀ x ∈ xs, Q x) : Yields Q (computeStrict op text xs) := by
  unfold computeStrict
  split
  · exact yields_headed hxs fun _ _ _ _ => yields_value hQ _
  · exact yields_headed hxs fun _ _ _ _ => yields_value hQ _
  · exact yields_total hQ xs
  · exact yields_headed hxs fun x ys hx hys => yields_of (of_foldl (fun _ _ _ _ => hQ _) hx hys)
  · exact yields_value hQ _
  · exact yields_headed hxs fun x ys hx _ => yields_divideAll hQ hx ys
  · split
    · exact yields_value hQ _
    · exact yields_error _
  · exact yields_error _

include hargs

theorem yields_evaluateAll : Yields Q (evaluateAll args) := by
  induction args with
  | nil => exact yields_value hQ _
  | cons a args ih =>
    refine yields_andThen fun x _ => ?_
    split
    · exact yields_value hQ _
    · exact ih fun b hb => hargs b (List.mem_cons_of_mem a hb)

theorem yields_evaluateAny : Yields Q (evaluateAny args) := by
  induction args with
  | nil => exact yields_value hQ _
  | cons a args ih =>
    refine yields_andThen fun x _ => ?_
    split
    · exact ih fun b hb => hargs b (List.mem_cons_of_mem a hb)
    · exact yields_value hQ _

omit [Scalar α] in
theorem yields_aggregate {name : String} {f : Reading α → List (Reading α) → Partially α (Reading α)}
    (hf : ∀ x xs, Q x → (∀ y ∈ xs, Q y) → Yields Q (f x xs)) : Yields Q (aggregate name f args) := by
  refine yields_withItems hQ hargs fun xs source hxs => ?_
  split
  · obtain ⟨hx, hrest⟩ := List.forall_mem_cons.mp hxs
    exact hf _ _ hx hrest
  · exact yields_error _

theorem yields_evaluateMembership : Yields Q (evaluateMembership args) := by
  refine yields_andThen fun x _ => ?_
  exact yields_withItems hQ (fun a ha => hargs a (List.mem_of_mem_tail ha)) fun _ _ _ =>
    yields_value hQ _

theorem yields_evaluateEntry : Yields Q (evaluateEntry args) := by
  refine yields_andThen fun index _ => ?_
  split
  · exact yields_error _
  · split
    · refine yields_andThen fun xs _ => ?_
      split
      · split
        · exact yields_value hQ _
        · exact yields_error _
      · split <;> exact yields_error _
    · split
      · exact yields_nth hargs _
      · exact yields_error _

/-- A named operator without an evaluator from outside. -/
theorem yields_builtin {name : String} {f : CustomEvaluator α} (hf : builtin? name = some f) :
    Yields Q (f args) := by
  unfold builtin? at hf
  split at hf <;> cases hf
  · exact yields_withItems hQ hargs fun xs _ _ => yields_total hQ xs
  · exact yields_aggregate hQ hargs fun x xs _ _ => yields_andThen fun _ _ => yields_value hQ _
  · unfold evaluateCount
    split
    · exact yields_andThen fun _ _ => yields_value hQ _
    · exact yields_value hQ _
  · exact yields_aggregate hQ hargs fun x xs hx hxs => yields_of (of_extremum x xs hx hxs)
  · exact yields_aggregate hQ hargs fun x xs hx hxs => yields_of (of_extremum x xs hx hxs)
  · exact yields_andThen fun _ _ => yields_value hQ _
  · refine yields_andThen fun xs _ => ?_
    split
    · split
      · exact yields_value hQ _
      · exact yields_error _
    · exact yields_error _
  · exact yields_andThen fun _ _ => yields_nth hargs _
  · exact yields_evaluateFirstMatch hargs
  · exact yields_evaluateMembership hQ hargs
  · exact yields_andThen fun _ _ => yields_value hQ _
  · exact yields_evaluateEntry hQ hargs

/-- What holds of computed values and of the readings of the operands holds of the reading of the
node. -/
theorem evaluate_yields {custom : String → Option (CustomEvaluator α)} {op : Operator}
    {text : Unit → Except Fault String}
    (hcustom : ∀ name, op = .custom name → custom name = builtin? name) :
    Yields Q (op.evaluate custom text args) := by
  have hstrict (op' : Operator) : Yields Q (andThen (Argument.values args) (computeStrict op' text)) :=
    yields_andThen fun xs hxs => yields_computeStrict hQ (forall_of_values hargs hxs)
  cases op with
  | wrapper => exact yields_nth hargs 0
  | conjunction => exact yields_evaluateAll hQ hargs
  | disjunction => exact yields_evaluateAny hQ hargs
  | custom name =>
    dsimp only [Operator.evaluate]
    rw [hcustom name rfl]
    split
    · exact yields_builtin hQ hargs ‹_›
    · exact yields_error _
  | entry =>
    refine yields_evaluateEntry hQ fun a ha => ?_
    rcases List.mem_append.mp ha with ha | ha
    · exact hargs a (List.mem_of_mem_tail ha)
    · exact hargs a (List.mem_of_mem_take ha)
  | collection =>
    dsimp only [Operator.evaluate]
    split <;> exact yields_error _
  | negation => exact hstrict .negation
  | sum => exact hstrict .sum
  | difference => exact hstrict .difference
  | product => exact hstrict .product
  | quotient => exact hstrict .quotient
  | comparison c => exact hstrict (.comparison c)
  | complement => exact hstrict .complement

end

end Operator

theorem Scalar.eq_self [Scalar α] {x : α} (h : exact x ≠ .nan) : eq x x = true := by
  unfold eq
  cases hx : exact x with
  | nan => exact absurd hx h
  | _ => simp [Exact.eq]

/-- What is in a term without variables has none either. -/
theorem Term.Within.closed {s t : Term α} (h : Within s t) (ht : t.mentions = []) : s.mentions = [] :=
  List.eq_nil_iff_forall_not_mem.mpr fun x hx => List.eq_nil_iff_forall_not_mem.mp ht x (h.mentions hx)

namespace Assignment

variable [Scalar α] {a : Assignment α} {w : Workspace α} {read : VarId → Partially α (Reading α)}
  {origin : NodeId → Option (Term α)} {t : Term α}

/-- The term has no variables, and named operators in it have their fixed meaning. -/
structure Constant (a : Assignment α) (t : Term α) : Prop where
  closed : t.mentions = []
  builtin {id : NodeId} {name : String} {ts : List (Term α)} :
    Term.Within (.node id (.custom name) ts) t → a.evaluators name = none

omit [Scalar α] in
theorem Constant.within {s : Term α} (h : a.Constant t) (hs : Term.Within s t) : a.Constant s where
  closed := hs.closed h.closed
  builtin hw := h.builtin (hw.trans hs)

theorem Constant.custom_eq {id : NodeId} {op : Operator} {ts : List (Term α)}
    (h : a.Constant (.node id op ts))
    (name : String) (hop : op = .custom name) : a.custom name = Operator.builtin? name := by
  subst hop
  simp [custom, h.builtin (.refl _)]

/-- The reading was computed, or it is that of a constant in the term, which is where its place says. -/
def Traced (origin : NodeId → Option (Term α)) (t : Term α) (r : Reading α) : Prop :=
  ∀ place, r.place = some place → Term.Within (.const r.value) t ∧
    ∃ id k op ts, place = .constant id k ∧ origin id = some (.node id op ts) ∧
      ts[k]? = some (.const r.value)

omit [Scalar α] in
theorem traced_computed (x : α) : Traced origin t (.computed x) := by
  intro place h
  cases h

/-- An operand without variables is computed or read from a constant. -/
theorem reading_traced {u : Term α} {id : NodeId} {op : Operator} {ts : List (Term α)} {k : Nat}
    (ht : (Term.node id op ts).WellBuilt origin) (hconstant : a.Constant (.node id op ts))
    (hu : ts[k]? = some u) : Yields (Traced origin (.node id op ts))
      ((a.argument w read (some (.constant id k)) u).value ()) := by
  have hwithin : Term.Within u (.node id op ts) := .of_mem (List.mem_of_getElem? hu)
  induction u using Term.induction generalizing id op ts k with
  | const x =>
    rintro r ⟨⟩ place ⟨⟩
    exact ⟨hwithin, id, k, op, ts, rfl, ht.registered (.refl _) rfl, hu⟩
  | var v => exact absurd (hconstant.within hwithin).closed (by simp [Term.mentions])
  | selected id' f i => exact absurd (hconstant.within hwithin).closed (by simp [Term.mentions])
  | node id' op' us ih =>
    rw [value_node]
    refine Operator.evaluate_yields traced_computed (fun arg harg => ?_)
      (hconstant.within hwithin).custom_eq
    obtain ⟨j, hj⟩ := List.mem_iff_getElem?.mp harg
    rw [getElem?_arguments, Nat.zero_add] at hj
    obtain ⟨u, hu', rfl⟩ := Option.map_eq_some_iff.mp hj
    have hmem := List.mem_of_getElem? hu'
    intro r hr place hplace
    obtain ⟨hin, hfrom⟩ := ih u hmem (ht.within hwithin) (hconstant.within hwithin) hu' (.of_mem hmem)
      r hr place hplace
    exact ⟨hin.trans hwithin, hfrom⟩

/-- Two readings of one place are the same number, and equal unless this is NaN. -/
theorem isSame_eq {x y : Reading α} (hx : Traced origin t x) (hy : Traced origin t y)
    (hnan : ∀ z, Term.Within (.const z) t → Scalar.exact z ≠ .nan) :
    x.isSame y = Scalar.eq x.value y.value := by
  unfold Reading.isSame
  cases hplace : x.place with
  | none => simp
  | some place =>
    by_cases hy' : y.place = some place
    · obtain ⟨hin, id, k, op, ts, rfl, horigin, hk⟩ := hx place hplace
      obtain ⟨-, id', k', op', ts', h, horigin', hk'⟩ := hy _ hy'
      cases h
      cases horigin.symm.trans horigin'
      have hvalue : y.value = x.value := by simpa using hk'.symm.trans hk
      rw [hvalue, Scalar.eq_self (hnan _ hin), Bool.true_or]
    · have hne : (some place == y.place) = false := by simpa using fun h => hy' h.symm
      simp [hne]

end Assignment

end DecisionModel
