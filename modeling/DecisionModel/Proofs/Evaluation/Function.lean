import DecisionModel.Table
import DecisionModel.Proofs.Evaluation.Extension
import DecisionModel.Proofs.Evaluation.Gives

/-!
# Named operators on integers

What the named operators give on integers, over inline operands and over a collection. Both forms
are covered at once by `Reader.Items`, the numbers that an aggregate or a test of membership runs
over.

Conversely, where such an operator has a value, what it needed was there: a collection could be read
(`exists_items_of_value`) and a position was in range (`position_of_value`).
-/

namespace DecisionModel.Reader

variable {w : Workspace Exact} {m : ModelId} {r : Reader w m}
  {origin : NodeId → Option (Term Exact)} {args : List (Argument Exact)} {ns : List ℤ}

/-- An operand is a collection that consists of these numbers. -/
def ReadsCollection (a : Argument Exact) (xs : List Exact) : Prop :=
  ∃ c, a.collection = some c ∧ c.values () = .ok (some xs) ∧ ∃ s, c.text () = .ok s

/-- The items of the operands are these integers. -/
def Items (r : Reader w m) (origin : NodeId → Option (Term Exact)) (args : List (Argument Exact))
    (ns : List ℤ) : Prop :=
  ∃ xs source, Argument.items args = .ok (some xs, source) ∧ r.Readings origin xs ns

theorem items_inline (h : r.GivesAll origin args ns) (hc : Argument.soleCollection? args = none) :
    r.Items origin args ns := by
  obtain ⟨xs, hxs, hr⟩ := h.values
  refine ⟨xs, "operands", ?_, hr⟩
  simp only [Argument.items, hc, hxs]
  rfl

theorem readings_computed (ns : List ℤ) :
    r.Readings origin ((ns.map fun n : ℤ => Exact.finite n).map Reading.computed) ns := by
  induction ns with
  | nil => exact .nil
  | cons n ns ih => exact .cons ⟨rfl, trivial⟩ ih

theorem items_collection {a : Argument Exact}
    (h : ReadsCollection a (ns.map fun n : ℤ => Exact.finite n)) : r.Items origin [a] ns := by
  obtain ⟨c, hc, hv, s, hs⟩ := h
  refine ⟨_, s, ?_, readings_computed ns⟩
  simp only [Argument.items, Argument.soleCollection?, hc, hv, Outcome.lift, hs]
  rfl

/-! ### Aggregates -/

theorem evaluateSum_gives (h : r.Items origin args ns) :
    r.Gives origin (Operator.evaluateSum args) ns.sum := by
  obtain ⟨xs, _, hi, hr⟩ := h
  simp only [Operator.evaluateSum, Argument.withItems, hi]
  exact total_gives hr

/-- The aggregate of a list of items that has a first one. -/
theorem aggregate_gives {name : String} {n k : ℤ}
    {f : Reading Exact → List (Reading Exact) → Partially Exact (Reading Exact)}
    (h : r.Items origin args (n :: ns))
    (hf : ∀ x xs, r.Readings origin (x :: xs) (n :: ns) → r.Gives origin (f x xs) k) :
    r.Gives origin (Operator.aggregate name f args) k := by
  obtain ⟨_, _, hi, hr⟩ := h
  obtain _ | ⟨hx, hr⟩ := hr
  simp only [Operator.aggregate, Argument.withItems, hi]
  exact hf _ _ (.cons hx hr)

theorem average_gives {n k : ℤ} (h : r.Items origin args (n :: ns))
    (hk : k * (ns.length + 1) = (n :: ns).sum) :
    r.Gives origin (Operator.aggregate "avg" Operator.average args) k := by
  refine aggregate_gives h fun x xs hr => ?_
  obtain ⟨y, ho, hy, -⟩ := total_gives hr
  simp only [Operator.average, ho, Outcome.andThen, hy]
  refine gives_value ?_
  have hlen : xs.length = ns.length := by simpa using hr.length_eq
  rw [hlen]
  exact (Exact.div_int (by omega)).mpr hk

/-- Keeping the better of two readings keeps the better of their values. -/
theorem foldl_readings (better : Exact → Exact → Bool) {x : Reading Exact}
    {xs : List (Reading Exact)} {n : ℤ} (hr : r.Readings origin (x :: xs) (n :: ns)) :
    (xs.foldl (fun a b => if better b.value a.value then b else a) x).value =
        (ns.map fun n : ℤ => Exact.finite n).foldl (fun a b => if better b a then b else a)
          (.finite n) ∧
      r.Placed origin (xs.foldl (fun a b => if better b.value a.value then b else a) x) := by
  induction xs generalizing x n ns with
  | nil =>
    obtain _ | ⟨⟨hx, hp⟩, hr⟩ := hr
    cases hr
    exact ⟨hx, hp⟩
  | cons z zs ih =>
    obtain _ | ⟨hx, hr⟩ := hr
    obtain _ | ⟨hz, hr⟩ := hr
    simp only [List.foldl_cons, List.map_cons, hx.1, hz.1]
    split
    · exact ih (.cons hz hr)
    · exact ih (.cons hx hr)

theorem least_gives {n k : ℤ} (h : r.Items origin args (n :: ns)) (hk : k ∈ n :: ns)
    (hle : ∀ a ∈ n :: ns, k ≤ a) :
    r.Gives origin (Operator.aggregate "min" Operator.least args) k := by
  refine aggregate_gives h fun x xs hr => ?_
  obtain ⟨hv, hp⟩ := foldl_readings Exact.lt hr
  obtain ⟨k', hk', hm, hle'⟩ := Scalar.least_int n ns
  obtain rfl : k' = k := le_antisymm (hle' k hk) (hle k' hm)
  exact ⟨_, rfl, hv.trans hk', hp⟩

theorem greatest_gives {n k : ℤ} (h : r.Items origin args (n :: ns)) (hk : k ∈ n :: ns)
    (hle : ∀ a ∈ n :: ns, a ≤ k) :
    r.Gives origin (Operator.aggregate "max" Operator.greatest args) k := by
  refine aggregate_gives h fun x xs hr => ?_
  obtain ⟨hv, hp⟩ := foldl_readings (fun b a => Exact.lt a b) hr
  obtain ⟨k', hk', hm, hle'⟩ := Scalar.greatest_int n ns
  obtain rfl : k' = k := le_antisymm (hle k' hm) (hle' k hk)
  exact ⟨_, rfl, hv.trans hk', hp⟩

/-! ### Functions of single operands -/

theorem absolute_gives {n : ℤ} (h : r.GivesAll origin args ns) (hn : ns[0]? = some n) :
    r.Gives origin (Operator.evaluateAbsolute args) |n| := by
  obtain ⟨x, ho, hx, -⟩ := h.nth hn
  simp only [Operator.evaluateAbsolute, ho, Outcome.andThen, hx]
  refine gives_value ?_
  simp

theorem power_gives {b e : ℤ} {k : ℕ} (h : r.GivesAll origin args [b, e]) (he : e = k) :
    r.Gives origin (Operator.evaluatePower args) (b ^ k) := by
  obtain ⟨_, hxs, hr⟩ := h.values
  obtain _ | ⟨⟨hx, -⟩, hr⟩ := hr
  obtain _ | ⟨⟨hy, -⟩, hr⟩ := hr
  cases hr
  subst he
  simp only [Operator.evaluatePower, hxs, Outcome.andThen, hx, hy,
    Scalar.power_exact, Exact.power_int]
  exact gives_value rfl

theorem conditional_gives {c t e : ℤ} (h : r.GivesAll origin args ns) (hc : ns[0]? = some c)
    (ht : ns[1]? = some t) (he : ns[2]? = some e) :
    r.Gives origin (Operator.evaluateConditional args) (if c = 0 then e else t) := by
  obtain ⟨x, ho, hx, -⟩ := h.nth hc
  simp only [Operator.evaluateConditional, ho, Outcome.andThen, hx, Scalar.isZero_int]
  by_cases h0 : c = 0
  · simpa [h0] using h.nth he
  · simpa [h0] using h.nth ht

/-- The value beside the first condition that is not zero, or else the last number. -/
def firstMatch : List ℤ → ℤ
  | [] => 0
  | [otherwise] => otherwise
  | condition :: value :: rest =>
    if condition = 0 then if rest.isEmpty then value else firstMatch rest else value

theorem firstMatch_gives (h : r.GivesAll origin args ns) (hne : ns ≠ []) :
    r.Gives origin (Operator.evaluateFirstMatch args) (firstMatch ns) := by
  fun_induction firstMatch ns generalizing args with
  | case1 => exact absurd rfl hne
  | case2 otherwise =>
    obtain _ | ⟨ha, h⟩ := h
    cases h
    exact ha
  | case3 value rest hrest =>
    obtain rfl : rest = [] := by simpa using hrest
    obtain _ | ⟨⟨c, hc, hc0, -⟩, _ | ⟨hv, h⟩⟩ := h
    cases h
    simpa [Operator.evaluateFirstMatch, hc, hc0, Outcome.andThen] using hv
  | case4 value rest hrest ih =>
    obtain _ | ⟨⟨c, hc, hc0, -⟩, _ | ⟨hv, h⟩⟩ := h
    have hrest' : rest ≠ [] := by simpa using hrest
    obtain _ | ⟨hd, h⟩ := h
    · exact absurd rfl hrest'
    · have hr := ih (.cons hd h) hrest'
      simpa [Operator.evaluateFirstMatch, hc, hc0, Outcome.andThen] using hr
  | case5 condition value rest hne0 =>
    obtain _ | ⟨⟨c, hc, hc0, -⟩, _ | ⟨hv, h⟩⟩ := h
    simpa [Operator.evaluateFirstMatch, hc, hc0, Outcome.andThen, hne0] using hv

/-! ### Membership and entries -/

theorem any_isSame {x : Reading Exact} {n : ℤ} (hx : x.value = .finite n) (hp : r.Placed origin x)
    {xs : List (Reading Exact)} (hr : r.Readings origin xs ns) :
    xs.any x.isSame = decide (n ∈ ns) := by
  induction hr with
  | nil => simp
  | cons hy _ ih => simp [ih, isSame_iff hx hy.1 hp hy.2]

theorem membership_gives {a : Argument Exact} {n : ℤ} (ha : r.Gives origin (a.value ()) n)
    (h : r.Items origin args ns) :
    r.Gives origin (Operator.evaluateMembership (a :: args)) (indicator (n ∈ ns)) := by
  obtain ⟨x, ho, hx, hp⟩ := ha
  obtain ⟨xs, _, hi, hr⟩ := h
  simp only [Operator.evaluateMembership, Argument.nth, List.getElem?_cons_zero, ho, Outcome.andThen,
    List.tail_cons, Argument.withItems, hi, any_isSame hx hp hr]
  exact gives_truth _

theorem nonMembership_gives {n : ℤ} (h : r.Gives origin (Operator.evaluateMembership args) n) :
    r.Gives origin (Operator.evaluateNonMembership args) (1 - n) := by
  obtain ⟨x, ho, hx, -⟩ := h
  simp only [Operator.evaluateNonMembership, ho, Outcome.andThen, hx]
  exact gives_value (by simp)

/-- What stands at a position that counts from one. -/
def entry? {β : Type} (xs : List β) (i : ℤ) : Option β := if 1 ≤ i then xs[i.toNat - 1]? else none

theorem entry?_eq_some {β : Type} {xs : List β} {i : ℤ} {x : β} : entry? xs i = some x ↔
    ∃ k : ℕ, i = k + 1 ∧ xs[k]? = some x := by
  unfold entry?
  constructor
  · split
    · intro h
      exact ⟨i.toNat - 1, by omega, h⟩
    · simp
  · rintro ⟨k, rfl, h⟩
    have hk : ((k : ℤ) + 1).toNat - 1 = k := by omega
    rw [if_pos (by omega), hk, h]

theorem range_of_entry {β : Type} {xs : List β} {i : ℤ} {x : β} (h : entry? xs i = some x) :
    1 ≤ i ∧ i ≤ xs.length := by
  obtain ⟨k, rfl, hk⟩ := entry?_eq_some.mp h
  have hlt := (List.getElem?_eq_some_iff.mp hk).1
  omega

theorem entry?_map {β γ : Type} (f : β → γ) (xs : List β) (i : ℤ) :
    entry? (xs.map f) i = ( entry? xs i).map f := by
  unfold entry?
  split
  · exact List.getElem?_map
  · rfl

/-- The entry whose position is an index. -/
theorem find?_positions {β : Type} (hs : List β) (i : ℤ) :
    ((hs.mapIdx fun j h => ((j : ℤ) + 1, h)).find? (·.1 = i)).map (·.2) = entry? hs i := by
  rcases hfound : ((hs.mapIdx fun j h => ((j : ℤ) + 1, h)).find? (·.1 = i)).map (·.2) with _ | h
  · refine hfound.trans (Option.eq_none_iff_forall_ne_some.mpr fun h hh => ?_).symm
    obtain ⟨j, rfl, hj⟩ := entry?_eq_some.mp hh
    obtain ⟨hlt, rfl⟩ := List.getElem?_eq_some_iff.mp hj
    have hnone := List.find?_eq_none.mp (Option.map_eq_none_iff.mp hfound) _
      (List.mem_mapIdx.mpr ⟨j, hlt, rfl⟩)
    simp at hnone
  · obtain ⟨j, hj, heq⟩ := List.mem_mapIdx.mp (Table.mem_of_get? hfound)
    cases heq
    exact hfound.trans (entry?_eq_some.mpr ⟨j, rfl, List.getElem?_eq_getElem hj⟩).symm

theorem entry_inline {a : Argument Exact} {i n : ℤ} (ha : r.Gives origin (a.value ()) i)
    (h : r.GivesAll origin args ns) (hc : Argument.soleCollection? args = none)
    (hn : entry? ns i = some n) : r.Gives origin (Operator.evaluateEntry (a :: args)) n := by
  obtain ⟨x, ho, hx, -⟩ := ha
  obtain ⟨k, rfl, hk⟩ := entry?_eq_some.mp hn
  have hlt : k < ns.length := (List.getElem?_eq_some_iff.mp hk).1
  have hlen : args.length = ns.length := h.length_eq
  have hpos : ((k : ℤ) + 1).toNat = k + 1 := by omega
  simp only [Operator.evaluateEntry, Argument.nth, List.getElem?_cons_zero, ho, Outcome.andThen, hx,
    Scalar.exact_exact, Exact.round_int, List.tail_cons, hc, List.length_cons]
  rw [if_pos ⟨by omega, by omega⟩, hpos, List.getElem?_cons_succ]
  exact h.nth hk

theorem entry_collection {a c : Argument Exact} {i n : ℤ} (ha : r.Gives origin (a.value ()) i)
    (h : ReadsCollection c (ns.map fun n : ℤ => Exact.finite n)) (hn : entry? ns i = some n) :
    r.Gives origin (Operator.evaluateEntry [a, c]) n := by
  obtain ⟨x, ho, hx, -⟩ := ha
  obtain ⟨cc, hc, hv, -⟩ := h
  obtain ⟨k, rfl, hk⟩ := entry?_eq_some.mp hn
  have hlt : k < ns.length := (List.getElem?_eq_some_iff.mp hk).1
  have hpos : ((k : ℤ) + 1).toNat - 1 = k := by omega
  simp only [Operator.evaluateEntry, Argument.nth, List.getElem?_cons_zero, ho, Outcome.andThen, hx,
    Scalar.exact_exact, Exact.round_int, List.tail_cons, Argument.soleCollection?, hc, hv,
    List.length_map]
  rw [if_pos ⟨by omega, by omega⟩, hpos, List.getElem?_map, hk]
  exact gives_value rfl

/-! ### What a value shows -/

variable {y : Reading Exact}

/-- The collection that is the only item of an operator with a value could be read. -/
theorem exists_values_of_withItems {β : Type} {a : Argument Exact} {c : CollectionArgument Exact}
    (hc : a.collection = some c) {f : List (Reading Exact) → String → Partially Exact β} {z : β}
    (h : Argument.withItems [a] f = .ok (some z)) : ∃ xs, c.values () = .ok (some xs) := by
  obtain ⟨-, -, -, ⟨c', xs, hc', hxs, -⟩ | ⟨hnone, -⟩⟩ := Argument.exists_of_withItems h
  · cases hc.symm.trans hc'
    exact ⟨xs, hxs⟩
  · cases hc.symm.trans hnone

theorem exists_values_of_aggregate {name : String} {a : Argument Exact} {c : CollectionArgument Exact}
    {evaluator : CustomEvaluator Exact} (hname : name ∈ ["sum", "avg", "count", "min", "max"])
    (he : Operator.builtin? name = some evaluator) (hc : a.collection = some c)
    (h : evaluator [a] = .ok (some y)) : ∃ xs, c.values () = .ok (some xs) := by
  simp only [List.mem_cons, List.not_mem_nil, or_false] at hname
  rcases hname with rfl | rfl | rfl | rfl | rfl <;> cases he
  · exact exists_values_of_withItems hc h
  · exact exists_values_of_withItems hc h
  · simp only [Operator.evaluateCount, Argument.soleCollection?, hc] at h
    obtain ⟨xs, hv, -⟩ := Outcome.exists_of_andThen h
    exact ⟨xs, hv⟩
  · exact exists_values_of_withItems hc h
  · exact exists_values_of_withItems hc h

theorem exists_values_of_membership {a b : Argument Exact} {c : CollectionArgument Exact}
    (hc : b.collection = some c) (h : Operator.evaluateMembership [a, b] = .ok (some y)) :
    ∃ xs, c.values () = .ok (some xs) := by
  obtain ⟨x, -, h⟩ := Outcome.exists_of_andThen h
  exact exists_values_of_withItems hc h

theorem position_of_entry_inline {a : Argument Exact} {i : ℤ} (ha : r.Gives origin (a.value ()) i)
    (hc : Argument.soleCollection? args = none)
    (h : Operator.evaluateEntry (a :: args) = .ok (some y)) : 1 ≤ i ∧ i ≤ args.length := by
  obtain ⟨x, ho, hx, -⟩ := ha
  simp only [Operator.evaluateEntry, Argument.nth, List.getElem?_cons_zero, ho, Outcome.andThen, hx,
    Scalar.exact_exact, Exact.round_int, List.tail_cons, hc, List.length_cons] at h
  split at h
  · omega
  · cases h

theorem position_of_entry_collection {a b : Argument Exact} {c : CollectionArgument Exact} {i : ℤ}
    (ha : r.Gives origin (a.value ()) i) (hc : b.collection = some c)
    (h : Operator.evaluateEntry [a, b] = .ok (some y)) :
    ∃ xs, c.values () = .ok (some xs) ∧ 1 ≤ i ∧ i ≤ xs.length := by
  obtain ⟨x, ho, hx, -⟩ := ha
  simp only [Operator.evaluateEntry, Argument.nth, List.getElem?_cons_zero, ho, Outcome.andThen, hx,
    Scalar.exact_exact, Exact.round_int, List.tail_cons, Argument.soleCollection?, hc] at h
  rcases hv : c.values () with e | _ | xs
  · simp [hv] at h
  · simp [hv] at h
  · simp only [hv] at h
    split at h
    · exact ⟨xs, rfl, ‹_›⟩
    · cases ht : c.text () <;> simp [ht] at h

end DecisionModel.Reader
