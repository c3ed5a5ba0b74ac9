import DecisionModel.Proofs.Evaluation.Reading
import DecisionModel.Proofs.Lowering.Memo
import DecisionModel.Proofs.Lowering.Solution

/-!
# Lookups in branches

Evaluation stops as soon as a value is known, so the index of a lookup on a branch that is not taken may
be no position at all. Lowering takes every operand: once a lookup was lowered its index is a position
at each admitted point, wherever the lookup stands (`position_of_represents`). That is all that is
lost. Where the index is a position and the other operands have values, so have all subterms of the
constraint (`Term.Branch.defined`), and values that evaluation accepts are those of an admitted point
(`limitsLookup_of_satisfies`).
-/

namespace DecisionModel

/-- The term stands on a branch of a constraint: a conditional that has it as its first value is
compared with an integer, or the term itself is, as one operand of a disjunction. Listed are the
operands beside it. -/
inductive Term.Branch (u : Term Exact) : List (Term Exact) → Term Exact → Prop
  | conditional (id node : NodeId) (k : Comparison) (n : ℤ) (condition otherwise : Term Exact) :
    Branch u [condition, otherwise] (.node id (.comparison k)
      [.node node (.custom "if_then_else") [condition, u, otherwise], .const (.finite n)])
  | disjunct (id node : NodeId) (k : Comparison) (n : ℤ) (ts us : List (Term Exact)) :
    Branch u (ts ++ us) (.node id .disjunction
      (ts ++ .node node (.comparison k) [u, .const (.finite n)] :: us))

theorem Term.Branch.within {u t : Term Exact} {others : List (Term Exact)} (h : u.Branch others t) :
    u.Within t := by
  cases h with
  | conditional => exact .operand List.mem_cons_self (.of_mem (by simp))
  | disjunct => exact .operand (List.mem_append_right _ List.mem_cons_self) (.of_mem List.mem_cons_self)

/-! ### Values throughout a constraint -/

namespace Reader

variable {w : Workspace Exact} {m : ModelId} {r : Reader w m} {origin : NodeId → Option (Term Exact)}

/-- A term with a value has one wherever it stands. -/
theorem exists_value (p q : Option Place) {t : Term Exact} {x : Reading Exact}
    (hx : (r.argument p t).value () = .ok (some x)) :
    ∃ y, (r.argument q t).value () = .ok (some y) := by
  have houtcome : Outcome.ofReading ((r.assignment.argument w r.read p t).value ()) =
      .ok (some x.value) := congrArg Outcome.ofReading hx
  obtain ⟨y, hy, -⟩ := Assignment.exists_reading p q houtcome
  exact ⟨y, hy⟩

/-- A comparison has a value if and only if both of its operands have one. -/
theorem exists_value_comparison {id : NodeId} {k : Comparison} {t u : Term Exact} :
    (∃ x, (r.argument none (.node id (.comparison k) [t, u])).value () = .ok (some x)) ↔
      (∃ x, (r.argument none t).value () = .ok (some x)) ∧
        ∃ x, (r.argument none u).value () = .ok (some x) := by
  have hnode : (r.argument none (.node id (.comparison k) [t, u])).value () =
      Outcome.andThen ((r.argument (some (.constant id 0)) t).value ()) fun x =>
        Outcome.andThen ((r.argument (some (.constant id 1)) u).value ()) fun y =>
          Outcome.truth (k.holds x.value y.value) := by
    rw [value_node]
    simp only [Operator.evaluate, arguments, Assignment.arguments, Argument.values, argument]
    rcases (r.assignment.argument w r.read (some (.constant id 0)) t).value () with e | _ | x
    · rfl
    · rfl
    · rcases (r.assignment.argument w r.read (some (.constant id 1)) u).value () with e | _ | y <;> rfl
  rw [hnode]
  constructor
  · rintro ⟨z, hz⟩
    obtain ⟨x, hx, hz⟩ := Outcome.exists_of_andThen hz
    obtain ⟨y, hy, -⟩ := Outcome.exists_of_andThen hz
    exact ⟨exists_value _ _ hx, exists_value _ _ hy⟩
  · rintro ⟨⟨x, hx⟩, y, hy⟩
    obtain ⟨x', hx'⟩ := exists_value none (some (.constant id 0)) hx
    obtain ⟨y', hy'⟩ := exists_value none (some (.constant id 1)) hy
    rw [hx', hy']
    exact ⟨_, rfl⟩

/-- A disjunction that is an integer is a truth value. -/
theorem Means.disjunction {id : NodeId} {ts : List (Term Exact)} {n : ℤ}
    (h : r.Means origin (.node id .disjunction ts) n) : n = 0 ∨ n = 1 := by
  have htruth : ∀ (args : List (Argument Exact)) {x : Reading Exact},
      Operator.evaluateAny args = .ok (some x) → ∃ b : Bool, x.value = Scalar.ofBool b := by
    intro args
    induction args with
    | nil => exact fun hx => ⟨false, by cases hx; rfl⟩
    | cons a args ih =>
      intro x hx
      obtain ⟨y, -, hx⟩ := Outcome.exists_of_andThen hx
      split at hx
      · exact ih hx
      · exact ⟨true, by cases hx; rfl⟩
  obtain ⟨x, hx, hxn, -⟩ := h.gives
  rw [value_node] at hx
  obtain ⟨b, hb⟩ := htruth _ hx
  have hn := hxn.symm.trans hb
  cases b with
  | false => exact .inl (by simpa [Scalar.ofBool] using hn)
  | true => exact .inr (by simpa [Scalar.ofBool] using hn)

theorem Defined.node {id : NodeId} {op : Operator} {ts : List (Term Exact)}
    (hts : ∀ t ∈ ts, r.Defined t)
    (hx : ∃ x, (r.argument none (.node id op ts)).value () = .ok (some x)) :
    r.Defined (.node id op ts) := by
  intro s hs hc
  cases hs with
  | refl => exact hx
  | operand hm hs => exact hts _ hm s hs hc

theorem defined_const (x : Exact) : r.Defined (.const x) := by
  intro s hs _
  cases hs
  exact ⟨_, rfl⟩

theorem Means.defined_selected {id : NodeId} {f : FamilyId} {i : VarId} {n : ℤ}
    (h : r.Means origin (.selected id f i) n) : r.Defined (.selected id f i) := by
  intro s hs _
  cases hs
  obtain ⟨x, hx, -⟩ := h.gives
  exact ⟨x, hx⟩

end Reader

/-- A constraint with a value has values throughout if the lookup and the other operands have. -/
theorem Term.Branch.defined {w : Workspace Exact} {m : ModelId} {r : Reader w m} {u t : Term Exact}
    {others : List (Term Exact)} (h : u.Branch others t) (hplain : u.isCollection = false)
    (hu : r.Defined u) (hothers : ∀ o ∈ others, r.Defined o)
    (ht : ∃ x, (r.argument none t).value () = .ok (some x)) : r.Defined t := by
  cases h with
  | conditional id node k n condition otherwise =>
    refine .node (fun s hs => ?_) ht
    rcases List.mem_pair.mp hs with rfl | rfl
    · refine .node (fun s hs => ?_) (Reader.exists_value_comparison.mp ht).1
      obtain rfl | rfl | rfl : s = condition ∨ s = u ∨ s = otherwise := by simpa using hs
      · exact hothers _ (by simp)
      · exact hu
      · exact hothers _ (by simp)
    · exact Reader.defined_const _
  | disjunct id node k n ts us =>
    refine .node (fun s hs => ?_) ht
    rcases List.mem_append.mp hs with hs | hs
    · exact hothers s (List.mem_append_left _ hs)
    rcases List.mem_cons.mp hs with rfl | hs
    · refine .node (fun s hs => ?_)
        (Reader.exists_value_comparison.mpr ⟨hu u (.refl u) hplain, _, rfl⟩)
      rcases List.mem_pair.mp hs with rfl | rfl
      · exact hu
      · exact Reader.defined_const _
    · exact hothers s (List.mem_append_right _ hs)

/-- A conjunct of such a constraint other than a comparison is one where it is not zero. -/
theorem Term.Branch.eq_one {w : Workspace Exact} {m : ModelId} {r : Reader w m}
    {origin : NodeId → Option (Term Exact)} {u t s : Term Exact} {others : List (Term Exact)} {n : ℤ}
    (h : u.Branch others t) (hs : s.Conjunct t) (hcomparison : ∀ k, s.operator? ≠ some (.comparison k))
    (hn : r.Means origin s n) (hne : n ≠ 0) : n = 1 := by
  cases h with
  | conditional _ _ k =>
    cases hs
    exact absurd rfl (hcomparison k)
  | disjunct =>
    cases hs
    exact hn.disjunction.resolve_left hne

/-! ### Solutions that are accepted -/

/-- The term is a constraint of the model with a lookup on a branch, all of whose variables are the
model's. -/
structure Model.BranchesOn (model : Model Exact) (c : Context Exact) (t : Term Exact)
    (others : List (Term Exact)) (id : NodeId) (f : FamilyId) (i : VarId) : Prop where
  branch : (Term.selected id f i).Branch others t
  constraint : t ∈ model.constraints
  index : i ∈ c.vars
  members {v : VarId} : v ∈ c.workspace.members f → v ∈ c.vars

/-- Evaluation accepts the solution. Other expressions of the model than the constraint `t` have values
throughout, and so have the operands `others`, but `t` need only have one itself. -/
structure Solution.Accepts (sol : Solution Exact) (c : Context Exact) (val : VarId → ℤ)
    (model : Model Exact) (t : Term Exact) (others : List (Term Exact)) : Prop
    extends sol.Stores c val where
  elsewhere {t' s : Term Exact} : model.Expression c t' → t' ≠ t → s.Within t' →
    s.isCollection = false → ∃ x, sol.evaluate c.workspace s = .ok (some x)
  operands {o s : Term Exact} : o ∈ others → s.Within o → s.isCollection = false →
    ∃ x, sol.evaluate c.workspace s = .ok (some x)
  constraint {t' : Term Exact} : t' ∈ model.constraints →
    ∃ x, sol.evaluate c.workspace t' = .ok (some x) ∧ Scalar.isZero x = false
  definition {v : VarId} {t' : Term Exact} : v ∈ c.vars → c.workspace.definition? v = some t' →
    sol.evaluate c.workspace t' = .ok (some (.finite (val v)))

variable {c : Context Exact} {sol : Solution Exact} {val : VarId → ℤ} {model : Model Exact}
  {id : NodeId} {f : FamilyId} {i : VarId} {t : Term Exact} {others : List (Term Exact)}
  {origin : NodeId → Option (Term Exact)}

/-- If the index is a position of the family, nothing in the model is without a value. -/
theorem Solution.Accepts.satisfies (h : sol.Accepts c val model t others)
    (ht : model.BranchesOn c t others id f i) (h0 : 0 ≤ val i)
    (hlt : val i < (c.workspace.members f).length) : sol.Satisfies c val model where
  toStores := h.toStores
  constraint := h.constraint
  definition := h.definition
  defined {t' s} he hs hc := by
    by_cases heq : t' = t
    · subst heq
      obtain ⟨k, hk⟩ := Int.eq_ofNat_of_zero_le h0
      have hget := List.getElem?_eq_getElem (l := c.workspace.members f) (i := k) (by omega)
      have hlookup : h.reader.Means (fun _ => none) (.selected id f i)
          (val (c.workspace.members f)[k]) :=
        Reader.means_selected (by rw [h.read_eq ht.index, hk]) hget
          (h.read_eq (ht.members (List.getElem_mem _)))
      obtain ⟨x, hx, -⟩ := h.constraint ht.constraint
      obtain ⟨y, hy, -⟩ := h.exists_reading hx
      have hothers : ∀ o ∈ others, h.reader.Defined o := fun o ho s hs hc => by
        obtain ⟨x, hx⟩ := h.operands ho hs hc
        obtain ⟨y, hy, -⟩ := h.exists_reading hx
        exact ⟨y, hy⟩
      obtain ⟨z, hz⟩ :=
        ht.branch.defined rfl hlookup.defined_selected hothers ⟨y, hy⟩ s hs hc
      exact ⟨z.value, by rw [h.evaluate_eq, hz]; rfl⟩
    · exact h.elsewhere he heq hs hc

/-! ### Values of admitted points -/

variable {ν σ V : Type} {S : Semantics ν σ V} {s s' : LoweringState ν σ}
  {G : Set (Handle ν)}

/-- The handles of variables have the values at some admitted point. -/
def Semantics.Represents (S : Semantics ν σ V) (s : LoweringState ν σ) (val : VarId → ℤ) : Prop :=
  ∃ ρ, S.Admits ρ s ∧ Assigns S s val ρ

/-- A lookup that was lowered has a position for an index, whatever evaluation asks for. -/
theorem position_of_represents (hw : Walked S c origin G s)
    (hhandles : ∀ v, v ∈ c.vars ↔ ∃ h, s.handle? v = some h) (hstores : sol.Stores c val)
    (hid : origin id = some (.selected id f i)) (hindex : i ∈ c.vars)
    (hlowered : (s.memo? id).isSome) (h : S.Represents s val) :
    0 ≤ val i ∧ val i < (c.workspace.members f).length := by
  obtain ⟨ρ, hρ, hassigns⟩ := h
  obtain ⟨h, hmemo⟩ := Option.isSome_iff_exists.mp hlowered
  obtain ⟨t, ht, -, hholds⟩ := hw.memo_holds (Table.mem_of_get? hmemo)
  obtain rfl : .selected id f i = t := Option.some.inj (hid.symm.trans ht)
  have hmeans := (hholds ρ hstores.reader hρ (hstores.matched hhandles hassigns)).means
  exact Reader.position_of_selected hmeans.defined_selected (hstores.read_eq hindex)

/-- Once a lookup was lowered, the values are represented if and only if its index has one of the
positions. -/
def Semantics.LimitsLookup (S : Semantics ν σ V) (s : LoweringState ν σ) (val : VarId → ℤ)
    (id : NodeId) (i : VarId) (size : ℕ) : Prop :=
  (0 ≤ val i ∧ val i < size → S.Represents s val) ∧
    ((s.memo? id).isSome → S.Represents s val → 0 ≤ val i ∧ val i < size)

/-- Where no solution that satisfies the model is lost, those are lost that the lookup excludes. -/
theorem limitsLookup_of_satisfies (hl : c.Lawful origin)
    (hmodel : c.workspace.findModel c.model = some model) (hw : Walked S c origin G s)
    (hhandles : ∀ v, v ∈ c.vars ↔ ∃ h, s.handle? v = some h) (ht : model.BranchesOn c t others id f i)
    (hsol : sol.Accepts c val model t others)
    (hcomplete : sol.Satisfies c val model → S.Represents s val) :
    S.LimitsLookup s val id i (c.workspace.members f).length :=
  ⟨fun ⟨h0, hlt⟩ => hcomplete (hsol.satisfies ht h0 hlt),
    position_of_represents hw hhandles hsol.toStores
      ((hl.constraint hmodel ht.constraint).registered ht.branch.within rfl) ht.index⟩

variable [Numeral ν] {B : Backend Exact ν σ}

/-- A solution that satisfies the model is that of some admitted point, if the back-end accepts the
values of conjuncts other than comparisons, none of which is zero. -/
theorem represents_of_satisfies (hB : Faithful B S c) (hcollections : IntegralCollections c)
    (hl : c.Lawful origin) (hint : S.limited → c.Integral)
    (hmodel : c.workspace.findModel c.model = some model) (hv : S.Valid G s) (hh : s.handles = [])
    (hmemo : s.memo = []) (hr : (Backend.lowerModel B c).Runs s () s') {ρ : HandleId → V}
    (hρ : S.Admits ρ s) (hcalm : S.Calm s'.solver) (hval : Eligible S c val)
    (hsol : sol.Satisfies c val model) (hbounded : hsol.reader.Bounded)
    (hnear : ∀ {t key : Term Exact}, model.Expression c t → t.ReadsKey key →
      hsol.reader.Near origin key)
    (haccepts : ∀ {t u : Term Exact} {n : ℤ}, t ∈ model.constraints → u.Conjunct t →
      (∀ k, u.operator? ≠ some (.comparison k)) → hsol.reader.Means origin u n → n ≠ 0 →
        S.Accepts n) : S.Represents s' val := by
  have hready : ∀ {t}, model.Expression c t → hsol.reader.Ready origin t := hsol.ready hbounded hnear
  have htrue : hsol.reader.SolvesStrictly origin (fun _ => True) model :=
    hsol.solvesStrictly hready fun _ _ _ _ => trivial
  exact lowerModel_complete hB hcollections hl hint hmodel hv hh hmemo hr hρ hcalm hval
    (fun _ hv => hsol.read_eq hv) (hsol.solvesStrictly hready fun ht hu hk hn =>
      haccepts ht hu hk hn ((htrue.meets ht).conjunct_ne_zero hu (hl.constraint hmodel ht) hn))

end DecisionModel
