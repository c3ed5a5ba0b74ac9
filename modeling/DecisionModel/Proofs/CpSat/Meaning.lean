import DecisionModel.Solver.CpSat.Encoding
import DecisionModel.Proofs.Lowering.Faithful

/-!
# What CP-SAT is told

A point gives an integer to every variable. `value` extends it to terms, `Constraint.Holds` is the
documented meaning of each constraint, and a point satisfies a solver if all calls hold of it:
domains of variables, constraints, and constraints where the literal that enforces them is true.

`Tables` is what the lowering keeps right about the handles in circulation: bounds, as long as no
interval was cut off, literals, and negations. `semantics` puts this together.
-/

namespace DecisionModel.CpSat

/-- The function of a node, over the values of its arguments. -/
def apply : SolverFunction → List ℤ → ℤ
  | .add, [x, y] => x + y
  | .sub, [x, y] => x - y
  | .mul, [x, y] => x * y
  | .neg, [x] => -x
  | .not, [x] => 1 - x
  | _, _ => 0

mutual

/-- The value of a term at a point. -/
def value (ρ : HandleId → ℤ) : Expr → ℤ
  | .const n => n
  | .leaf id _ _ => ρ id
  | .node _ f args => apply f (values ρ args)

def values (ρ : HandleId → ℤ) : List Expr → List ℤ
  | [] => []
  | h :: hs => value ρ h :: values ρ hs

end

variable {ρ ρ' : HandleId → ℤ} {id : HandleId} {x y : Expr}

attribute [local simp] value values apply

@[simp] theorem value_const (n : ℤ) : value ρ (.const n) = n := by simp

@[simp] theorem value_leaf (name : String) (integral : Bool) :
    value ρ (.leaf id name integral) = ρ id := by simp

@[simp] theorem value_add : value ρ (.node id .add [x, y]) = value ρ x + value ρ y := by simp

@[simp] theorem value_sub : value ρ (.node id .sub [x, y]) = value ρ x - value ρ y := by simp

@[simp] theorem value_mul : value ρ (.node id .mul [x, y]) = value ρ x * value ρ y := by simp

@[simp] theorem value_neg : value ρ (.node id .neg [x]) = -value ρ x := by simp

@[simp] theorem value_not : value ρ (.node id .not [x]) = 1 - value ρ x := by simp

theorem values_congr {hs : List Expr} (h : ∀ x ∈ hs, value ρ x = value ρ' x) :
    values ρ hs = values ρ' hs := by
  induction hs with
  | nil => simp
  | cons x xs ih => rw [values, values, h x (by simp), ih fun y hy => h y (by simp [hy])]

theorem value_congr {G : Set Expr} {n : ℕ} (hw : World G n) {h : Expr} (hh : h ∈ G)
    (ha : Agree n ρ ρ') : value ρ h = value ρ' h := by
  induction h using Handle.induction with
  | const x => simp
  | leaf id name integral =>
    rw [value_leaf, value_leaf]
    exact ha id (hw.fresh hh rfl)
  | node id f args ih =>
    rw [value, value, values_congr fun x hx => ih x hx (hw.args_mem hh x hx)]

/-! ### Constraints -/

/-- The documented meaning of a constraint; a literal is true if it is one. -/
def Constraint.Holds (ρ : HandleId → ℤ) : Constraint → Prop
  | linear r => r.comparison.Relates (value ρ r.lhs) (value ρ r.rhs)
  | allDifferent hs => (hs.map (value ρ)).Nodup
  | conjunction literals => ∀ h ∈ literals, value ρ h = 1
  | disjunction literals => ∃ h ∈ literals, value ρ h = 1
  | product result factors => value ρ result = (factors.map (value ρ)).prod
  | absolute result h => value ρ result = |value ρ h|
  | minimum result hs =>
    (∃ h ∈ hs, value ρ result = value ρ h) ∧ ∀ h ∈ hs, value ρ result ≤ value ρ h
  | maximum result hs =>
    (∃ h ∈ hs, value ρ result = value ρ h) ∧ ∀ h ∈ hs, value ρ h ≤ value ρ result
  | element position hs result => ∃ (k : ℕ) (h : Expr), value ρ position = k ∧ hs[k]? = some h ∧
      value ρ result = value ρ h
  | inDomain h ns complemented => if complemented then value ρ h ∉ ns else value ρ h ∈ ns

instance (ρ : HandleId → ℤ) (c : Constraint) : Decidable (c.Holds ρ) :=
  match c with
  | .linear _ => inferInstanceAs (Decidable (Comparison.Relates _ _ _))
  | .allDifferent _ => inferInstanceAs (Decidable (List.Nodup _))
  | .conjunction hs => inferInstanceAs (Decidable (∀ h ∈ hs, value ρ h = 1))
  | .disjunction hs => inferInstanceAs (Decidable (∃ h ∈ hs, value ρ h = 1))
  | .product _ _ => inferInstanceAs (Decidable (_ = _))
  | .absolute _ _ => inferInstanceAs (Decidable (_ = _))
  | .minimum result hs => inferInstanceAs (Decidable ((∃ h ∈ hs, value ρ result = value ρ h) ∧
      ∀ h ∈ hs, value ρ result ≤ value ρ h))
  | .maximum result hs => inferInstanceAs (Decidable ((∃ h ∈ hs, value ρ result = value ρ h) ∧
      ∀ h ∈ hs, value ρ h ≤ value ρ result))
  | .element position hs result =>
    decidable_of_iff (∃ k ∈ List.range hs.length, value ρ position = k ∧
        ∃ h ∈ hs[k]?, value ρ result = value ρ h) (by
      constructor
      · rintro ⟨k, -, hk, h, hh, hr⟩
        exact ⟨k, h, hk, hh, hr⟩
      · rintro ⟨k, h, hk, hh, hr⟩
        exact ⟨k, List.mem_range.mpr (List.getElem?_eq_some_iff.mp hh).1, hk, h, hh, hr⟩)
  | .inDomain h ns complemented =>
    inferInstanceAs (Decidable (if complemented then value ρ h ∉ ns else value ρ h ∈ ns))

/-- The terms that a constraint is about. -/
def Constraint.handles : Constraint → List Expr
  | linear r => [r.lhs, r.rhs]
  | allDifferent hs => hs
  | conjunction hs => hs
  | disjunction hs => hs
  | product result factors => result :: factors
  | absolute result h => [result, h]
  | minimum result hs => result :: hs
  | maximum result hs => result :: hs
  | element position hs result => position :: result :: hs
  | inDomain h _ _ => [h]

/-- What a call requires of a point. -/
def Call.Holds (ρ : HandleId → ℤ) : Call → Prop
  | newInteger lower upper h => lower ≤ value ρ h ∧ value ρ h ≤ upper
  | newBoolean h => value ρ h = 0 ∨ value ρ h = 1
  | require c none => c.Holds ρ
  | require c (some literal) => value ρ literal = 1 → c.Holds ρ
  | _ => True

instance (ρ : HandleId → ℤ) (c : Call) : Decidable (c.Holds ρ) :=
  match c with
  | .newInteger _ _ _ => inferInstanceAs (Decidable (_ ∧ _))
  | .newBoolean _ => inferInstanceAs (Decidable (_ ∨ _))
  | .require c none => inferInstanceAs (Decidable (c.Holds ρ))
  | .require c (some literal) => inferInstanceAs (Decidable (value ρ literal = 1 → c.Holds ρ))
  | .optimize _ _ | .parameter _ _ | .solve => .isTrue trivial

def Call.handles : Call → List Expr
  | newInteger _ _ h => [h]
  | newBoolean h => [h]
  | require c enforcedBy => enforcedBy.toList ++ c.handles
  | _ => []

/-- The point satisfies every domain and every constraint that the solver was given. -/
def Solver.Satisfied (ρ : HandleId → ℤ) (t : Solver) : Prop := ∀ c ∈ t.calls.toList, c.Holds ρ

instance (ρ : HandleId → ℤ) (t : Solver) : Decidable (t.Satisfied ρ) :=
  inferInstanceAs (Decidable (∀ c ∈ t.calls.toList, c.Holds ρ))

/-- The calls `cs` are made on the way from one state to another. -/
def Makes (s s' : CpSatState) (cs : List Call) : Prop :=
  s'.solver.calls.toList = s.solver.calls.toList ++ cs

theorem Constraint.holds_congr {c : Constraint} (h : ∀ x ∈ c.handles, value ρ x = value ρ' x)
    (hc : c.Holds ρ) : c.Holds ρ' := by
  have hmap : ∀ hs : List Expr, (∀ x ∈ hs, x ∈ c.handles) →
      hs.map (value ρ) = hs.map (value ρ') :=
    fun _ hs => List.map_congr_left fun x hx => h x (hs x hx)
  cases c with
  | linear r =>
    simpa only [Holds, ← h r.lhs (by simp [handles]), ← h r.rhs (by simp [handles])] using hc
  | allDifferent hs => rwa [Holds, ← hmap hs fun x hx => hx]
  | conjunction hs => exact fun x hx => (h x hx).symm.trans (hc x hx)
  | disjunction hs =>
    obtain ⟨x, hx, h1⟩ := hc
    exact ⟨x, hx, (h x hx).symm.trans h1⟩
  | product result factors =>
    rwa [Holds, ← hmap factors fun x hx => List.mem_cons_of_mem _ hx, ← h result (by simp [handles])]
  | absolute result k => rwa [Holds, ← h result (by simp [handles]), ← h k (by simp [handles])]
  | minimum result hs =>
    rw [Holds, ← h result (by simp [handles])]
    refine ⟨?_, fun k hk => h k (by simp [handles, hk]) ▸ hc.2 k hk⟩
    obtain ⟨k, hk, heq⟩ := hc.1
    exact ⟨k, hk, heq.trans (h k (by simp [handles, hk]))⟩
  | maximum result hs =>
    rw [Holds, ← h result (by simp [handles])]
    refine ⟨?_, fun k hk => h k (by simp [handles, hk]) ▸ hc.2 k hk⟩
    obtain ⟨k, hk, heq⟩ := hc.1
    exact ⟨k, hk, heq.trans (h k (by simp [handles, hk]))⟩
  | element position hs result =>
    obtain ⟨k, x, hpos, hx, hres⟩ := hc
    refine ⟨k, x, ?_, hx, ?_⟩
    · rw [← h position (by simp [handles]), hpos]
    · rw [← h result (by simp [handles]), hres]
      exact h x (by simp [handles, List.mem_of_getElem? hx])
  | inDomain k ns complemented => rwa [Holds, ← h k (by simp [handles])]

theorem Call.holds_congr {c : Call} (h : ∀ x ∈ c.handles, value ρ x = value ρ' x)
    (hc : c.Holds ρ) : c.Holds ρ' := by
  cases c with
  | newInteger lower upper k => rwa [Holds, ← h k (by simp [handles])]
  | newBoolean k => rwa [Holds, ← h k (by simp [handles])]
  | require c enforcedBy =>
    cases enforcedBy with
    | none => exact Constraint.holds_congr (fun x hx => h x (by simpa [handles] using hx)) hc
    | some literal =>
      intro hl
      rw [← h literal (by simp [handles])] at hl
      exact Constraint.holds_congr (fun x hx => h x (by simp [handles, hx])) (hc hl)
  | _ => trivial

/-- The comparison that is posted holds exactly where the comparison meant does. -/
@[simp] theorem holds_linear {k : Comparison} :
    (linear k x y).Holds ρ ↔ k.Relates (value ρ x) (value ρ y) := by
  unfold linear Relation.of
  split <;> simp [Constraint.Holds]

theorem handles_linear {k : Comparison} : ∀ h ∈ (linear k x y).handles, h ∈ [x, y] := by
  unfold linear Relation.of
  split <;> simp [Constraint.handles]

/-! ### Tables -/

/-- The number is in the interval. -/
def Bounds.Contains (b : Bounds) (n : ℤ) : Prop := b.lower ≤ n ∧ n ≤ b.upper

/-- The point satisfies the solver, and no constraint folded to false. -/
def Admitted (ρ : HandleId → ℤ) (s : CpSatState) : Prop := s.solver.Satisfied ρ ∧ s.violated = []

/-- What the lowering knows of the handles in circulation is right. -/
structure Tables (G : Set Expr) (s : CpSatState) : Prop where
  calls {c : Call} {h : Expr} : c ∈ s.solver.calls.toList → h ∈ c.handles → h ∈ G
  bounds_fresh {id : HandleId} {b : Bounds} : (id, b) ∈ s.solver.bounds → id.index < s.nextHandle
  bounds {h : Expr} {id : HandleId} {b : Bounds} {ρ : HandleId → ℤ} : s.solver.cut = false →
    (id, b) ∈ s.solver.bounds → h ∈ G → h.id? = some id → Admitted ρ s → b.Contains (value ρ h)
  literals_fresh {id : HandleId} : id ∈ s.solver.literals → id.index < s.nextHandle
  literals {h : Expr} {id : HandleId} {ρ : HandleId → ℤ} : id ∈ s.solver.literals → h ∈ G →
    h.id? = some id → Admitted ρ s → value ρ h = 0 ∨ value ρ h = 1
  negations {id : HandleId} {k : Expr} : (id, k) ∈ s.solver.negations → k ∈ G ∧
    ∃ h ∈ G, h.id? = some id ∧ ∀ ρ, value ρ k = 1 - value ρ h

/-- The bounds of a term are noted. -/
def Noted (t : Solver) (h : Expr) : Prop := ∀ id, h.id? = some id → ∃ b, (id, b) ∈ t.bounds

/-- Of the entries that are noted for a term, the latest one is found. -/
theorem Noted.boundsOf_mem {t : Solver} {h : Expr} {id : HandleId} (hn : Noted t h)
    (hid : h.id? = some id) : (id, t.boundsOf h) ∈ t.bounds := by
  obtain ⟨b, hb⟩ := hn id hid
  obtain ⟨e, he⟩ : ∃ e, t.bounds.find? (·.1 = id) = some e :=
    Option.isSome_iff_exists.mp (List.find?_isSome.mpr ⟨(id, b), hb, by simp⟩)
  have heid : e.1 = id := by simpa using List.find?_some he
  have hfound : t.boundsOf h = e.2 := by
    cases h with
    | const x => cases hid
    | leaf | node =>
      cases hid
      simp only [Solver.boundsOf, he, Option.map_some, Option.getD_some]
  rw [hfound, ← heid]
  exact List.mem_of_find?_eq_some he

/-- The values that a variable may take: those within its bounds and the widest domain, and for a
truth value zero and one. -/
structure Allowed (d : Variable Exact) (n : ℤ) : Prop where
  within : d.Within n
  limited : -unboundedLimit ≤ n ∧ n ≤ unboundedLimit
  truth : d.kind = .boolean → n = 0 ∨ n = 1

/-- Every term is an integer, and nothing is excluded. Solutions are lost only if an interval was
cut off. -/
def semantics : Semantics ℤ Solver ℤ where
  int := value
  Integral _ _ := True
  Satisfies := Solver.Satisfied
  Tables := Tables
  Noted := Noted
  Calm t := t.cut = false
  Allowed := Allowed
  Fits _ _ := True
  Accepts n := n ≠ 0
  limited := False

end DecisionModel.CpSat
