import DecisionModel.Tolerant.Encoding
import DecisionModel.Proofs.Lowering.Faithful

/-!
# What algebraic solvers are told

A point gives a rational to every variable. `value` extends it to terms; a term may have no finite
value, such as a quotient by zero. A point satisfies the solver if every variable has a value of its
kind within its bounds and every range holds.

`Documented P` is what the documentation of the primitives promises: a new variable is a leaf of its
own, absolute values, powers, sums and gated terms have the values they are named for, and a primitive
touches nothing but the solver's own part of the state. `semantics` puts this together for integral
models: the tolerance keeps the two thresholds within one unit (`IsTolerance`).
-/

namespace DecisionModel.Tolerant

variable {σ : Type}

/-- Numbers and terms of an algebraic solver. -/
abbrev Expr : Type := Handle (Number Exact)

abbrev TolerantState (σ : Type) : Type := LoweringState (Number Exact) (Encoding Exact σ)

/-! ### Values -/

/-- The function of a node, over the values of its arguments. -/
def apply : SolverFunction → List Exact → Exact
  | .add, [x, y] => x.add y
  | .sub, [x, y] => x.sub y
  | .mul, [x, y] => x.mul y
  | .div, [x, y] => x.div y
  | .pow, [x, y] => match x.power y with
    | .ok z => z
    | .error _ => .nan
  | .neg, [x] => x.neg
  | .abs, [x] => x.abs
  | .total, xs => xs.foldl Exact.add (.finite 0)
  | .choose c, [x, y, t, e] => if c.holdsExactly x y then t else e
  | .toReal, [x] => x
  | .quotient q, [] => .finite q
  | _, _ => .nan

mutual

/-- The value of a term at a point. -/
def value (ρ : HandleId → ℚ) : Expr → Exact
  | .const x => x.exact
  | .leaf id _ _ => .finite (ρ id)
  | .node _ f args => apply f (values ρ args)

def values (ρ : HandleId → ℚ) : List Expr → List Exact
  | [] => []
  | h :: hs => value ρ h :: values ρ hs

end

variable {ρ ρ' : HandleId → ℚ} {id : HandleId} {x y : Expr}

@[simp] theorem value_const (n : Number Exact) : value ρ (.const n) = n.exact := by rw [value]

@[simp] theorem value_leaf (name : String) (integral : Bool) :
    value ρ (.leaf id name integral) = .finite (ρ id) := by rw [value]

theorem value_node (f : SolverFunction) (args : List Expr) :
    value ρ (.node id f args) = apply f (values ρ args) := by rw [value]

theorem values_eq_map (hs : List Expr) : values ρ hs = hs.map (value ρ) := by
  induction hs with
  | nil => rw [values, List.map_nil]
  | cons h hs ih => rw [values, ih, List.map_cons]

theorem value_congr {G : Set Expr} {n : ℕ} (hw : World G n) {h : Expr} (hh : h ∈ G)
    (ha : Agree n ρ ρ') : value ρ h = value ρ' h := by
  induction h using Handle.induction with
  | const x => simp
  | leaf id name integral => rw [value_leaf, value_leaf, ha id (hw.fresh hh rfl)]
  | node id f args ih =>
    rw [value_node, value_node, values_eq_map, values_eq_map,
      List.map_congr_left fun x hx => ih x hx (hw.args_mem hh x hx)]

/-! ### Variables and ranges -/

/-- Zero or one. -/
def IsBinary (x : Exact) : Prop := x = .finite 0 ∨ x = .finite 1

/-- The values of a kind. -/
def Kind.Has : Kind → Exact → Prop
  | .continuous, _ => True
  | .integer, x => ∃ n : ℤ, x = .finite n
  | .binary, x => IsBinary x

/-- The variable has a value of its kind within its bounds. -/
structure Created.Holds (ρ : HandleId → ℚ) (c : Created Exact) : Prop where
  kind : c.kind.Has (value ρ c.handle)
  lower_le : c.lower.le (value ρ c.handle) = true
  le_upper : (value ρ c.handle).le c.upper = true

/-- The value is between the bounds. -/
def Between (lower upper x : Exact) : Prop := lower.le x = true ∧ x.le upper = true

def Range.Holds (ρ : HandleId → ℚ) (r : Range Exact) : Prop :=
  Between r.lower.exact r.upper.exact (value ρ r.expression)

/-- The point satisfies all variables and all ranges. -/
structure Encoding.Satisfied (ρ : HandleId → ℚ) (e : Encoding Exact σ) : Prop where
  created {c : Created Exact} : c ∈ e.created.toList → c.Holds ρ
  posted {r : Range Exact} : r ∈ e.posted.toList → r.Holds ρ

theorem kind_has_integer {x : Exact} : Kind.Has .integer x ↔ x.isInteger = true := by
  cases x with
  | finite q =>
    simp only [Kind.Has, Exact.finite.injEq, Exact.isInteger, decide_eq_true_iff]
    exact ⟨fun ⟨n, h⟩ => h ▸ Rat.den_intCast n, fun h => ⟨q.num, (Rat.coe_int_num_of_den_eq_one h).symm⟩⟩
  | _ => simp [Kind.Has, Exact.isInteger]

instance (x : Exact) : Decidable (IsBinary x) := inferInstanceAs (Decidable (_ ∨ _))

instance : (kind : Kind) → (x : Exact) → Decidable (kind.Has x)
  | .continuous, _ => .isTrue trivial
  | .integer, _ => decidable_of_iff _ kind_has_integer.symm
  | .binary, x => inferInstanceAs (Decidable (IsBinary x))

instance (c : Created Exact) : Decidable (c.Holds ρ) :=
  decidable_of_iff (c.kind.Has (value ρ c.handle) ∧ c.lower.le (value ρ c.handle) = true ∧
    (value ρ c.handle).le c.upper = true) ⟨fun ⟨h₁, h₂, h₃⟩ => ⟨h₁, h₂, h₃⟩,
      fun h => ⟨h.kind, h.lower_le, h.le_upper⟩⟩

instance (r : Range Exact) : Decidable (r.Holds ρ) := inferInstanceAs (Decidable (_ ∧ _))

instance (e : Encoding Exact σ) : Decidable (e.Satisfied ρ) :=
  decidable_of_iff ((∀ c ∈ e.created.toList, c.Holds ρ) ∧ ∀ r ∈ e.posted.toList, r.Holds ρ)
    ⟨fun ⟨h₁, h₂⟩ => ⟨fun hc => h₁ _ hc, fun hr => h₂ _ hr⟩,
      fun h => ⟨fun _ hc => h.created hc, fun _ hr => h.posted hr⟩⟩

theorem Created.holds_congr {c : Created Exact} (h : value ρ c.handle = value ρ' c.handle)
    (hc : c.Holds ρ) : c.Holds ρ' := ⟨h ▸ hc.kind, h ▸ hc.lower_le, h ▸ hc.le_upper⟩

/-- The point satisfies the solver, and no constraint folded to false. -/
def Admitted (ρ : HandleId → ℚ) (s : TolerantState σ) : Prop :=
  s.solver.Satisfied ρ ∧ s.violated = []

/-! ### Primitives -/

/-- Nothing changed but the solver's own part of the state and the counter of identities. -/
structure Silent (G : Set Expr) (s : TolerantState σ) (G' : Set Expr) (s' : TolerantState σ) : Prop where
  subset : G ⊆ G'
  world : World G' s'.nextHandle
  next_le : s.nextHandle ≤ s'.nextHandle
  same : ∃ own, s' = { s with
    nextHandle := s'.nextHandle
    solver := { s.solver with solver := own } }

/-- A primitive that makes a term keeps silent, and the term has a value as described by `R`. -/
def Silent.Gives (G : Set Expr) (s : TolerantState σ) (h : Expr) (s' : TolerantState σ)
    (R : (HandleId → ℚ) → Exact → Prop) : Prop :=
  ∃ G', Silent G s G' s' ∧ h ∈ G' ∧ ∀ ρ, R ρ (value ρ h)

/-- What the documentation of the primitives promises. -/
structure Documented (P : Primitives Exact σ) : Prop where
  newVariable {kind : Kind} {lower upper : Exact} {name : String} {G : Set Expr}
      {s s' : TolerantState σ} {h : Expr} : World G s.nextHandle →
    (P.newVariable kind lower upper name).Runs s h s' → ∃ G', Silent G s G' s' ∧ h ∈ G' ∧
      ∃ id integral, h = .leaf id name integral ∧ s.nextHandle ≤ id.index
  addRange {h : Expr} {lower upper : Number Exact} {name : String} {G : Set Expr}
      {s s' : TolerantState σ} : World G s.nextHandle → h ∈ G →
    (P.addRange h lower upper name).Runs s () s' → ∃ G', Silent G s G' s'
  absolute {h k : Expr} {G : Set Expr} {s s' : TolerantState σ} : World G s.nextHandle → h ∈ G →
    (P.absolute h).Runs s k s' → Silent.Gives G s k s' fun ρ v =>
      ∀ q, value ρ h = .finite q → v = .finite |q|
  power {h k : Expr} {n : ℕ} {G : Set Expr} {s s' : TolerantState σ} : World G s.nextHandle →
    h ∈ G → 2 ≤ n → (P.power h (.finite n)).Runs s k s' → Silent.Gives G s k s' fun ρ v =>
      ∀ q, value ρ h = .finite q → v = .finite (q ^ n)
  /-- A product of two terms, the first of which is zero or one, is a term. -/
  gate {b h k : Expr} {G : Set Expr} {s s' : TolerantState σ} : World G s.nextHandle → b ∈ G →
    h ∈ G → b.number? = none → h.number? = none → (P.gate b h).Runs s k s' →
      k.number? = none ∧ Silent.Gives G s k s' fun ρ v =>
      ∀ q, value ρ h = .finite q →
        (value ρ b = .finite 0 → v = .finite 0) ∧ (value ρ b = .finite 1 → v = .finite q)
  total {hs : List Expr} {k : Expr} {G : Set Expr} {s s' : TolerantState σ} :
    World G s.nextHandle → (∀ h ∈ hs, h ∈ G) → (P.total hs).Runs s k s' →
      Silent.Gives G s k s' fun ρ v =>
        ∀ qs : List ℚ, hs.map (value ρ) = qs.map Exact.finite → v = .finite qs.sum
  tolerance {x : Number Exact} {G : Set Expr} {s s' : TolerantState σ} : World G s.nextHandle →
    P.tolerance.Runs s x s' → ∃ G', Silent G s G' s'
  setObjective {h : Expr} {sense : Sense} {G : Set Expr} {s s' : TolerantState σ} :
    World G s.nextHandle → h ∈ G → (P.setObjective h sense).Runs s () s' → ∃ G', Silent G s G' s'

/-! ### Integral models -/

/-- The tolerance is positive, and the second threshold is at most one. -/
structure IsTolerance (x : Number Exact) (ε : ℚ) : Prop where
  exact_eq : x.exact = .finite ε
  pos : 0 < ε
  le_one : 11 / 10 * ε ≤ 1

/-- What the lowering knows of the handles in circulation is right. -/
structure Tables (G : Set Expr) (s : TolerantState σ) : Prop where
  tolerance : ∃ ε, IsTolerance s.solver.epsilon ε
  created {c : Created Exact} : c ∈ s.solver.created.toList → c.handle ∈ G
  posted {r : Range Exact} : r ∈ s.solver.posted.toList → r.expression ∈ G
  binaries {id : HandleId} : id ∈ s.solver.binaries → ∃ h ∈ G, h.id? = some id ∧
    ∀ ρ, Admitted ρ s → IsBinary (value ρ h)
  booleans {id : HandleId} {b : Expr} : (id, b) ∈ s.solver.booleans → b ∈ G ∧
    ∃ h ∈ G, h.id? = some id ∧ ∀ ρ, Admitted ρ s → IsBinary (value ρ b) ∧
      (value ρ b = .finite 0 ↔ value ρ h = .finite 0)

/-- The integer that a value is. -/
def intOf : Exact → ℤ
  | .finite q => ⌊q⌋
  | _ => 0

/-- The rational that a value is. -/
def ratOf : Exact → ℚ
  | .finite q => q
  | _ => 0

/-- The values that a variable may take: those within its bounds, and for a truth value zero and one. -/
structure Allowed (d : Variable Exact) (n : ℤ) : Prop where
  within : d.Within n
  truth : d.kind = .boolean → n = 0 ∨ n = 1

/-- Handles are integral where the model is, and a handle is required to be true by reaching one. -/
def semantics (σ : Type) : Semantics (Number Exact) (Encoding Exact σ) ℚ where
  int ρ h := intOf (value ρ h)
  Integral ρ h := ∃ n : ℤ, value ρ h = .finite n
  Satisfies ρ e := e.Satisfied ρ
  Tables := Tables
  Noted _ _ := True
  Calm _ := True
  Allowed := Allowed
  Fits d n := d.Within n
  Accepts n := 1 ≤ n
  limited := True

end DecisionModel.Tolerant
