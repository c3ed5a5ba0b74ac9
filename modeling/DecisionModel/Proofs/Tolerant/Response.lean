import DecisionModel.Proofs.Tolerant.Solvers

/-!
# Algebraic solvers respond

With finite bounds the primitives of SCIP and of Z3 return (`Scip.responds`, `Z3.responds`), so what
is built from them returns as well. For Z3 it is followed which constraints are collected on the way:
finite bounds are two constraints that hold exactly between them (`Z3.runs_requireBounds`).
-/

namespace DecisionModel

namespace LowerM

variable {α ν σ β γ : Type}

/-- The computation returns from every state. -/
def Returns (m : LowerM α ν σ β) : Prop := ∀ s, ∃ x s', m.Runs s x s'

theorem returns_pure (x : β) : Returns (pure x : LowerM α ν σ β) := fun s => ⟨x, s, rfl⟩

theorem returns_bind {m : LowerM α ν σ β} {f : β → LowerM α ν σ γ} (hm : Returns m)
    (hf : ∀ x, Returns (f x)) : Returns (m >>= f) := by
  intro s
  obtain ⟨x, s₁, hx⟩ := hm s
  obtain ⟨y, s', hy⟩ := hf x s₁
  exact ⟨y, s', runs_bind.mpr ⟨x, s₁, hx, hy⟩⟩

theorem returns_if {p : Prop} [Decidable p] {m n : LowerM α ν σ β} (hm : p → Returns m)
    (hn : ¬ p → Returns n) : Returns (if p then m else n) := by
  by_cases h : p
  · rw [if_pos h]
    exact hm h
  · rw [if_neg h]
    exact hn h

theorem returns_mapM {f : β → LowerM α ν σ γ} {xs : List β} (hf : ∀ x ∈ xs, Returns (f x)) :
    Returns (xs.mapM f) := by
  induction xs with
  | nil => exact returns_pure []
  | cons x xs ih =>
    obtain ⟨hx, hxs⟩ := List.forall_mem_cons.mp hf
    rw [List.mapM_cons]
    exact returns_bind hx fun y => returns_bind (ih hxs) fun ys => returns_pure (y :: ys)

theorem returns_forM {f : β → LowerM α ν σ PUnit} (hf : ∀ x, Returns (f x)) (xs : List β) :
    Returns (xs.forM f) := by
  induction xs with
  | nil => exact returns_pure PUnit.unit
  | cons x xs ih => exact returns_bind (hf x) fun _ => ih

theorem returns_foldlM {f : γ → β → LowerM α ν σ γ} (hf : ∀ y x, Returns (f y x)) (xs : List β)
    (y : γ) : Returns (xs.foldlM f y) := by
  induction xs generalizing y with
  | nil => exact returns_pure y
  | cons x xs ih =>
    rw [List.foldlM_cons]
    exact returns_bind (hf y x) ih

theorem returns_node (f : SolverFunction) (args : List (Handle ν)) :
    Returns (node f args : LowerM α ν σ (Handle ν)) := fun _ => ⟨_, _, rfl⟩

theorem returns_leaf (name : String) (integral : Bool) :
    Returns (leaf name integral : LowerM α ν σ (Handle ν)) := fun _ => ⟨_, _, rfl⟩

theorem returns_auxiliaryName (hint : String) :
    Returns (auxiliaryName hint : LowerM α ν σ String) := fun _ => ⟨_, _, rfl⟩

theorem returns_recordViolated (text : String) :
    Returns (recordViolated text : LowerM α ν σ Unit) := fun _ => ⟨_, _, rfl⟩

theorem returns_modifySolver (f : σ → σ) : Returns (modifySolver f : LowerM α ν σ Unit) :=
  fun _ => ⟨_, _, rfl⟩

theorem returns_getSolver : Returns (getSolver : LowerM α ν σ σ) := fun _ => ⟨_, _, rfl⟩

theorem returns_binary [Numeral ν] (f : ν → ν → ν) (symbol : SolverFunction) (x y : Handle ν) :
    Returns (binary f symbol x y : LowerM α ν σ (Handle ν)) := by
  unfold binary
  split
  · exact returns_pure _
  · exact returns_node _ _

end LowerM

end DecisionModel

namespace DecisionModel.Tolerant

open LowerM

variable {σ : Type} {P : Primitives Exact σ} {s s₁ : TolerantState σ} {h : Expr} {kind : Kind}
  {lower upper : Exact} {name : String}

/-- The primitives return a variable, a range and a sum wherever the bounds are finite. -/
structure Responds (P : Primitives Exact σ) : Prop where
  newVariable (kind : Kind) (l u : ℚ) (name : String) :
    Returns (P.newVariable kind (.finite l) (.finite u) name)
  addRange (h : Expr) {lower upper : Number Exact} {l u : ℚ} (name : String) :
    lower.exact = .finite l → upper.exact = .finite u → Returns (P.addRange h lower upper name)
  total (hs : List Expr) : Returns (P.total hs)

theorem runs_modifyOwn (f : σ → σ) (s : TolerantState σ) :
    (modifyOwn f : TolerantM Exact σ Unit).Runs s ()
      { s with solver := { s.solver with solver := f s.solver.solver } } := rfl

/-- A variable that the solver made is entered. -/
theorem runs_createVariable (hnew : (P.newVariable kind lower upper name).Runs s h s₁) :
    (createVariable P kind lower upper name).Runs s h { s₁ with
      solver := { s₁.solver with
        created := s₁.solver.created.push { handle := h, kind, lower, upper, name }
        binaries := if kind = .binary then h.id?.toList ++ s₁.solver.binaries
          else s₁.solver.binaries } } :=
  runs_bind.mpr ⟨h, s₁, hnew, rfl⟩

theorem Responds.createVariable (hP : Responds P) (kind : Kind) (l u : ℚ) (name : String) :
    Returns (createVariable P kind (.finite l) (.finite u) name) := by
  intro s
  obtain ⟨h, s₁, hnew⟩ := hP.newVariable kind l u name s
  exact ⟨h, _, runs_createVariable hnew⟩

theorem Responds.newBinary (hP : Responds P) (hint : String) : Returns (newBinary P hint) :=
  returns_bind (returns_auxiliaryName hint) fun name => hP.createVariable .binary 0 1 name

theorem returns_constrain {lower upper : Number Exact}
    (hrange : ∀ name, Returns (P.addRange h lower upper name)) :
    Returns (constrain P h lower upper) := by
  unfold Tolerant.constrain
  split
  · refine returns_bind (returns_bind returns_getSolver fun e => returns_pure _) fun eps => ?_
    exact returns_if (fun _ => returns_recordViolated _) fun _ => returns_pure _
  · exact returns_bind (returns_auxiliaryName _) fun name => returns_bind (returns_modifySolver _)
      fun _ => hrange name

theorem Responds.constrain (hP : Responds P) (h : Expr) {lower upper : Number Exact} {l u : ℚ}
    (hlower : lower.exact = .finite l) (hupper : upper.exact = .finite u) :
    Returns (constrain P h lower upper) :=
  returns_constrain fun name => hP.addRange h name hlower hupper

theorem returns_chainedSum (hs : List Expr) :
    Returns (chainedSum hs : TolerantM Exact σ Expr) := by
  cases hs with
  | nil => exact returns_pure zero
  | cons h hs => exact returns_foldlM (fun x y => returns_binary _ _ x y) hs h

end DecisionModel.Tolerant

/-! ### SCIP -/

namespace DecisionModel.Scip

open LowerM Tolerant

theorem returns_call (c : Call Exact) : Returns (call c : ScipM Exact Unit) :=
  fun _ => ⟨(), _, rfl⟩

theorem returns_addRange (h : Expr) (lower upper : Number Exact) (name : String) :
    Returns (addRange h lower upper name : ScipM Exact Unit) := by
  unfold addRange
  repeat' split
  all_goals
    repeat' refine returns_bind (returns_call _) fun _ => ?_
    first | exact returns_call _ | exact returns_pure _

theorem responds : Responds (primitives : Primitives Exact (Solver Exact)) where
  newVariable kind l u name := returns_bind (returns_call _) fun _ => returns_leaf _ _
  addRange h lower upper l u name _ _ := returns_addRange h lower upper name
  total hs := by
    cases hs with
    | nil => exact returns_chainedSum []
    | cons h hs => exact returns_node _ _

end DecisionModel.Scip

/-! ### Z3 -/

namespace DecisionModel.Z3

open LowerM Tolerant

variable {s s' s₁ : Z3State Exact} {rs rs' : List (Relation (Number Exact))}
  {lower upper : Number Exact} {l u : ℚ}

/-- A collected constraint holds at a point. -/
def Meets (ρ : HandleId → ℚ) (r : Relation (Number Exact)) : Prop :=
  r.comparison.holdsExactly (value ρ r.lhs) (value ρ r.rhs) = true

/-- The constraints `rs` are collected on the way from one state to another. -/
def Collects (s s' : Z3State Exact) (rs : List (Relation (Number Exact))) : Prop :=
  s'.solver.solver.constraints.toList = s.solver.solver.constraints.toList ++ rs

theorem Collects.trans (h₁ : Collects s s₁ rs) (h₂ : Collects s₁ s' rs') :
    Collects s s' (rs ++ rs') := by
  rw [Collects, h₂, h₁, List.append_assoc]

/-- A finite number as an exact term: nothing is collected for it. -/
theorem runs_exactTerm {x : Number Exact} {q : ℚ} (hx : x.exact = .finite q) (s : Z3State Exact) :
    ∃ t s', (exactTerm x).Runs s t s' ∧ Collects s s' [] ∧ ∀ ρ, value ρ t = .finite q := by
  have hq : x.exact.toRat = .ok q := by rw [hx]; rfl
  by_cases hden : q.den = 1
  · refine ⟨integer q.num, s, ?_, (List.append_nil _).symm, fun ρ => ?_⟩
    · exact runs_bind.mpr ⟨q, s, runs_lift.mpr ⟨hq, rfl⟩, by rw [if_pos hden]; rfl⟩
    · rw [integer, value_const]
      exact congrArg Exact.finite (Rat.coe_int_num_of_den_eq_one hden)
  · refine ⟨.node ⟨s.nextHandle⟩ (.quotient q) [], { s with nextHandle := s.nextHandle + 1 }, ?_,
      (List.append_nil _).symm, fun ρ => ?_⟩
    · exact runs_bind.mpr ⟨q, s, runs_lift.mpr ⟨hq, rfl⟩, by rw [if_neg hden]; rfl⟩
    · rw [value_node, values]
      rfl

/-- A comparison with a finite number is collected as such. -/
theorem runs_require {x : Number Exact} {q : ℚ} (c : Comparison) (h : Expr)
    (hx : x.exact = .finite q) (s : Z3State Exact) :
    ∃ s' rs, (do require c h (← exactTerm x) : Z3M Exact Unit).Runs s () s' ∧ Collects s s' rs ∧
      ∀ ρ, (∀ r ∈ rs, Meets ρ r) ↔ c.holdsExactly (value ρ h) (.finite q) = true := by
  obtain ⟨t, s₁, hterm, hcollects, hvalue⟩ := runs_exactTerm hx s
  refine ⟨_, [⟨c, h, t⟩], runs_bind.mpr ⟨t, s₁, hterm, runs_modifyOwn _ s₁⟩, ?_, fun ρ => ?_⟩
  · change Collects s _ ([] ++ [⟨c, h, t⟩])
    exact hcollects.trans (Array.toList_push ..)
  · simp [Meets, hvalue]

/-- Finite bounds are collected as two constraints. -/
theorem runs_requireBounds (h : Expr) (hlower : lower.exact = .finite l)
    (hupper : upper.exact = .finite u) (s : Z3State Exact) :
    ∃ s' rs, (requireBounds h lower upper).Runs s () s' ∧ Collects s s' rs ∧
      ∀ ρ, (∀ r ∈ rs, Meets ρ r) ↔ Between (.finite l) (.finite u) (value ρ h) := by
  obtain ⟨s₁, ls, hge, hcollects₁, hls⟩ := runs_require .ge h hlower s
  obtain ⟨s₂, us, hle, hcollects₂, hus⟩ := runs_require .le h hupper s₁
  refine ⟨s₂, ls ++ us, ?_, hcollects₁.trans hcollects₂, fun ρ => ?_⟩
  · have hnegInf : (!lower.exact.eq .negInf) = true := by rw [hlower]; rfl
    have hposInf : (!upper.exact.eq .posInf) = true := by rw [hupper]; rfl
    unfold requireBounds
    simp only [← bind_assoc]
    rw [if_pos hnegInf, if_pos hposInf]
    exact runs_bind.mpr ⟨(), s₁, hge, hle⟩
  · simp only [List.forall_mem_append, hls, hus]
    exact Iff.rfl

/-- A new variable is of the sort of its kind, and its bounds are collected. -/
theorem runs_newVariable (kind : Kind) (l u : ℚ) (name : String) (s : Z3State Exact) :
    ∃ s' rs, (newVariable kind (.finite l) (.finite u) name).Runs s
        (.leaf ⟨s.nextHandle⟩ name (kind != .continuous)) s' ∧ Collects s s' rs ∧
      ∀ ρ, (∀ r ∈ rs, Meets ρ r) ↔ Between (.finite l) (.finite u) (.finite (ρ ⟨s.nextHandle⟩)) := by
  let c : Call Exact := if kind = .continuous then .newReal name else .newInteger name
  obtain ⟨s', rs, hbounds, hcollects, hrs⟩ := runs_requireBounds
    (.leaf ⟨s.nextHandle⟩ name (kind != .continuous))
    (rfl : (Number.real (Exact.finite l)).exact = .finite l)
    (rfl : (Number.real (Exact.finite u)).exact = .finite u) { s with
      nextHandle := s.nextHandle + 1
      solver := { s.solver with solver := s.solver.solver.call c } }
  refine ⟨s', rs, runs_bind.mpr ⟨(), _, runs_modifyOwn _ s, runs_bind.mpr ⟨_, _, rfl,
    runs_bind.mpr ⟨(), s', hbounds, rfl⟩⟩⟩, hcollects, fun ρ => ?_⟩
  rw [hrs, value_leaf]

theorem responds : Responds (primitives : Primitives Exact (Solver Exact)) where
  newVariable kind l u name s := by
    obtain ⟨s', -, hruns, -⟩ := runs_newVariable kind l u name s
    exact ⟨_, s', hruns⟩
  addRange h lower upper l u name hlower hupper := by
    change Returns (addRange h lower upper name)
    unfold addRange
    refine returns_if (fun _ s => ?_) fun _ s => ?_
    · obtain ⟨s', -, hruns, -⟩ := runs_require .eq h hlower s
      exact ⟨(), s', hruns⟩
    · obtain ⟨s', -, hruns, -⟩ := runs_requireBounds h hlower hupper s
      exact ⟨(), s', hruns⟩
  total hs := returns_chainedSum hs

end DecisionModel.Z3
