import DecisionModel.Proofs.CpSat.Model
import DecisionModel.Proofs.Solver.Thresholds

/-!
# The first match everywhere

A first match has the value beside the first condition that is not zero, or else the last one. The sum
of gated terms that algebraic solvers get has it (`Tolerant.SelectsFirst`), with terms that folded to
zero left out; so have the nested conditionals that CP-SAT gets (`CpSat.SelectsFirst`), and evaluation,
which asks for no value but the selected one (`Solution.SelectsFirst`). Main result:
`first_match_everywhere`.
-/

namespace DecisionModel

open LowerM

/-! ### Algebraic solvers -/

namespace Tolerant

variable {σ : Type} {P : Primitives Exact σ}

theorem Serves.returns_gatePairs (hP : Serves P) (pending : Expr) (pairs : List (Expr × Expr)) :
    Returns (gatePairs P pending pairs) := by
  induction pairs generalizing pending with
  | nil => exact returns_pure _
  | cons p pairs ih =>
    refine returns_bind (hP.returns_truth _) fun c => returns_bind (hP.returns_gated _ _) fun _ =>
      returns_bind (hP.returns_gated _ _) fun term => ?_
    have hrest : ∀ notC, Returns (do
        let pending ← gated P pending notC
        let r ← gatePairs P pending pairs
        return (term :: r.1, r.2)) := fun notC =>
      returns_bind (hP.returns_gated _ _) fun _ => returns_bind (ih _) fun _ => returns_pure _
    split
    · exact hrest _
    · exact returns_bind (returns_binary _ _ _ _) hrest

theorem Serves.returns_firstMatch (hP : Serves P) (conditions values : List Expr) (otherwise : Expr) :
    Returns (firstMatch P conditions values otherwise) :=
  returns_bind (hP.returns_gatePairs _ _) fun _ => returns_bind (hP.returns_gated _ _) fun _ =>
    hP.responds.total _

/-- Whatever was lowered before, a first match of integral conditions returns a handle. At every point
that is admitted afterwards and at which all values are finite, the handle has the value of the one that
is chosen, and no point is lost. -/
def SelectsFirst (P : Primitives Exact σ) : Prop :=
  ∀ {G : Set Expr} {s : TolerantState σ} (conditions values : List Expr) (otherwise : Expr),
    (semantics σ).Valid G s → (∀ h ∈ conditions, (semantics σ).Usable G s h) →
    (∀ h ∈ otherwise :: values, h ∈ G) →
    ∃ h s', ((backend P).firstMatch conditions values otherwise).Runs s h s' ∧
      (∀ ρ, Admitted ρ s' → (∀ h ∈ otherwise :: values, ∃ q, value ρ h = .finite q) →
        value ρ h =
          value ρ (chosen ((conditions.map ((semantics σ).int ρ)).zip values) otherwise)) ∧
      ∀ ρ, Admitted ρ s → ∃ ρ', Agree s.nextHandle ρ ρ' ∧ Admitted ρ' s'

theorem selectsFirst (hP : Serves P) : SelectsFirst P := by
  intro G s conditions values otherwise hv hconditions hvalues
  obtain ⟨h, s', hr⟩ := hP.returns_firstMatch conditions values otherwise s
  obtain ⟨G', -, hextends, -, hchosen⟩ := firstMatch_spec hP.documented hv hconditions hvalues hr
  exact ⟨h, s', hr, hchosen, fun ρ hρ => hextends ρ trivial hρ trivial⟩

end Tolerant

/-! ### CP-SAT -/

namespace CpSat

theorem returns_call (c : Call) : Returns (call c : CpSatM Exact Unit) := returns_modifySolver _

theorem returns_track (h : Expr) (b : Bounds) : Returns (track h b : CpSatM Exact Expr) := by
  unfold track
  split
  · exact returns_bind (returns_modifySolver _) fun _ => returns_pure _
  · exact returns_pure _

theorem returns_negation (h : Expr) : Returns (negation h : CpSatM Exact Expr) := by
  unfold negation
  split
  · exact returns_pure _
  · exact returns_pure _
  · refine returns_bind returns_getSolver fun t => ?_
    split
    · exact returns_pure _
    · exact returns_bind (returns_node _ _) fun _ => returns_bind (returns_modifySolver _)
        fun _ => returns_pure _

theorem returns_newInteger (b : Bounds) (hint : String) :
    Returns (newInteger b hint : CpSatM Exact Expr) := by
  have hconfine : Returns (confine b : CpSatM Exact Bounds) :=
    returns_if (fun _ => returns_bind (returns_modifySolver _) fun _ => returns_pure _)
      fun _ => returns_pure _
  exact returns_bind hconfine fun b => returns_bind (returns_auxiliaryName hint) fun name =>
    returns_bind (returns_leaf name true) fun h => returns_bind (returns_call _)
      fun _ => returns_track h b

theorem returns_reify (k : Comparison) (x y : Expr) : Returns (reify k x y : CpSatM Exact Expr) :=
  have hliteral : Returns (newLiteral "cmp" : CpSatM Exact Expr) :=
    returns_bind (returns_auxiliaryName _) fun _ => returns_bind (returns_leaf _ _) fun _ =>
      returns_bind (returns_call _) fun _ => returns_bind (returns_modifySolver _) fun _ =>
        returns_track _ _
  returns_bind hliteral fun _ => returns_bind (returns_call _) fun _ =>
    returns_bind (returns_negation _) fun _ => returns_bind (returns_call _) fun _ => returns_pure _

theorem returns_truth (h : Expr) : Returns (truth h : CpSatM Exact Expr) := by
  unfold truth
  split
  · exact returns_pure _
  · exact returns_pure _
  · exact returns_bind returns_getSolver fun _ =>
      returns_if (fun _ => returns_pure _) fun _ => returns_reify _ _ _

theorem returns_conditional (c t e : Expr) : Returns (conditional c t e : CpSatM Exact Expr) := by
  have hbounds : ∀ h, Returns (boundsOf h : CpSatM Exact Bounds) := fun h =>
    returns_bind returns_getSolver fun _ => returns_pure _
  refine returns_bind (returns_truth c) fun literal => ?_
  split
  · exact returns_pure _
  · exact returns_bind (hbounds t) fun _ => returns_bind (hbounds e) fun _ =>
      returns_bind (returns_newInteger _ _) fun _ => returns_bind (returns_call _) fun _ =>
        returns_bind (returns_negation _) fun _ => returns_bind (returns_call _) fun _ =>
          returns_pure _

/-- Whatever was lowered before, a first match returns a handle, which at every point that is admitted
afterwards has the value of the one that is chosen. As long as no interval was cut off, no point is
lost. -/
def SelectsFirst : Prop :=
  ∀ {G : Set Expr} {s : CpSatState} (conditions values : List Expr) (otherwise : Expr),
    semantics.Valid G s → (∀ h ∈ conditions ++ values ++ [otherwise], semantics.Usable G s h) →
    ∃ h s', ((backend : Backend Exact ℤ Solver).firstMatch conditions values otherwise).Runs s h s' ∧
      (∀ ρ, Admitted ρ s' →
        value ρ h = value ρ (chosen ((conditions.map (value ρ)).zip values) otherwise)) ∧
      (s'.solver.cut = false →
        ∀ ρ, Admitted ρ s → ∃ ρ', Agree s.nextHandle ρ ρ' ∧ Admitted ρ' s')

theorem selectsFirst : SelectsFirst := by
  intro G s conditions values otherwise hv hargs
  obtain ⟨h, s', hr⟩ : ∃ h s', ((backend : Backend Exact ℤ Solver).firstMatch conditions values
      otherwise).Runs s h s' := returns_foldlM (fun _ _ => returns_conditional _ _ _) _ otherwise s
  obtain ⟨G', -, -, hchosen, hextends⟩ :=
    Semantics.computes_nestedConditionals computes_conditional conditions values otherwise hv hargs hr
  refine ⟨h, s', hr, fun ρ hρ => ?_, fun hcut ρ hρ => hextends ρ hcut hρ trivial⟩
  rw [map_chosen (value ρ), ← List.zip_map, List.map_id]
  exact hchosen ρ hρ

end CpSat

/-! ### Evaluation -/

/-- Conditions and values in turn, and the last operand. -/
def alternating {β : Type} (conditions values : List β) (otherwise : β) : List β :=
  (conditions.zip values).flatMap (fun p => [p.1, p.2]) ++ [otherwise]

namespace Assignment

variable {a : Assignment Exact} {w : Workspace Exact} {read : VarId → Partially Exact (Reading Exact)}

/-- The operands in turn evaluate to the outcome of the value that is chosen. -/
theorem evaluateFirstMatch_alternating {conditions : List (Term Exact)} {ns : List ℤ}
    (values : List (Term Exact)) (otherwise : Term Exact) (id : NodeId) (k : ℕ)
    (hns : List.Forall₂ (fun t n => Outcome.ofReading ((a.argument w read none t).value ()) =
      .ok (some (.finite (n : ℤ)))) conditions ns) :
    Outcome.ofReading (Operator.evaluateFirstMatch
        (a.arguments w read id k (alternating conditions values otherwise))) =
      Outcome.ofReading ((a.argument w read none (chosen (ns.zip values) otherwise)).value ()) := by
  induction hns generalizing values k with
  | nil => exact ofReading_argument _ none otherwise
  | @cons c n conditions ns hc _ ih =>
    cases values with
    | nil => exact ofReading_argument _ none otherwise
    | cons v values =>
      have hrest := ih values (k + 1 + 1)
      obtain ⟨r, hr, hrn⟩ := exists_reading none (some (.constant id k)) hc
      have hnonempty : (a.arguments w read id (k + 1 + 1)
          (alternating conditions values otherwise)).isEmpty = false := by
        cases conditions <;> cases values <;> rfl
      change Outcome.ofReading (Outcome.andThen ((a.argument w read (some (.constant id k)) c).value ())
        fun x => if Scalar.isZero x.value then
          if (a.arguments w read id (k + 1 + 1) (alternating conditions values otherwise)).isEmpty
          then (a.argument w read (some (.constant id (k + 1))) v).value ()
          else Operator.evaluateFirstMatch (a.arguments w read id (k + 1 + 1)
            (alternating conditions values otherwise))
        else (a.argument w read (some (.constant id (k + 1))) v).value ()) = _
      simp only [hr, Outcome.andThen, hrn, Scalar.isZero_int, decide_eq_true_iff, hnonempty,
        Bool.false_eq_true, if_false, List.zip_cons_cons, chosen]
      split
      · exact hrest
      · exact ofReading_argument _ none v

end Assignment

/-- A node that chooses the first match has the outcome of the value that is chosen, whatever the
outcomes of the others, if its conditions are integers and its operator keeps its fixed meaning. -/
def Solution.SelectsFirst (sol : Solution Exact) (w : Workspace Exact) : Prop :=
  ∀ (conditions values : List (Term Exact)) (otherwise : Term Exact) (ns : List ℤ) (id : NodeId),
    sol.assignment.evaluators "n_ary_if" = none →
    List.Forall₂ (fun t n => sol.evaluate w t = .ok (some (.finite (n : ℤ)))) conditions ns →
    sol.evaluate w (.node id (.custom "n_ary_if") (alternating conditions values otherwise)) =
      sol.evaluate w (chosen (ns.zip values) otherwise)

theorem Solution.selectsFirst (sol : Solution Exact) (w : Workspace Exact) : sol.SelectsFirst w := by
  intro conditions values otherwise ns id hown hns
  have hcustom : sol.assignment.custom "n_ary_if" = some Operator.evaluateFirstMatch := by
    simp [Assignment.custom, hown, Operator.builtin?]
  have hvalue := Assignment.evaluateFirstMatch_alternating values otherwise id 0 hns
  simp only [Solution.evaluate, Assignment.evaluate, Assignment.readWith, Assignment.argument,
    reduceCtorEq, if_false, Operator.evaluate, hcustom]
  exact hvalue

/-! ### All of them -/

/-- Algebraic solvers, CP-SAT and evaluation choose the same: the value beside the first condition that
is not zero, or else the last one. -/
theorem first_match_everywhere {σ : Type} {P : Tolerant.Primitives Exact σ} (hP : Tolerant.Serves P) :
    Tolerant.SelectsFirst P ∧ CpSat.SelectsFirst ∧ ∀ sol w, Solution.SelectsFirst sol w :=
  ⟨Tolerant.selectsFirst hP, CpSat.selectsFirst, Solution.selectsFirst⟩

/-! ### A switch and an amount -/

namespace Switched

/-- A binary variable. -/
def switch : Tolerant.Expr := .leaf ⟨0⟩ "b" true

/-- A variable that need not be integral. -/
def amount : Tolerant.Expr := .leaf ⟨1⟩ "x" false

def half : Tolerant.Expr := .const (.real (.finite (1 / 2)))

/-- A solver that was given both variables. -/
def lowered {σ : Type} (own : σ) : Tolerant.TolerantState σ where
  nextHandle := 2
  solver := {
    epsilon := .real (.finite (1 / 1000000))
    created := #[⟨switch, .binary, .finite 0, .finite 1, "b"⟩,
      ⟨amount, .continuous, .finite 0, .finite 1, "x"⟩]
    binaries := [⟨0⟩]
    solver := own }

def handles : Set Tolerant.Expr := insert amount (insert switch World.numbers)

theorem switch_binary {σ : Type} {own : σ} {ρ : HandleId → ℚ} (hρ : Tolerant.Admitted ρ (lowered own)) :
    Tolerant.IsBinary (Tolerant.value ρ switch) :=
  (hρ.1.created (c := ⟨switch, .binary, .finite 0, .finite 1, "b"⟩) (by simp [lowered])).kind

theorem valid {σ : Type} (own : σ) : (Tolerant.semantics σ).Valid handles (lowered own) where
  world := ((World.of_numbers 0).insert_leaf "b" true).insert_leaf "x" false
  tables := {
    tolerance := ⟨1 / 1000000, rfl, by norm_num, by norm_num⟩
    created := fun {c} hc => by
      rcases (by simpa [lowered] using hc : c = _ ∨ c = _) with rfl | rfl
      · exact .inr (.inl rfl)
      · exact .inl rfl
    posted := fun hr => by simp [lowered] at hr
    binaries := fun {id} hid => by
      obtain rfl : id = ⟨0⟩ := by simpa [lowered] using hid
      exact ⟨switch, .inr (.inl rfl), rfl, fun ρ hρ => switch_binary hρ⟩
    booleans := fun hid => by simp [lowered] at hid }

/-- Numbers and handles, values that are not integral and one without a value among them: the match is
the amount where the switch is on, and the last value where it is off. -/
theorem chosen_amount :
    (∃ h s', ((Tolerant.backend Scip.primitives).firstMatch [Tolerant.zero, switch] [half, amount]
        Tolerant.zero).Runs (lowered {}) h s' ∧ ∀ ρ, Tolerant.Admitted ρ s' →
      Tolerant.value ρ h = Tolerant.value ρ (chosen [(0, half),
        ((Tolerant.semantics (Scip.Solver Exact)).int ρ switch, amount)] Tolerant.zero)) ∧
    (∃ h s', ((CpSat.backend : Backend Exact ℤ CpSat.Solver).firstMatch [.const 0, .const 3]
        [.const 7, .const 8] (.const 9)).Runs CpSat.initial h s' ∧
      ∀ ρ, CpSat.Admitted ρ s' → CpSat.value ρ h = 8) ∧
    Small.solution.evaluate Small.workspace (.node ⟨9⟩ (.custom "n_ary_if") (alternating
      [.const (.finite 0), .var ⟨0⟩] [.node ⟨8⟩ (.custom "abs") [], .var ⟨1⟩] (.const (.finite 9)))) =
        .ok (some (.finite 3)) := by
  obtain ⟨tolerant, cpSat, evaluation⟩ := first_match_everywhere Scip.serves
  have hv := valid (σ := Scip.Solver Exact) {}
  have hzero : (Tolerant.semantics (Scip.Solver Exact)).Usable handles (lowered {}) Tolerant.zero :=
    ⟨⟨hv.world.const_mem _, fun ρ _ => ⟨0, by simp [Tolerant.zero, Tolerant.scalar]⟩⟩, trivial⟩
  have hswitch : (Tolerant.semantics (Scip.Solver Exact)).Usable handles (lowered {}) switch :=
    ⟨⟨.inr (.inl rfl), fun ρ hρ => (switch_binary hρ).integral⟩, trivial⟩
  refine ⟨?_, ?_, ?_⟩
  · obtain ⟨h, s', hr, hvalue, -⟩ := tolerant [Tolerant.zero, switch] [half, amount] Tolerant.zero hv
      (by simpa using ⟨hzero, hswitch⟩)
      (by simpa using ⟨hzero.mem, hv.world.const_mem _, Set.mem_insert amount _⟩)
    refine ⟨h, s', hr, fun ρ hρ => (hvalue ρ hρ ?_).trans ?_⟩
    · simp [half, amount, Tolerant.zero, Tolerant.scalar]
    · simp [Tolerant.zero, Tolerant.scalar, Tolerant.semantics, Tolerant.intOf]
  · obtain ⟨h, s', hr, hvalue, -⟩ := cpSat [.const 0, .const 3] [.const 7, .const 8] (.const 9)
      CpSat.valid_initial (by simp [CpSat.usable_number CpSat.valid_initial])
    exact ⟨h, s', hr, fun ρ hρ => (hvalue ρ hρ).trans (by simp [chosen])⟩
  · exact (evaluation Small.solution Small.workspace _ _ _ [0, 2] ⟨9⟩ rfl
      (.cons rfl (.cons rfl .nil))).trans rfl

end Switched

end DecisionModel
