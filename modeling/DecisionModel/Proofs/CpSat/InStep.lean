import DecisionModel.Proofs.Lowering.InStep
import DecisionModel.Solver.CpSat.Encoding

/-!
# CP-SAT: what the search is told to print

`Solver.visible` leaves out the call that switches on the log of the search. No encoding depends on it:
each is in step with itself (`steady`).
-/

namespace DecisionModel.CpSat

open LowerM

variable {α β : Type}

/-- Every call but the one that switches on the log of the search. -/
def Call.isVisible : Call → Bool
  | .parameter name value => name != "log_search_progress" || value != "true"
  | _ => true

/-- The solver without the calls that concern its log only. -/
def Solver.visible (t : Solver) : Solver := { t with calls := t.calls.filter Call.isVisible }

/-- The computation does not depend on what is left out. -/
abbrev Steady (m : CpSatM α β) : Prop := InStep (SameBut Solver.visible) m m

theorem visible_push {c : Call} (hc : c.isVisible = true) (t : Solver) :
    Solver.visible { t with calls := t.calls.push c } =
      { t.visible with calls := t.visible.calls.push c } := by
  simp [Solver.visible, hc]

theorem inStep_call {c : Call} (hc : c.isVisible = true) : Steady (call c : CpSatM α Unit) :=
  inStep_modifySolver_of_comm fun t => visible_push hc t

theorem inStep_require (c : Constraint) : Steady (require c : CpSatM α Unit) := inStep_call rfl

theorem inStep_requireIf (literal : Expr) (c : Constraint) :
    Steady (requireIf literal c : CpSatM α Unit) := inStep_call rfl

theorem inStep_track (h : Expr) (b : Bounds) : Steady (track h b : CpSatM α Expr) := by
  unfold track
  split
  · exact inStep_bind (inStep_modifySolver_of_comm fun _ => rfl) fun _ => inStep_pure _
  · exact inStep_pure _

theorem inStep_confine (b : Bounds) : Steady (confine b : CpSatM α Bounds) :=
  inStep_when (inStep_modifySolver_of_comm fun _ => rfl) (inStep_pure _)

theorem inStep_trackConfined (h : Expr) (b : Bounds) :
    Steady (trackConfined h b : CpSatM α Expr) :=
  inStep_ite (inStep_pure _) (inStep_bind (inStep_confine b) fun _ => inStep_track _ _)

section

/-! Only calls are left out: what is known of the handles is the same. -/

variable {t t' : Solver} (h : t'.visible = t.visible)

include h

theorem boundsOf_congr : t'.boundsOf = t.boundsOf := by
  funext k
  have hbounds : t'.bounds = t.bounds := (Solver.mk.inj h).2.1
  cases k <;> simp only [Solver.boundsOf, hbounds]

theorem literals_congr : t'.literals = t.literals := (Solver.mk.inj h).2.2.1

theorem negations_congr : t'.negations = t.negations := (Solver.mk.inj h).2.2.2.1

end

theorem inStep_boundsOf (h : Expr) : Steady (boundsOf h : CpSatM α Bounds) := by
  refine inStep_lookSolver fun t t' ht => ?_
  rw [boundsOf_congr ht]
  exact inStep_pure _

theorem inStep_combinedBounds (f : Bounds → Bounds → Bounds) (h : Expr) (hs : List Expr) :
    Steady (combinedBounds f h hs : CpSatM α Bounds) := by
  refine inStep_lookSolver fun t t' ht => ?_
  rw [boundsOf_congr ht]
  exact inStep_pure _

theorem inStep_newInteger (b : Bounds) (hint : String) :
    Steady (newInteger b hint : CpSatM α Expr) := by
  refine inStep_bind (inStep_confine b) fun b => inStep_bind (inStep_auxiliaryName _) fun _ => ?_
  exact inStep_bind (inStep_leaf _ _) fun _ => inStep_bind (inStep_call rfl) fun _ => inStep_track _ _

theorem inStep_trackLiteral (h : Expr) : Steady (trackLiteral h : CpSatM α Expr) :=
  inStep_bind (inStep_modifySolver_of_comm fun _ => rfl) fun _ => inStep_track _ _

theorem inStep_newLiteral (hint : String) : Steady (newLiteral hint : CpSatM α Expr) := by
  refine inStep_bind (inStep_auxiliaryName _) fun _ => inStep_bind (inStep_leaf _ _) fun _ => ?_
  exact inStep_bind (inStep_call rfl) fun _ => inStep_trackLiteral _

theorem inStep_negation (literal : Expr) : Steady (negation literal : CpSatM α Expr) := by
  unfold negation
  split
  · exact inStep_pure _
  · exact inStep_pure _
  · refine inStep_lookSolver fun t t' ht => ?_
    rw [negations_congr ht]
    split
    · exact inStep_pure _
    · refine inStep_bind (inStep_node _ _) fun _ => ?_
      exact inStep_bind (inStep_modifySolver_of_comm fun _ => rfl) fun _ => inStep_pure _

theorem inStep_asVariable (h : Expr) : Steady (asVariable h : CpSatM α Expr) := by
  refine inStep_ite (inStep_pure _) ?_
  refine inStep_bind (inStep_boundsOf h) fun _ => inStep_bind (inStep_newInteger _ _) fun _ => ?_
  exact inStep_bind (inStep_require _) fun _ => inStep_pure _

/-! ### Constants and variables -/

theorem inStep_createSequence (members : List String) :
    Steady (createSequence members : CpSatM α (List Expr)) := by
  refine inStep_bind (inStep_mapM fun _ _ => ?_) fun _ => inStep_bind (inStep_require _) fun _ => ?_
  · exact inStep_bind (inStep_leaf _ _) fun _ => inStep_bind (inStep_call rfl) fun _ => inStep_pure _
  · exact inStep_mapM fun _ _ => inStep_bind (inStep_add _ _) fun _ => inStep_track _ _

variable [Scalar α]

theorem inStep_constant? (x : α) : Steady (constant? x) := by
  unfold constant?
  split
  · exact inStep_ite (inStep_pure _) (inStep_pure _)
  · exact inStep_pure _

theorem inStep_constant (x : α) : Steady (constant x) := by
  refine inStep_bind (inStep_constant? x) fun _ => ?_
  split
  · exact inStep_pure _
  · exact inStep_fail _

theorem inStep_createBoolean (v : Variable α) : Steady (createBoolean v) := by
  refine inStep_bind (inStep_leaf _ _) fun _ => inStep_bind (inStep_call rfl) fun _ => ?_
  refine inStep_bind (inStep_modifySolver_of_comm fun _ => rfl) fun _ => ?_
  refine inStep_bind (inStep_lift _) fun _ => inStep_bind (inStep_lift _) fun _ => ?_
  exact inStep_when (inStep_require _) (inStep_track _ _)

theorem inStep_createVariable (v : Variable α) : Steady (createVariable v) := by
  unfold createVariable
  split
  · exact inStep_fail _
  · exact inStep_createBoolean v
  · refine inStep_bind (inStep_lift _) fun _ => inStep_when (inStep_fail _) ?_
    exact inStep_bind (inStep_leaf _ _) fun _ => inStep_bind (inStep_call rfl) fun _ => inStep_track _ _

omit [Scalar α]

/-! ### Arithmetic -/

theorem inStep_negate (h : Expr) : Steady (negate h : CpSatM α Expr) :=
  inStep_bind (inStep_boundsOf h) fun _ => inStep_bind (inStep_neg _) fun _ => inStep_track _ _

/-- An operation that notes the combined bounds of its operands. -/
theorem inStep_tracked (combine : Bounds → Bounds → Bounds) {m : CpSatM α Expr} (x y : Expr)
    (hm : Steady m) : Steady (do
      let b := combine (← boundsOf x) (← boundsOf y)
      trackConfined (← m) b) :=
  inStep_bind (inStep_boundsOf x) fun _ => inStep_bind (inStep_boundsOf y) fun _ =>
    inStep_bind hm fun _ => inStep_trackConfined _ _

theorem inStep_add (x y : Expr) : Steady (add x y : CpSatM α Expr) :=
  inStep_tracked Bounds.add x y (LowerM.inStep_add _ _)

theorem inStep_subtract (x y : Expr) : Steady (subtract x y : CpSatM α Expr) :=
  inStep_tracked Bounds.sub x y (LowerM.inStep_sub _ _)

theorem inStep_multiply (x y : Expr) : Steady (multiply x y : CpSatM α Expr) := by
  refine inStep_bind (inStep_boundsOf x) fun _ => inStep_bind (inStep_boundsOf y) fun _ => ?_
  refine inStep_ite (inStep_bind (inStep_mul _ _) fun _ => inStep_trackConfined _ _) ?_
  refine inStep_bind (inStep_newInteger _ _) fun _ => inStep_bind (inStep_asVariable _) fun _ => ?_
  refine inStep_bind (inStep_asVariable _) fun _ => ?_
  exact inStep_bind (inStep_require _) fun _ => inStep_pure _

theorem inStep_divide (x y : Expr) : Steady (divide x y : CpSatM α Expr) := by
  unfold divide
  split
  · exact inStep_fail _
  · exact inStep_ite (inStep_pure _) (inStep_fail _)
  · exact inStep_fail _

theorem inStep_repeatedProduct (base : Expr) (n : Nat) :
    Steady (repeatedProduct base n : CpSatM α Expr) := by
  induction n with
  | zero => exact inStep_pure _
  | succ n ih => exact inStep_bind ih fun _ => inStep_multiply _ _

theorem inStep_power (x y : Expr) : Steady (power x y : CpSatM α Expr) := by
  unfold power
  split
  · exact inStep_pure _
  · exact inStep_repeatedProduct _ _
  · exact inStep_fail _

/-- A new variable that a constraint ties to a term. -/
theorem inStep_defined (b : Bounds) (hint : String) (c : Expr → Constraint) :
    Steady (do
      let result ← newInteger b hint
      require (c result)
      return result : CpSatM α Expr) :=
  inStep_bind (inStep_newInteger _ _) fun _ => inStep_bind (inStep_require _) fun _ => inStep_pure _

theorem inStep_absolute (h : Expr) : Steady (absolute h : CpSatM α Expr) := by
  unfold absolute
  split
  · exact inStep_pure _
  · exact inStep_bind (inStep_boundsOf h) fun _ => inStep_defined _ _ _

theorem inStep_minimum (hs : List Expr) : Steady (minimum hs : CpSatM α Expr) := by
  unfold minimum
  split
  · exact inStep_fail _
  · exact inStep_pure _
  · exact inStep_bind (inStep_combinedBounds _ _ _) fun _ => inStep_defined _ _ _

theorem inStep_maximum (hs : List Expr) : Steady (maximum hs : CpSatM α Expr) := by
  unfold maximum
  split
  · exact inStep_fail _
  · exact inStep_pure _
  · exact inStep_bind (inStep_combinedBounds _ _ _) fun _ => inStep_defined _ _ _

/-! ### Logic -/

/-- A literal that is tied to two constraints, one for either value. -/
theorem inStep_tied (literal : Expr) (positive negative : Constraint) :
    Steady (do
      requireIf literal positive
      requireIf (← negation literal) negative
      return literal : CpSatM α Expr) := by
  refine inStep_bind (inStep_requireIf _ _) fun _ => inStep_bind (inStep_negation _) fun _ => ?_
  exact inStep_bind (inStep_requireIf _ _) fun _ => inStep_pure _

theorem inStep_reify (c : Comparison) (x y : Expr) : Steady (reify c x y : CpSatM α Expr) :=
  inStep_bind (inStep_newLiteral _) fun _ => inStep_tied _ _ _

theorem inStep_truth (h : Expr) : Steady (truth h : CpSatM α Expr) := by
  unfold truth
  split
  · exact inStep_pure _
  · exact inStep_pure _
  · refine inStep_lookSolver fun t t' ht => ?_
    rw [literals_congr ht]
    exact inStep_ite (inStep_pure _) (inStep_reify _ _ _)

theorem inStep_complement (h : Expr) : Steady (complement h : CpSatM α Expr) := by
  refine inStep_bind (inStep_truth h) fun _ => ?_
  split
  · exact inStep_pure _
  · exact inStep_bind (inStep_negation _) fun _ => inStep_trackLiteral _

theorem inStep_openLiterals (absorbing : Int) (hs : List Expr) :
    Steady (openLiterals absorbing hs : CpSatM α (Option (List Expr))) := by
  induction hs with
  | nil => exact inStep_pure _
  | cons h hs ih =>
    refine inStep_bind (inStep_truth h) fun _ => ?_
    split
    · exact inStep_ite (inStep_pure _) ih
    · exact inStep_bind ih fun _ => inStep_pure _

/-- A new literal that is tied to several literals and to their negations. -/
theorem inStep_connective (hint : String) (literals : List Expr)
    (positive negative : List Expr → Constraint) :
    Steady (do
      let result ← newLiteral hint
      requireIf result (positive literals)
      let negations ← literals.mapM negation
      requireIf (← negation result) (negative negations)
      return result : CpSatM α Expr) := by
  refine inStep_bind (inStep_newLiteral _) fun _ => inStep_bind (inStep_requireIf _ _) fun _ => ?_
  refine inStep_bind (inStep_mapM fun _ _ => inStep_negation _) fun _ => ?_
  refine inStep_bind (inStep_negation _) fun _ => inStep_bind (inStep_requireIf _ _) fun _ => ?_
  exact inStep_pure _

theorem inStep_conjoin (hs : List Expr) : Steady (conjoin hs : CpSatM α Expr) := by
  refine inStep_bind (inStep_openLiterals 0 hs) fun _ => ?_
  split
  · exact inStep_pure _
  · exact inStep_pure _
  · exact inStep_pure _
  · exact inStep_connective "and" _ .conjunction .disjunction

theorem inStep_disjoin (hs : List Expr) : Steady (disjoin hs : CpSatM α Expr) := by
  refine inStep_bind (inStep_openLiterals 1 hs) fun _ => ?_
  split
  · exact inStep_pure _
  · exact inStep_pure _
  · exact inStep_pure _
  · exact inStep_connective "or" _ .disjunction .conjunction

theorem inStep_membership (value : Expr) (candidates : List (Option Expr)) :
    Steady (membership value candidates : CpSatM α Expr) := by
  unfold membership
  dsimp only
  refine inStep_ite (inStep_pure _) ?_
  refine inStep_bind (inStep_mapM fun _ _ => inStep_reify _ _ _) fun _ => ?_
  refine inStep_ite (inStep_disjoin _) ?_
  refine inStep_bind (inStep_newLiteral _) fun _ => inStep_bind (inStep_requireIf _ _) fun _ => ?_
  refine inStep_bind (inStep_negation _) fun _ => inStep_bind (inStep_requireIf _ _) fun _ => ?_
  exact inStep_disjoin _

/-! ### Selection -/

theorem inStep_conditional (c t e : Expr) : Steady (conditional c t e : CpSatM α Expr) := by
  refine inStep_bind (inStep_truth c) fun _ => ?_
  split
  · exact inStep_pure _
  · refine inStep_bind (inStep_boundsOf t) fun _ => inStep_bind (inStep_boundsOf e) fun _ => ?_
    refine inStep_bind (inStep_newInteger _ _) fun _ => inStep_bind (inStep_requireIf _ _) fun _ => ?_
    refine inStep_bind (inStep_negation _) fun _ => inStep_bind (inStep_requireIf _ _) fun _ => ?_
    exact inStep_pure _

theorem inStep_firstMatch (cs vs : List Expr) (h : Expr) :
    Steady (Backend.nestedConditionals conditional cs vs h : CpSatM α Expr) :=
  inStep_foldlM (fun _ _ _ => inStep_conditional _ _ _) h

theorem inStep_lookup (index : Expr) (entries : List (Int × Expr)) :
    Steady (lookup index entries : CpSatM α Expr) := by
  unfold lookup
  split
  · exact inStep_fail _
  · refine inStep_bind (inStep_require _) fun _ => ?_
    refine inStep_bind (inStep_mapM fun _ _ => inStep_asVariable _) fun values => ?_
    refine inStep_bind (inStep_newInteger _ _) fun _ => inStep_bind (inStep_sub _ _) fun _ => ?_
    refine inStep_bind (inStep_require _) fun _ => ?_
    dsimp only
    split
    · exact inStep_bind (inStep_pure _) fun _ => inStep_defined _ _ _
    · exact inStep_bind (inStep_combinedBounds _ _ _) fun _ => inStep_defined _ _ _

/-! ### Posting -/

theorem inStep_postTrue (h : Expr) : Steady (postTrue h : CpSatM α Unit) := by
  refine inStep_lookSolver fun t t' ht => ?_
  rw [literals_congr ht]
  exact inStep_ite (inStep_require _) (inStep_require _)

theorem inStep_postObjective (sense : Sense) (h : Expr) :
    Steady (postObjective sense h : CpSatM α Unit) :=
  inStep_bind (inStep_call rfl) fun _ => inStep_modifySolver_of_comm fun _ => rfl

theorem steady [Scalar α] : (backend : Backend α Int Solver).Steady Solver.visible where
  constant := inStep_constant
  constant? := inStep_constant?
  negate := inStep_negate
  add := inStep_add
  subtract := inStep_subtract
  multiply := inStep_multiply
  divide := inStep_divide
  power := inStep_power
  absolute := inStep_absolute
  minimum := inStep_minimum
  maximum := inStep_maximum
  reify := inStep_reify
  complement := inStep_complement
  conjoin := inStep_conjoin
  disjoin := inStep_disjoin
  conditional := inStep_conditional
  firstMatch := inStep_firstMatch
  membership := inStep_membership
  lookup := inStep_lookup
  keyedMembership? _ _ _ _ _ := .none
  createVariable := inStep_createVariable
  createSequence _ := inStep_createSequence
  newInteger _ _ := inStep_newInteger _
  postEqual _ _ := inStep_require _
  postComparison _ _ _ := inStep_require _
  postTrue := inStep_postTrue
  postDefinition _ _ _ := inStep_require _
  postObjective := inStep_postObjective

end DecisionModel.CpSat
