import DecisionModel.Proofs.Lowering.Needs
import DecisionModel.Solver.CpSat.Encoding

/-!
# CP-SAT: what the encodings look up

No encoding asks for the handle of a variable or of a node that was lowered before (`inScope`).
-/

namespace DecisionModel.CpSat

open LowerM

variable {α β : Type} [Scalar α] {c : Context α} {S : Scope α}

theorem plain_call (k : Call) : Plain c S (call k : CpSatM α Unit) := .modifySolver _

theorem plain_require (k : Constraint) : Plain c S (require k : CpSatM α Unit) := plain_call _

theorem plain_requireIf (literal : Expr) (k : Constraint) :
    Plain c S (requireIf literal k : CpSatM α Unit) := plain_call _

theorem plain_track (h : Expr) (b : Bounds) : Plain c S (track h b : CpSatM α Expr) := by
  unfold track
  split
  · exact plain_bind (.modifySolver _) fun _ => .pure _
  · exact .pure _

theorem plain_confine (b : Bounds) : Plain c S (confine b : CpSatM α Bounds) :=
  scoped_ite (plain_bind (.modifySolver _) fun _ => .pure _) (.pure _)

theorem plain_trackConfined (h : Expr) (b : Bounds) :
    Plain c S (trackConfined h b : CpSatM α Expr) :=
  scoped_ite (.pure _) (plain_bind (plain_confine b) fun _ => plain_track _ _)

theorem plain_boundsOf (h : Expr) : Plain c S (boundsOf h : CpSatM α Bounds) :=
  plain_bind .getSolver fun _ => .pure _

theorem plain_combinedBounds (f : Bounds → Bounds → Bounds) (h : Expr) (hs : List Expr) :
    Plain c S (combinedBounds f h hs : CpSatM α Bounds) :=
  plain_bind .getSolver fun _ => .pure _

theorem plain_newInteger (b : Bounds) (hint : String) :
    Plain c S (newInteger b hint : CpSatM α Expr) := by
  refine plain_bind (plain_confine b) fun b => plain_bind (.auxiliaryName _) fun _ => ?_
  exact plain_bind (plain_leaf _ _) fun _ => plain_bind (.modifySolver _) fun _ => plain_track _ _

theorem plain_trackLiteral (h : Expr) : Plain c S (trackLiteral h : CpSatM α Expr) :=
  plain_bind (.modifySolver _) fun _ => plain_track _ _

theorem plain_newLiteral (hint : String) : Plain c S (newLiteral hint : CpSatM α Expr) := by
  refine plain_bind (.auxiliaryName _) fun _ => plain_bind (plain_leaf _ _) fun _ => ?_
  exact plain_bind (.modifySolver _) fun _ => plain_trackLiteral _

theorem plain_negation (literal : Expr) : Plain c S (negation literal : CpSatM α Expr) := by
  unfold negation
  split
  · exact .pure _
  · exact .pure _
  · refine plain_bind .getSolver fun t => ?_
    split
    · exact .pure _
    · refine plain_bind (plain_node _ _) fun _ => ?_
      exact plain_bind (.modifySolver _) fun _ => .pure _

theorem plain_asVariable (h : Expr) : Plain c S (asVariable h : CpSatM α Expr) := by
  refine scoped_ite (.pure _) ?_
  refine plain_bind (plain_boundsOf h) fun _ => plain_bind (plain_newInteger _ _) fun _ => ?_
  exact plain_bind (plain_require _) fun _ => .pure _

/-! ### Constants and variables -/

theorem plain_constant? (x : α) : Plain c S (constant? x) := by
  unfold constant?
  split
  · exact scoped_ite (.pure _) (.pure _)
  · exact .pure _

theorem plain_constant (x : α) : Plain c S (constant x) := by
  refine plain_bind (plain_constant? x) fun _ => ?_
  split
  · exact .pure _
  · exact scoped_fail trivial

/-! ### Arithmetic -/

theorem plain_negate (h : Expr) : Plain c S (negate h : CpSatM α Expr) :=
  plain_bind (plain_boundsOf h) fun _ => plain_bind (plain_neg _) fun _ => plain_track _ _

/-- An operation that notes the combined bounds of its operands. -/
theorem plain_tracked (combine : Bounds → Bounds → Bounds) {m : CpSatM α Expr} (x y : Expr)
    (hm : Plain c S m) : Plain c S (do
      let b := combine (← boundsOf x) (← boundsOf y)
      trackConfined (← m) b) :=
  plain_bind (plain_boundsOf x) fun _ => plain_bind (plain_boundsOf y) fun _ =>
    plain_bind hm fun _ => plain_trackConfined _ _

theorem plain_add (x y : Expr) : Plain c S (add x y : CpSatM α Expr) :=
  plain_tracked Bounds.add x y (LowerM.plain_add _ _)

theorem plain_subtract (x y : Expr) : Plain c S (subtract x y : CpSatM α Expr) :=
  plain_tracked Bounds.sub x y (LowerM.plain_sub _ _)

theorem plain_multiply (x y : Expr) : Plain c S (multiply x y : CpSatM α Expr) := by
  refine plain_bind (plain_boundsOf x) fun _ => plain_bind (plain_boundsOf y) fun _ => ?_
  refine scoped_ite (plain_bind (plain_mul _ _) fun _ => plain_trackConfined _ _) ?_
  refine plain_bind (plain_newInteger _ _) fun _ => plain_bind (plain_asVariable _) fun _ => ?_
  refine plain_bind (plain_asVariable _) fun _ => ?_
  exact plain_bind (plain_require _) fun _ => .pure _

theorem plain_divide (x y : Expr) : Plain c S (divide x y : CpSatM α Expr) := by
  unfold divide
  split
  · exact scoped_fail trivial
  · exact scoped_ite (.pure _) (scoped_fail trivial)
  · exact scoped_fail trivial

theorem plain_repeatedProduct (base : Expr) (n : Nat) :
    Plain c S (repeatedProduct base n : CpSatM α Expr) := by
  induction n with
  | zero => exact .pure _
  | succ n ih => exact plain_bind ih fun _ => plain_multiply _ _

theorem plain_power (x y : Expr) : Plain c S (power x y : CpSatM α Expr) := by
  unfold power
  split
  · exact .pure _
  · exact plain_repeatedProduct _ _
  · exact scoped_fail trivial

/-- A new variable that a constraint ties to a term. -/
theorem plain_defined (b : Bounds) (hint : String) (k : Expr → Constraint) :
    Plain c S (do
      let result ← newInteger b hint
      require (k result)
      return result : CpSatM α Expr) :=
  plain_bind (plain_newInteger _ _) fun _ => plain_bind (plain_require _) fun _ => .pure _

theorem plain_absolute (h : Expr) : Plain c S (absolute h : CpSatM α Expr) := by
  unfold absolute
  split
  · exact .pure _
  · exact plain_bind (plain_boundsOf h) fun _ => plain_defined _ _ _

theorem plain_minimum (hs : List Expr) : Plain c S (minimum hs : CpSatM α Expr) := by
  unfold minimum
  split
  · exact scoped_fail trivial
  · exact .pure _
  · exact plain_bind (plain_combinedBounds _ _ _) fun _ => plain_defined _ _ _

theorem plain_maximum (hs : List Expr) : Plain c S (maximum hs : CpSatM α Expr) := by
  unfold maximum
  split
  · exact scoped_fail trivial
  · exact .pure _
  · exact plain_bind (plain_combinedBounds _ _ _) fun _ => plain_defined _ _ _

/-! ### Logic -/

/-- A literal that is tied to two constraints, one for either value. -/
theorem plain_tied (literal : Expr) (positive negative : Constraint) :
    Plain c S (do
      requireIf literal positive
      requireIf (← negation literal) negative
      return literal : CpSatM α Expr) := by
  refine plain_bind (plain_requireIf _ _) fun _ => plain_bind (plain_negation _) fun _ => ?_
  exact plain_bind (plain_requireIf _ _) fun _ => .pure _

theorem plain_reify (r : Comparison) (x y : Expr) : Plain c S (reify r x y : CpSatM α Expr) :=
  plain_bind (plain_newLiteral _) fun _ => plain_tied _ _ _

theorem plain_truth (h : Expr) : Plain c S (truth h : CpSatM α Expr) := by
  unfold truth
  split
  · exact .pure _
  · exact .pure _
  · refine plain_bind .getSolver fun t => ?_
    exact scoped_ite (.pure _) (plain_reify _ _ _)

theorem plain_complement (h : Expr) : Plain c S (complement h : CpSatM α Expr) := by
  refine plain_bind (plain_truth h) fun _ => ?_
  split
  · exact .pure _
  · exact plain_bind (plain_negation _) fun _ => plain_trackLiteral _

theorem plain_openLiterals (absorbing : Int) (hs : List Expr) :
    Plain c S (openLiterals absorbing hs : CpSatM α (Option (List Expr))) := by
  induction hs with
  | nil => exact .pure _
  | cons h hs ih =>
    refine plain_bind (plain_truth h) fun _ => ?_
    split
    · exact scoped_ite (.pure _) ih
    · exact plain_bind ih fun _ => .pure _

/-- A new literal that is tied to several literals and to their negations. -/
theorem plain_connective (hint : String) (literals : List Expr)
    (positive negative : List Expr → Constraint) :
    Plain c S (do
      let result ← newLiteral hint
      requireIf result (positive literals)
      let negations ← literals.mapM negation
      requireIf (← negation result) (negative negations)
      return result : CpSatM α Expr) := by
  refine plain_bind (plain_newLiteral _) fun _ => plain_bind (plain_requireIf _ _) fun _ => ?_
  refine plain_bind (plain_mapM fun _ _ => plain_negation _) fun _ => ?_
  refine plain_bind (plain_negation _) fun _ => plain_bind (plain_requireIf _ _) fun _ => ?_
  exact .pure _

theorem plain_conjoin (hs : List Expr) : Plain c S (conjoin hs : CpSatM α Expr) := by
  refine plain_bind (plain_openLiterals 0 hs) fun _ => ?_
  split
  · exact .pure _
  · exact .pure _
  · exact .pure _
  · exact plain_connective "and" _ .conjunction .disjunction

theorem plain_disjoin (hs : List Expr) : Plain c S (disjoin hs : CpSatM α Expr) := by
  refine plain_bind (plain_openLiterals 1 hs) fun _ => ?_
  split
  · exact .pure _
  · exact .pure _
  · exact .pure _
  · exact plain_connective "or" _ .disjunction .conjunction

theorem plain_membership (value : Expr) (candidates : List (Option Expr)) :
    Plain c S (membership value candidates : CpSatM α Expr) := by
  unfold membership
  dsimp only
  refine scoped_ite (.pure _) ?_
  refine plain_bind (plain_mapM fun _ _ => plain_reify _ _ _) fun _ => ?_
  refine scoped_ite (plain_disjoin _) ?_
  refine plain_bind (plain_newLiteral _) fun _ => plain_bind (plain_requireIf _ _) fun _ => ?_
  refine plain_bind (plain_negation _) fun _ => plain_bind (plain_requireIf _ _) fun _ => ?_
  exact plain_disjoin _

/-! ### Selection -/

theorem plain_conditional (x t e : Expr) : Plain c S (conditional x t e : CpSatM α Expr) := by
  refine plain_bind (plain_truth x) fun _ => ?_
  split
  · exact .pure _
  · refine plain_bind (plain_boundsOf t) fun _ => plain_bind (plain_boundsOf e) fun _ => ?_
    refine plain_bind (plain_newInteger _ _) fun _ => plain_bind (plain_requireIf _ _) fun _ => ?_
    refine plain_bind (plain_negation _) fun _ => plain_bind (plain_requireIf _ _) fun _ => ?_
    exact .pure _

theorem plain_firstMatch (cs vs : List Expr) (h : Expr) :
    Plain c S (Backend.nestedConditionals conditional cs vs h : CpSatM α Expr) :=
  plain_foldlM (fun _ _ _ => plain_conditional _ _ _) h

theorem plain_lookup (index : Expr) (entries : List (Int × Expr)) :
    Plain c S (lookup index entries : CpSatM α Expr) := by
  unfold lookup
  split
  · exact scoped_fail trivial
  · refine plain_bind (plain_require _) fun _ => ?_
    refine plain_bind (plain_mapM fun _ _ => plain_asVariable _) fun values => ?_
    refine plain_bind (plain_newInteger _ _) fun _ => plain_bind (plain_sub _ _) fun _ => ?_
    refine plain_bind (plain_require _) fun _ => ?_
    dsimp only
    split
    · exact plain_bind (.pure _) fun _ => plain_defined _ _ _
    · exact plain_bind (plain_combinedBounds _ _ _) fun _ => plain_defined _ _ _

/-! ### Posting -/

theorem plain_postTrue (h : Expr) : Plain c S (postTrue h : CpSatM α Unit) := by
  refine plain_bind .getSolver fun t => ?_
  exact scoped_ite (plain_require _) (plain_require _)

theorem inScope : (backend : Backend α Int Solver).InScope c S where
  constant := plain_constant
  constant? := plain_constant?
  negate := plain_negate
  add := plain_add
  subtract := plain_subtract
  multiply := plain_multiply
  divide := plain_divide
  power := plain_power
  absolute := plain_absolute
  minimum := plain_minimum
  maximum := plain_maximum
  reify := plain_reify
  complement := plain_complement
  conjoin := plain_conjoin
  disjoin := plain_disjoin
  conditional := plain_conditional
  firstMatch := plain_firstMatch
  membership := plain_membership
  lookup := plain_lookup
  keyedMembership? h := by cases h
  newInteger _ _ := plain_newInteger _
  postEqual _ _ := plain_require _
  postComparison _ _ _ := plain_require _
  postTrue := plain_postTrue

end DecisionModel.CpSat
