import DecisionModel.Proofs.Lowering.Memo
import DecisionModel.Solver.CpSat.Encoding

/-!
# CP-SAT: nodes keep their handles

None of the encodings touches the memo, whether it gets to its end or fails halfway, so a walk that
lowers for CP-SAT overwrites and drops no entry (`preserves`, `creates`).
-/

namespace DecisionModel.CpSat

open LowerM

variable {α : Type}

theorem keeps_solver (f : Solver → Solver) :
    Keeps Remembers (modifySolver f : CpSatM α Unit) := keeps_modifySolver fun _ _ _ h => h

theorem keeps_call (c : Call) : Keeps Remembers (call c : CpSatM α Unit) := keeps_solver _

theorem keeps_require (c : Constraint) : Keeps Remembers (require c : CpSatM α Unit) := keeps_call _

theorem keeps_requireIf (literal : Expr) (c : Constraint) :
    Keeps Remembers (requireIf literal c : CpSatM α Unit) := keeps_call _

theorem keeps_track (h : Expr) (b : Bounds) : Keeps Remembers (track h b : CpSatM α Expr) := by
  unfold track
  split
  · exact keeps_bind (keeps_solver _) fun _ => keeps_pure _
  · exact keeps_pure _

theorem keeps_confine (b : Bounds) : Keeps Remembers (confine b : CpSatM α Bounds) :=
  keeps_when (keeps_solver _) (keeps_pure _)

theorem keeps_trackConfined (h : Expr) (b : Bounds) :
    Keeps Remembers (trackConfined h b : CpSatM α Expr) :=
  keeps_ite (keeps_pure _) (keeps_bind (keeps_confine b) fun _ => keeps_track _ _)

theorem keeps_boundsOf (h : Expr) : Keeps Remembers (boundsOf h : CpSatM α Bounds) :=
  keeps_bind keeps_getSolver fun _ => keeps_pure _

theorem keeps_combinedBounds (f : Bounds → Bounds → Bounds) (h : Expr) (hs : List Expr) :
    Keeps Remembers (combinedBounds f h hs : CpSatM α Bounds) :=
  keeps_bind keeps_getSolver fun _ => keeps_pure _

theorem keeps_newInteger (b : Bounds) (hint : String) :
    Keeps Remembers (newInteger b hint : CpSatM α Expr) := by
  refine keeps_bind (keeps_confine b) fun b => keeps_bind (keeps_auxiliaryName _) fun _ => ?_
  exact keeps_bind (keeps_leaf _ _) fun _ => keeps_bind (keeps_call _) fun _ => keeps_track _ _

theorem keeps_trackLiteral (h : Expr) : Keeps Remembers (trackLiteral h : CpSatM α Expr) :=
  keeps_bind (keeps_solver _) fun _ => keeps_track _ _

theorem keeps_newLiteral (hint : String) : Keeps Remembers (newLiteral hint : CpSatM α Expr) := by
  refine keeps_bind (keeps_auxiliaryName _) fun _ => keeps_bind (keeps_leaf _ _) fun _ => ?_
  exact keeps_bind (keeps_call _) fun _ => keeps_trackLiteral _

theorem keeps_negation (literal : Expr) : Keeps Remembers (negation literal : CpSatM α Expr) := by
  unfold negation
  split
  · exact keeps_pure _
  · exact keeps_pure _
  · refine keeps_bind keeps_getSolver fun _ => ?_
    split
    · exact keeps_pure _
    · exact keeps_bind (keeps_node _ _) fun _ => keeps_bind (keeps_solver _) fun _ => keeps_pure _

theorem keeps_asVariable (h : Expr) : Keeps Remembers (asVariable h : CpSatM α Expr) := by
  refine keeps_ite (keeps_pure _) ?_
  refine keeps_bind (keeps_boundsOf h) fun _ => keeps_bind (keeps_newInteger _ _) fun _ => ?_
  exact keeps_bind (keeps_require _) fun _ => keeps_pure _

/-! ### Constants and variables -/

theorem keeps_createSequence (members : List String) :
    Keeps Remembers (createSequence members : CpSatM α (List Expr)) := by
  refine keeps_bind (keeps_mapM fun _ _ => ?_) fun _ => keeps_bind (keeps_require _) fun _ => ?_
  · exact keeps_bind (keeps_leaf _ _) fun _ => keeps_bind (keeps_call _) fun _ => keeps_pure _
  · exact keeps_mapM fun _ _ => keeps_bind (keeps_add _ _) fun _ => keeps_track _ _

variable [Scalar α]

theorem keeps_constant? (x : α) : Keeps Remembers (constant? x) := by
  unfold constant?
  split
  · exact keeps_ite (keeps_pure _) (keeps_pure _)
  · exact keeps_pure _

theorem keeps_constant (x : α) : Keeps Remembers (constant x) := by
  refine keeps_bind (keeps_constant? x) fun _ => ?_
  split
  · exact keeps_pure _
  · exact keeps_fail _

theorem keeps_createBoolean (v : Variable α) : Keeps Remembers (createBoolean v) := by
  refine keeps_bind (keeps_leaf _ _) fun _ => keeps_bind (keeps_call _) fun _ => ?_
  refine keeps_bind (keeps_solver _) fun _ => keeps_bind (keeps_lift _) fun _ => ?_
  exact keeps_bind (keeps_lift _) fun _ => keeps_when (keeps_require _) (keeps_track _ _)

theorem keeps_createVariable (v : Variable α) : Keeps Remembers (createVariable v) := by
  unfold createVariable
  split
  · exact keeps_fail _
  · exact keeps_createBoolean v
  · refine keeps_bind (keeps_lift _) fun _ => keeps_when (keeps_fail _) ?_
    exact keeps_bind (keeps_leaf _ _) fun _ => keeps_bind (keeps_call _) fun _ => keeps_track _ _

omit [Scalar α]

/-! ### Arithmetic -/

theorem keeps_negate (h : Expr) : Keeps Remembers (negate h : CpSatM α Expr) :=
  keeps_bind (keeps_boundsOf h) fun _ => keeps_bind (keeps_neg _) fun _ => keeps_track _ _

/-- An operation that notes the combined bounds of its operands. -/
theorem keeps_tracked (combine : Bounds → Bounds → Bounds) {m : CpSatM α Expr} (x y : Expr)
    (hm : Keeps Remembers m) : Keeps Remembers (do
      let b := combine (← boundsOf x) (← boundsOf y)
      trackConfined (← m) b) :=
  keeps_bind (keeps_boundsOf x) fun _ => keeps_bind (keeps_boundsOf y) fun _ =>
    keeps_bind hm fun _ => keeps_trackConfined _ _

theorem keeps_add (x y : Expr) : Keeps Remembers (add x y : CpSatM α Expr) :=
  keeps_tracked Bounds.add x y (LowerM.keeps_add _ _)

theorem keeps_subtract (x y : Expr) : Keeps Remembers (subtract x y : CpSatM α Expr) :=
  keeps_tracked Bounds.sub x y (LowerM.keeps_sub _ _)

theorem keeps_multiply (x y : Expr) : Keeps Remembers (multiply x y : CpSatM α Expr) := by
  refine keeps_bind (keeps_boundsOf x) fun _ => keeps_bind (keeps_boundsOf y) fun _ => ?_
  refine keeps_ite (keeps_bind (keeps_mul _ _) fun _ => keeps_trackConfined _ _) ?_
  refine keeps_bind (keeps_newInteger _ _) fun _ => keeps_bind (keeps_asVariable _) fun _ => ?_
  refine keeps_bind (keeps_asVariable _) fun _ => ?_
  exact keeps_bind (keeps_require _) fun _ => keeps_pure _

theorem keeps_divide (x y : Expr) : Keeps Remembers (divide x y : CpSatM α Expr) := by
  unfold divide
  split
  · exact keeps_fail _
  · exact keeps_ite (keeps_pure _) (keeps_fail _)
  · exact keeps_fail _

theorem keeps_repeatedProduct (base : Expr) (n : Nat) :
    Keeps Remembers (repeatedProduct base n : CpSatM α Expr) := by
  induction n with
  | zero => exact keeps_pure _
  | succ n ih => exact keeps_bind ih fun _ => keeps_multiply _ _

theorem keeps_power (x y : Expr) : Keeps Remembers (power x y : CpSatM α Expr) := by
  unfold power
  split
  · exact keeps_pure _
  · exact keeps_repeatedProduct _ _
  · exact keeps_fail _

/-- A new variable that a constraint ties to a term. -/
theorem keeps_defined (b : Bounds) (hint : String) (c : Expr → Constraint) :
    Keeps Remembers (do
      let result ← newInteger b hint
      require (c result)
      return result : CpSatM α Expr) :=
  keeps_bind (keeps_newInteger _ _) fun _ => keeps_bind (keeps_require _) fun _ => keeps_pure _

theorem keeps_absolute (h : Expr) : Keeps Remembers (absolute h : CpSatM α Expr) := by
  unfold absolute
  split
  · exact keeps_pure _
  · exact keeps_bind (keeps_boundsOf h) fun _ => keeps_defined _ _ _

theorem keeps_minimum (hs : List Expr) : Keeps Remembers (minimum hs : CpSatM α Expr) := by
  unfold minimum
  split
  · exact keeps_fail _
  · exact keeps_pure _
  · exact keeps_bind (keeps_combinedBounds _ _ _) fun _ => keeps_defined _ _ _

theorem keeps_maximum (hs : List Expr) : Keeps Remembers (maximum hs : CpSatM α Expr) := by
  unfold maximum
  split
  · exact keeps_fail _
  · exact keeps_pure _
  · exact keeps_bind (keeps_combinedBounds _ _ _) fun _ => keeps_defined _ _ _

/-! ### Logic -/

/-- A literal that is tied to two constraints, one for either value. -/
theorem keeps_tied (literal : Expr) (positive negative : Constraint) :
    Keeps Remembers (do
      requireIf literal positive
      requireIf (← negation literal) negative
      return literal : CpSatM α Expr) := by
  refine keeps_bind (keeps_requireIf _ _) fun _ => keeps_bind (keeps_negation _) fun _ => ?_
  exact keeps_bind (keeps_requireIf _ _) fun _ => keeps_pure _

theorem keeps_reify (c : Comparison) (x y : Expr) : Keeps Remembers (reify c x y : CpSatM α Expr) :=
  keeps_bind (keeps_newLiteral _) fun _ => keeps_tied _ _ _

theorem keeps_truth (h : Expr) : Keeps Remembers (truth h : CpSatM α Expr) := by
  unfold truth
  split
  · exact keeps_pure _
  · exact keeps_pure _
  · exact keeps_bind keeps_getSolver fun _ => keeps_ite (keeps_pure _) (keeps_reify _ _ _)

theorem keeps_complement (h : Expr) : Keeps Remembers (complement h : CpSatM α Expr) := by
  refine keeps_bind (keeps_truth h) fun _ => ?_
  split
  · exact keeps_pure _
  · exact keeps_bind (keeps_negation _) fun _ => keeps_trackLiteral _

theorem keeps_openLiterals (absorbing : Int) (hs : List Expr) :
    Keeps Remembers (openLiterals absorbing hs : CpSatM α (Option (List Expr))) := by
  induction hs with
  | nil => exact keeps_pure _
  | cons h hs ih =>
    refine keeps_bind (keeps_truth h) fun _ => ?_
    split
    · exact keeps_ite (keeps_pure _) ih
    · exact keeps_bind ih fun _ => keeps_pure _

/-- A new literal that is tied to several literals and to their negations. -/
theorem keeps_connective (hint : String) (literals : List Expr)
    (positive negative : List Expr → Constraint) :
    Keeps Remembers (do
      let result ← newLiteral hint
      requireIf result (positive literals)
      let negations ← literals.mapM negation
      requireIf (← negation result) (negative negations)
      return result : CpSatM α Expr) := by
  refine keeps_bind (keeps_newLiteral _) fun _ => keeps_bind (keeps_requireIf _ _) fun _ => ?_
  refine keeps_bind (keeps_mapM fun _ _ => keeps_negation _) fun _ => ?_
  exact keeps_bind (keeps_negation _) fun _ => keeps_bind (keeps_requireIf _ _) fun _ => keeps_pure _

theorem keeps_conjoin (hs : List Expr) : Keeps Remembers (conjoin hs : CpSatM α Expr) := by
  refine keeps_bind (keeps_openLiterals 0 hs) fun _ => ?_
  split
  · exact keeps_pure _
  · exact keeps_pure _
  · exact keeps_pure _
  · exact keeps_connective "and" _ .conjunction .disjunction

theorem keeps_disjoin (hs : List Expr) : Keeps Remembers (disjoin hs : CpSatM α Expr) := by
  refine keeps_bind (keeps_openLiterals 1 hs) fun _ => ?_
  split
  · exact keeps_pure _
  · exact keeps_pure _
  · exact keeps_pure _
  · exact keeps_connective "or" _ .disjunction .conjunction

theorem keeps_membership (value : Expr) (candidates : List (Option Expr)) :
    Keeps Remembers (membership value candidates : CpSatM α Expr) := by
  unfold membership
  dsimp only
  refine keeps_ite (keeps_pure _) ?_
  refine keeps_bind (keeps_mapM fun _ _ => keeps_reify _ _ _) fun _ => ?_
  refine keeps_ite (keeps_disjoin _) ?_
  refine keeps_bind (keeps_newLiteral _) fun _ => keeps_bind (keeps_requireIf _ _) fun _ => ?_
  refine keeps_bind (keeps_negation _) fun _ => keeps_bind (keeps_requireIf _ _) fun _ => ?_
  exact keeps_disjoin _

/-! ### Selection -/

theorem keeps_conditional (c t e : Expr) : Keeps Remembers (conditional c t e : CpSatM α Expr) := by
  refine keeps_bind (keeps_truth c) fun _ => ?_
  split
  · exact keeps_pure _
  · refine keeps_bind (keeps_boundsOf t) fun _ => keeps_bind (keeps_boundsOf e) fun _ => ?_
    refine keeps_bind (keeps_newInteger _ _) fun _ => keeps_bind (keeps_requireIf _ _) fun _ => ?_
    refine keeps_bind (keeps_negation _) fun _ => keeps_bind (keeps_requireIf _ _) fun _ => ?_
    exact keeps_pure _

theorem keeps_firstMatch (cs vs : List Expr) (h : Expr) :
    Keeps Remembers (Backend.nestedConditionals conditional cs vs h : CpSatM α Expr) :=
  keeps_foldlM (fun _ _ _ => keeps_conditional _ _ _) h

theorem keeps_lookup (index : Expr) (entries : List (Int × Expr)) :
    Keeps Remembers (lookup index entries : CpSatM α Expr) := by
  unfold lookup
  split
  · exact keeps_fail _
  · refine keeps_bind (keeps_require _) fun _ => ?_
    refine keeps_bind (keeps_mapM fun _ _ => keeps_asVariable _) fun values => ?_
    refine keeps_bind (keeps_newInteger _ _) fun _ => keeps_bind (keeps_sub _ _) fun _ => ?_
    refine keeps_bind (keeps_require _) fun _ => ?_
    dsimp only
    split
    · exact keeps_bind (keeps_pure _) fun _ => keeps_defined _ _ _
    · exact keeps_bind (keeps_combinedBounds _ _ _) fun _ => keeps_defined _ _ _

/-! ### Posting -/

theorem keeps_postTrue (h : Expr) : Keeps Remembers (postTrue h : CpSatM α Unit) :=
  keeps_bind keeps_getSolver fun _ => keeps_ite (keeps_require _) (keeps_require _)

theorem keeps_postObjective (sense : Sense) (h : Expr) :
    Keeps Remembers (postObjective sense h : CpSatM α Unit) :=
  keeps_bind (keeps_call _) fun _ => keeps_solver _

theorem preserves [Scalar α] : (backend : Backend α Int Solver).Preserves Remembers where
  constant := keeps_constant
  constant? := keeps_constant?
  negate := keeps_negate
  add := keeps_add
  subtract := keeps_subtract
  multiply := keeps_multiply
  divide := keeps_divide
  power := keeps_power
  absolute := keeps_absolute
  minimum := keeps_minimum
  maximum := keeps_maximum
  reify := keeps_reify
  complement := keeps_complement
  conjoin := keeps_conjoin
  disjoin := keeps_disjoin
  conditional := keeps_conditional
  firstMatch := keeps_firstMatch
  membership := keeps_membership
  lookup := keeps_lookup
  keyedMembership? he := by cases he
  newInteger _ _ := keeps_newInteger _
  postEqual _ _ := keeps_require _
  postComparison _ _ _ := keeps_require _
  postTrue := keeps_postTrue
  postDefinition _ _ _ := keeps_require _

theorem creates [Scalar α] : (backend : Backend α Int Solver).Creates Remembers where
  toPreserves := preserves
  createVariable := keeps_createVariable
  createSequence _ := keeps_createSequence
  postObjective := keeps_postObjective

end DecisionModel.CpSat
