import DecisionModel.Proofs.Lowering.Needs
import DecisionModel.Tolerant.Encoding

/-!
# Tolerant lowering: what the encodings look up

The encodings for algebraic solvers ask for the handle of a variable only where they tabulate the
membership of one, and for no node that was lowered before, if the primitives of the solver ask for
nothing (`Primitives.InScope`, `inScope`).
-/

namespace DecisionModel.Tolerant

open LowerM

variable {α σ β : Type} [Scalar α] {c : Context α} {S : Scope α}

/-- The primitives ask for nothing. -/
structure Primitives.InScope (P : Primitives α σ) (c : Context α) (S : Scope α) : Prop where
  addRange (h : Handle (Number α)) (lower upper : Number α) (name : String) :
    Plain c S (P.addRange h lower upper name)
  newVariable (kind : Kind) (lower upper : α) (name : String) :
    Plain c S (P.newVariable kind lower upper name)
  absolute (h : Handle (Number α)) : Plain c S (P.absolute h)
  power (h : Handle (Number α)) (x : α) : Plain c S (P.power h x)
  gate (b h : Handle (Number α)) : Plain c S (P.gate b h)
  quotient (x y : Handle (Number α)) : Plain c S (P.quotient x y)
  total (hs : List (Handle (Number α))) : Plain c S (P.total hs)

/-! ### Variables and ranges -/

theorem plain_modifyEncoding (f : Encoding α σ → Encoding α σ) :
    Plain c S (modifyEncoding f : TolerantM α σ Unit) := .modifySolver f

theorem plain_modifyOwn (f : σ → σ) : Plain c S (modifyOwn f : TolerantM α σ Unit) :=
  plain_modifyEncoding _

theorem plain_epsilon : Plain c S (epsilon : TolerantM α σ (Number α)) :=
  plain_bind .getSolver fun _ => .pure _

theorem plain_threshold : Plain c S (threshold : TolerantM α σ (Number α)) :=
  plain_bind plain_epsilon fun _ => .pure _

theorem plain_negatedThreshold : Plain c S (negatedThreshold : TolerantM α σ (Number α)) :=
  plain_bind plain_epsilon fun _ => .pure _

theorem plain_chainedSum (hs : List (Handle (Number α))) :
    Plain c S (chainedSum hs : TolerantM α σ (Handle (Number α))) := by
  cases hs with
  | nil => exact .pure _
  | cons h hs => exact plain_foldlM (fun x y _ => plain_add x y) h

theorem plain_markBinary (h : Handle (Number α)) :
    Plain c S (markBinary h : TolerantM α σ (Handle (Number α))) :=
  plain_bind (plain_modifyEncoding _) fun _ => .pure _

variable {P : Primitives α σ}

theorem plain_createVariable (hP : P.InScope c S) (kind : Kind) (lower upper : α) (name : String) :
    Plain c S (createVariable P kind lower upper name) := by
  refine plain_bind (hP.newVariable _ _ _ _) fun h => ?_
  exact plain_bind (plain_modifyEncoding _) fun _ => .pure _

theorem plain_newBinary (hP : P.InScope c S) (hint : String) : Plain c S (newBinary P hint) :=
  plain_bind (.auxiliaryName _) fun _ => plain_createVariable hP _ _ _ _

theorem plain_newInteger (hP : P.InScope c S) (lower upper : Int) (hint : String) :
    Plain c S (newInteger P lower upper hint) :=
  plain_bind (plain_lift _) fun _ => plain_bind (plain_lift _) fun _ =>
    plain_bind (.auxiliaryName _) fun _ => plain_createVariable hP _ _ _ _

theorem plain_constrain (hP : P.InScope c S) (h : Handle (Number α)) (lower upper : Number α) :
    Plain c S (constrain P h lower upper) := by
  unfold constrain
  split
  · exact plain_bind plain_epsilon fun _ => scoped_ite (.recordViolated _) (.pure _)
  · refine plain_bind (.auxiliaryName _) fun _ => ?_
    exact plain_bind (plain_modifyEncoding _) fun _ => hP.addRange _ _ _ _

theorem plain_gated (hP : P.InScope c S) (b h : Handle (Number α)) : Plain c S (gated P b h) := by
  unfold gated
  split
  · exact .pure _
  · exact scoped_ite (.pure _) (plain_mul _ _)
  · exact hP.gate _ _

/-! ### Truth -/

theorem plain_postComparison (hP : P.InScope c S) (r : Comparison) (x y : Handle (Number α)) :
    Plain c S (postComparison P r x y) := by
  refine plain_bind plain_epsilon fun _ => plain_bind (plain_sub _ _) fun _ => ?_
  cases r with
  | le => exact plain_constrain hP _ _ _
  | lt => exact plain_bind plain_negatedThreshold fun _ => plain_constrain hP _ _ _
  | ge => exact plain_constrain hP _ _ _
  | gt => exact plain_bind plain_threshold fun _ => plain_constrain hP _ _ _
  | eq => exact plain_constrain hP _ _ _
  | ne =>
    exact plain_bind (hP.absolute _) fun _ => plain_bind plain_threshold fun _ =>
      plain_constrain hP _ _ _

theorem plain_requireGated (hP : P.InScope c S) (b h : Handle (Number α)) :
    Plain c S (requireGated P b h) :=
  plain_bind (plain_gated hP _ _) fun _ => plain_constrain hP _ _ _

theorem plain_reify (hP : P.InScope c S) (r : Comparison) (x y : Handle (Number α)) :
    Plain c S (reify P r x y) := by
  have hg {m rest : TolerantM α σ (Handle (Number α))} (hm : Plain c S m) (hrest : Plain c S rest)
      (b : Handle (Number α)) : Plain c S (m >>= fun h => requireGated P b h >>= fun _ => rest) :=
    plain_bind hm fun _ => plain_bind (plain_requireGated hP _ _) fun _ => hrest
  refine plain_bind plain_epsilon fun _ => plain_bind plain_threshold fun _ => ?_
  refine plain_bind plain_negatedThreshold fun _ => plain_bind (plain_sub _ _) fun _ => ?_
  refine plain_bind (plain_newBinary hP _) fun _ => plain_bind (plain_sub _ _) fun _ => ?_
  cases r with
  | ge => exact hg (plain_add _ _) (hg (plain_sub _ _) (.pure _) _) _
  | le => exact hg (plain_sub _ _) (hg (plain_sub _ _) (.pure _) _) _
  | gt => exact hg (plain_sub _ _) (hg (plain_sub _ _) (.pure _) _) _
  | lt => exact hg (plain_sub _ _) (hg (plain_add _ _) (.pure _) _) _
  | eq =>
    refine hg (plain_sub _ _) (hg (plain_add _ _) ?_ _) _
    exact plain_bind (hP.absolute _) fun _ => hg (plain_sub _ _) (.pure _) _
  | ne =>
    refine plain_bind (hP.absolute _) fun _ => ?_
    exact hg (plain_sub _ _) (hg (plain_sub _ _) (.pure _) _) _

theorem plain_newTruth (hP : P.InScope c S) (h : Handle (Number α)) : Plain c S (newTruth P h) := by
  refine plain_bind plain_epsilon fun _ => plain_bind plain_threshold fun _ => ?_
  refine plain_bind (plain_newBinary hP _) fun _ => plain_bind (hP.absolute _) fun _ => ?_
  refine plain_bind (plain_mul _ _) fun _ => plain_bind (plain_sub _ _) fun _ => ?_
  refine plain_bind (plain_constrain hP _ _ _) fun _ => plain_bind (plain_sub _ _) fun _ => ?_
  refine plain_bind (plain_sub _ _) fun _ => plain_bind (plain_gated hP _ _) fun _ => ?_
  exact plain_bind (plain_constrain hP _ _ _) fun _ => .pure _

/-- The marks and the table of truth values are asked, which are seen. -/
theorem plain_truth (hP : P.InScope c S) (h : Handle (Number α)) : Plain c S (truth P h) := by
  unfold truth
  split
  · exact .pure _
  · exact .pure _
  · refine plain_bind .getSolver fun e => ?_
    refine scoped_ite (.pure _) ?_
    split
    · exact .pure _
    · refine plain_bind (plain_newTruth hP h) fun b => ?_
      exact plain_bind (plain_modifyEncoding _) fun _ => .pure _

theorem plain_complement (hP : P.InScope c S) (h : Handle (Number α)) :
    Plain c S (complement P h) := by
  refine plain_bind (plain_truth hP h) fun b => ?_
  split
  · exact .pure _
  · exact plain_bind (plain_sub _ _) fun _ => plain_markBinary _

theorem plain_conjoinFrom (hP : P.InScope c S) (h : Handle (Number α))
    (hs : List (Handle (Number α))) : Plain c S (conjoinFrom P h hs) := by
  induction hs generalizing h with
  | nil => exact plain_markBinary h
  | cons k ks ih =>
    refine plain_bind (plain_truth hP k) fun b => plain_bind (plain_gated hP h b) fun result => ?_
    exact scoped_ite (.pure _) (ih result)

theorem plain_openTruths (hP : P.InScope c S) (hs : List (Handle (Number α))) :
    Plain c S (openTruths P hs) := by
  induction hs with
  | nil => exact .pure _
  | cons h hs ih =>
    refine plain_bind (plain_truth hP h) fun b => ?_
    split
    · exact scoped_ite ih (.pure _)
    · exact plain_bind ih fun _ => .pure _

theorem plain_disjoin (hP : P.InScope c S) (hs : List (Handle (Number α))) :
    Plain c S (disjoin P hs) := by
  refine plain_bind (plain_openTruths hP hs) fun open? => ?_
  split
  · exact .pure _
  · exact .pure _
  · exact .pure _
  · exact plain_bind (hP.total _) fun _ => plain_truth hP _

theorem plain_membership (hP : P.InScope c S) (h : Handle (Number α))
    (hs : List (Option (Handle (Number α)))) : Plain c S (membership P h hs) := by
  refine plain_bind (plain_mapM fun candidate _ => ?_) fun _ => plain_disjoin hP _
  split
  · exact .pure _
  · exact plain_reify hP _ _ _

/-! ### Selection -/

theorem plain_divide (hP : P.InScope c S) (x y : Handle (Number α)) : Plain c S (divide P x y) := by
  unfold divide
  split
  · exact hP.quotient _ _
  · refine scoped_when (scoped_fail trivial) ?_
    split
    · exact .pure _
    · exact plain_mul _ _

theorem plain_power (hP : P.InScope c S) (x y : Handle (Number α)) : Plain c S (power P x y) := by
  unfold power
  split
  · exact scoped_fail trivial
  · split
    · exact .pure _
    · exact scoped_fail trivial
  · exact scoped_ite (.pure _) (scoped_ite (.pure _) (hP.power _ _))

theorem plain_absolute (hP : P.InScope c S) (h : Handle (Number α)) : Plain c S (absolute P h) := by
  unfold absolute
  split
  · exact .pure _
  · exact hP.absolute _

theorem plain_requireOne (hP : P.InScope c S) (hs : List (Handle (Number α))) :
    Plain c S (requireOne P hs) :=
  plain_bind (hP.total _) fun _ => plain_constrain hP _ _ _

theorem plain_newExtremum (hP : P.InScope c S) (e : Extremum) (hs : List (Handle (Number α))) :
    Plain c S (newExtremum P e hs) := by
  unfold newExtremum
  refine plain_bind (.auxiliaryName _) fun _ => ?_
  refine plain_bind (plain_createVariable hP _ _ _ _) fun _ => ?_
  refine plain_bind (plain_mapM fun _ _ => plain_newBinary hP _) fun _ => ?_
  refine plain_bind (plain_requireOne hP _) fun _ => ?_
  refine plain_bind (plain_forM fun p _ => ?_) fun _ => .pure _
  have hgap (gap selector : Handle (Number α)) : Plain c S (do
      constrain P gap realZero noUpper
      constrain P (← gated P selector gap) noLower realZero) :=
    plain_bind (plain_constrain hP _ _ _) fun _ =>
      plain_bind (plain_gated hP _ _) fun _ => plain_constrain hP _ _ _
  obtain ⟨h, selector⟩ := p
  cases e with
  | least => exact plain_bind (plain_sub _ _) fun gap => hgap gap selector
  | greatest => exact plain_bind (plain_sub _ _) fun gap => hgap gap selector

theorem plain_extremum (hP : P.InScope c S) (e : Extremum) (hs : List (Handle (Number α))) :
    Plain c S (extremum P e hs) := by
  unfold extremum
  split
  · exact .pure _
  · exact scoped_fail trivial
  · exact plain_newExtremum hP e hs

theorem plain_conditional (hP : P.InScope c S) (x t e : Handle (Number α)) :
    Plain c S (conditional P x t e) := by
  refine plain_bind (plain_truth hP x) fun b => ?_
  split
  · exact .pure _
  · refine plain_bind (plain_gated hP _ _) fun _ => plain_bind (plain_sub _ _) fun _ => ?_
    exact plain_bind (plain_gated hP _ _) fun _ => plain_add _ _

theorem plain_gatePairs (hP : P.InScope c S) (pending : Handle (Number α))
    (pairs : List (Handle (Number α) × Handle (Number α))) :
    Plain c S (gatePairs P pending pairs) := by
  induction pairs generalizing pending with
  | nil => exact .pure _
  | cons p ps ih =>
    refine plain_bind (plain_truth hP _) fun b => plain_bind (plain_gated hP _ _) fun _ => ?_
    refine plain_bind (plain_gated hP _ _) fun term => ?_
    have hrest (notC : Handle (Number α)) : Plain c S (do
        let pending ← gated P pending notC
        let r ← gatePairs P pending ps
        return (term :: r.1, r.2)) :=
      plain_bind (plain_gated hP _ _) fun _ => plain_bind (ih _) fun _ => .pure _
    dsimp only
    split
    · exact plain_bind (.pure _) hrest
    · exact plain_bind (plain_sub _ _) hrest

theorem plain_firstMatch (hP : P.InScope c S) (cs vs : List (Handle (Number α)))
    (h : Handle (Number α)) : Plain c S (firstMatch P cs vs h) := by
  refine plain_bind (plain_gatePairs hP _ _) fun _ => ?_
  exact plain_bind (plain_gated hP _ _) fun _ => hP.total _

theorem plain_lookup (hP : P.InScope c S) (h : Handle (Number α))
    (entries : List (Int × Handle (Number α))) : Plain c S (lookup P h entries) := by
  refine plain_bind (plain_mapM fun _ _ => plain_newBinary hP _) fun _ => ?_
  refine plain_bind (plain_requireOne hP _) fun _ => plain_bind (plain_mapM fun _ _ => ?_) fun _ => ?_
  · exact plain_mul _ _
  refine plain_bind (hP.total _) fun _ => ?_
  refine plain_bind (plain_sub _ _) fun _ => plain_bind (plain_constrain hP _ _ _) fun _ => ?_
  exact plain_bind (plain_mapM fun _ _ => plain_gated hP _ _) fun _ => hP.total _

theorem plain_membershipEntries (low : Int) (width : Nat) (keys : List Int) :
    Plain c S (membershipEntries c low width keys : TolerantM α σ _) := by
  refine plain_bind (plain_mapM fun _ _ => ?_) fun _ => .pure _
  exact plain_bind (plain_collection _) fun _ => .pure _

/-- The handle of the variable is looked up. -/
theorem scoped_tabulatedMembership (hP : P.InScope c S) (key : Handle (Number α))
    (keys : List Int) (v : VarId) (low high : Int) :
    Scoped c S (tabulatedMembership P c key keys v low high) (S.handle v) := by
  refine (plain_newInteger hP _ _ _).second fun _ => (plain_sub _ _).second fun _ => ?_
  refine (plain_mul _ _).second fun _ => (Scoped.variableHandle v).first fun _ => ?_
  refine plain_bind (plain_add _ _) fun _ => plain_bind (plain_sub _ _) fun _ => ?_
  refine plain_bind (plain_sub _ _) fun _ => plain_bind (plain_constrain hP _ _ _) fun _ => ?_
  refine plain_bind (plain_membershipEntries _ _ _) fun entries => ?_
  exact plain_bind (plain_lookup hP _ _) fun _ => plain_markBinary _

theorem scoped_keyedMembership? (hP : P.InScope c S) {key : Handle (Number α)} {keys : List Int}
    {v : VarId} {m : TolerantM α σ (Handle (Number α))} (h : keyedMembership? P c key keys v = some m) :
    Scoped c S m (S.handle v) := by
  unfold keyedMembership? at h
  split at h
  · cases h
  · split at h
    · cases h
    · split at h
      · cases h
        exact scoped_tabulatedMembership hP _ _ _ _ _
      · cases h

/-! ### Posting -/

theorem plain_postEqual (hP : P.InScope c S) (x y : Handle (Number α)) :
    Plain c S (postEqual P x y) :=
  plain_bind (plain_sub _ _) fun _ => plain_constrain hP _ _ _

theorem plain_postTrue (hP : P.InScope c S) (h : Handle (Number α)) : Plain c S (postTrue P h) :=
  plain_bind plain_epsilon fun _ => plain_constrain hP _ _ _

theorem inScope (hP : P.InScope c S) : (backend P).InScope c S where
  constant _ := .pure _
  constant? _ := .pure _
  negate := plain_neg
  add := plain_add
  subtract := plain_sub
  multiply := plain_mul
  divide := plain_divide hP
  power := plain_power hP
  absolute := plain_absolute hP
  minimum := plain_extremum hP .least
  maximum := plain_extremum hP .greatest
  reify := plain_reify hP
  complement := plain_complement hP
  conjoin := plain_conjoinFrom hP one
  disjoin := plain_disjoin hP
  conditional := plain_conditional hP
  firstMatch := plain_firstMatch hP
  membership := plain_membership hP
  lookup := plain_lookup hP
  keyedMembership? := scoped_keyedMembership? hP
  newInteger := plain_newInteger hP
  postEqual := plain_postEqual hP
  postComparison := plain_postComparison hP
  postTrue := plain_postTrue hP

end DecisionModel.Tolerant
