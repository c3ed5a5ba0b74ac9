import DecisionModel.Proofs.Lowering.InStep
import DecisionModel.Tolerant.Encoding

/-!
# Tolerant lowering does not read its log

The encodings for algebraic solvers depend on the solver's own part of the state only through the
primitives. If those are in step with themselves for a view of this part (`Primitives.Steady`), so is
every encoding (`steady`), and lowering a model under two configurations with the same tolerance goes in
step (`inStep_lowerModel`).
-/

namespace DecisionModel.Tolerant

open LowerM

variable {α σ β : Type} {view : σ → σ}

/-- What is seen of an encoding if `view` is what is seen of the solver's own part. -/
def Encoding.seen (view : σ → σ) (e : Encoding α σ) : Encoding α σ := { e with solver := view e.solver }

/-- The computation does not depend on what the view leaves out. -/
abbrev Steady (view : σ → σ) (m : TolerantM α σ β) : Prop :=
  InStep (SameBut (Encoding.seen view)) m m

/-- The primitives do not depend on what the view leaves out. -/
structure Primitives.Steady (P : Primitives α σ) (view : σ → σ) : Prop where
  newVariable (kind : Kind) (lower upper : α) (name : String) :
    Tolerant.Steady view (P.newVariable kind lower upper name)
  addRange (h : Handle (Number α)) (lower upper : Number α) (name : String) :
    Tolerant.Steady view (P.addRange h lower upper name)
  absolute (h : Handle (Number α)) : Tolerant.Steady view (P.absolute h)
  power (h : Handle (Number α)) (x : α) : Tolerant.Steady view (P.power h x)
  gate (b h : Handle (Number α)) : Tolerant.Steady view (P.gate b h)
  quotient (x y : Handle (Number α)) : Tolerant.Steady view (P.quotient x y)
  total (hs : List (Handle (Number α))) : Tolerant.Steady view (P.total hs)
  tolerance : Tolerant.Steady view P.tolerance
  setObjective (h : Handle (Number α)) (sense : Sense) :
    Tolerant.Steady view (P.setObjective h sense)

section

/-! Only the solver's own part is left out. -/

variable {e e' : Encoding α σ} (h : e'.seen view = e.seen view)

include h

theorem epsilon_congr : e'.epsilon = e.epsilon := (Encoding.mk.inj h).1

theorem created_congr : e'.created = e.created := (Encoding.mk.inj h).2.1

theorem posted_congr : e'.posted = e.posted := (Encoding.mk.inj h).2.2.1

theorem objective_congr : e'.objective = e.objective := (Encoding.mk.inj h).2.2.2.1

theorem binaries_congr : e'.binaries = e.binaries := (Encoding.mk.inj h).2.2.2.2.1

theorem booleans_congr : e'.booleans = e.booleans := (Encoding.mk.inj h).2.2.2.2.2.1

theorem own_congr : view e'.solver = view e.solver := (Encoding.mk.inj h).2.2.2.2.2.2

end

/-! ### Variables and ranges -/

theorem inStep_modifyEncoding {f : Encoding α σ → Encoding α σ}
    (hf : ∀ e, (f e).seen view = f (e.seen view)) :
    Steady view (modifyEncoding f : TolerantM α σ Unit) := inStep_modifySolver_of_comm hf

theorem inStep_modifyOwn {f : σ → σ} (hf : ∀ t, view (f t) = f (view t)) :
    Steady view (modifyOwn f : TolerantM α σ Unit) :=
  inStep_modifyEncoding fun e => by simp only [Encoding.seen, hf]

theorem inStep_epsilon : Steady view (epsilon : TolerantM α σ (Number α)) := by
  refine inStep_lookSolver fun e e' h => ?_
  rw [epsilon_congr h]
  exact inStep_pure _

variable [Scalar α]

theorem inStep_threshold : Steady view (threshold : TolerantM α σ (Number α)) :=
  inStep_bind inStep_epsilon fun _ => inStep_pure _

theorem inStep_negatedThreshold : Steady view (negatedThreshold : TolerantM α σ (Number α)) :=
  inStep_bind inStep_epsilon fun _ => inStep_pure _

theorem inStep_chainedSum (hs : List (Handle (Number α))) :
    Steady view (chainedSum hs : TolerantM α σ (Handle (Number α))) := by
  cases hs with
  | nil => exact inStep_pure _
  | cons h hs => exact inStep_foldlM (fun x y _ => inStep_add x y) h

omit [Scalar α] in
theorem inStep_markBinary (h : Handle (Number α)) :
    Steady view (markBinary h : TolerantM α σ (Handle (Number α))) :=
  inStep_bind (inStep_modifyEncoding fun _ => rfl) fun _ => inStep_pure _

variable {P : Primitives α σ}

omit [Scalar α] in
theorem inStep_createVariable (hP : P.Steady view) (kind : Kind) (lower upper : α) (name : String) :
    Steady view (createVariable P kind lower upper name) := by
  refine inStep_bind (hP.newVariable _ _ _ _) fun h => ?_
  exact inStep_bind (inStep_modifyEncoding fun _ => rfl) fun _ => inStep_pure _

theorem inStep_newBinary (hP : P.Steady view) (hint : String) : Steady view (newBinary P hint) :=
  inStep_bind (inStep_auxiliaryName _) fun _ => inStep_createVariable hP _ _ _ _

theorem inStep_newInteger (hP : P.Steady view) (lower upper : Int) (hint : String) :
    Steady view (newInteger P lower upper hint) :=
  inStep_bind (inStep_lift _) fun _ => inStep_bind (inStep_lift _) fun _ =>
    inStep_bind (inStep_auxiliaryName _) fun _ => inStep_createVariable hP _ _ _ _

theorem inStep_constrain (hP : P.Steady view) (h : Handle (Number α)) (lower upper : Number α) :
    Steady view (constrain P h lower upper) := by
  unfold constrain
  split
  · exact inStep_bind inStep_epsilon fun _ => inStep_ite (inStep_recordViolated _) (inStep_pure _)
  · refine inStep_bind (inStep_auxiliaryName _) fun _ => ?_
    exact inStep_bind (inStep_modifyEncoding fun _ => rfl) fun _ => hP.addRange _ _ _ _

theorem inStep_gated (hP : P.Steady view) (b h : Handle (Number α)) : Steady view (gated P b h) := by
  unfold gated
  split
  · exact inStep_pure _
  · exact inStep_ite (inStep_pure _) (inStep_mul _ _)
  · exact hP.gate _ _

/-! ### Truth -/

theorem inStep_postComparison (hP : P.Steady view) (c : Comparison) (x y : Handle (Number α)) :
    Steady view (postComparison P c x y) := by
  refine inStep_bind inStep_epsilon fun _ => inStep_bind (inStep_sub _ _) fun _ => ?_
  cases c with
  | le => exact inStep_constrain hP _ _ _
  | lt => exact inStep_bind inStep_negatedThreshold fun _ => inStep_constrain hP _ _ _
  | ge => exact inStep_constrain hP _ _ _
  | gt => exact inStep_bind inStep_threshold fun _ => inStep_constrain hP _ _ _
  | eq => exact inStep_constrain hP _ _ _
  | ne =>
    exact inStep_bind (hP.absolute _) fun _ => inStep_bind inStep_threshold fun _ =>
      inStep_constrain hP _ _ _

theorem inStep_requireGated (hP : P.Steady view) (b h : Handle (Number α)) :
    Steady view (requireGated P b h) :=
  inStep_bind (inStep_gated hP _ _) fun _ => inStep_constrain hP _ _ _

theorem inStep_reify (hP : P.Steady view) (c : Comparison) (x y : Handle (Number α)) :
    Steady view (reify P c x y) := by
  have hg {m rest : TolerantM α σ (Handle (Number α))} (hm : Steady view m) (hrest : Steady view rest)
      (b : Handle (Number α)) : Steady view (m >>= fun h => requireGated P b h >>= fun _ => rest) :=
    inStep_bind hm fun _ => inStep_bind (inStep_requireGated hP _ _) fun _ => hrest
  refine inStep_bind inStep_epsilon fun _ => inStep_bind inStep_threshold fun _ => ?_
  refine inStep_bind inStep_negatedThreshold fun _ => inStep_bind (inStep_sub _ _) fun _ => ?_
  refine inStep_bind (inStep_newBinary hP _) fun _ => inStep_bind (inStep_sub _ _) fun _ => ?_
  cases c with
  | ge => exact hg (inStep_add _ _) (hg (inStep_sub _ _) (inStep_pure _) _) _
  | le => exact hg (inStep_sub _ _) (hg (inStep_sub _ _) (inStep_pure _) _) _
  | gt => exact hg (inStep_sub _ _) (hg (inStep_sub _ _) (inStep_pure _) _) _
  | lt => exact hg (inStep_sub _ _) (hg (inStep_add _ _) (inStep_pure _) _) _
  | eq =>
    refine hg (inStep_sub _ _) (hg (inStep_add _ _) ?_ _) _
    exact inStep_bind (hP.absolute _) fun _ => hg (inStep_sub _ _) (inStep_pure _) _
  | ne =>
    refine inStep_bind (hP.absolute _) fun _ => ?_
    exact hg (inStep_sub _ _) (hg (inStep_sub _ _) (inStep_pure _) _) _

theorem inStep_newTruth (hP : P.Steady view) (h : Handle (Number α)) : Steady view (newTruth P h) := by
  refine inStep_bind inStep_epsilon fun _ => inStep_bind inStep_threshold fun _ => ?_
  refine inStep_bind (inStep_newBinary hP _) fun _ => inStep_bind (hP.absolute _) fun _ => ?_
  refine inStep_bind (inStep_mul _ _) fun _ => inStep_bind (inStep_sub _ _) fun _ => ?_
  refine inStep_bind (inStep_constrain hP _ _ _) fun _ => inStep_bind (inStep_sub _ _) fun _ => ?_
  refine inStep_bind (inStep_sub _ _) fun _ => inStep_bind (inStep_gated hP _ _) fun _ => ?_
  exact inStep_bind (inStep_constrain hP _ _ _) fun _ => inStep_pure _

/-- The marks and the table of truth values are asked, which are seen. -/
theorem inStep_truth (hP : P.Steady view) (h : Handle (Number α)) : Steady view (truth P h) := by
  unfold truth
  split
  · exact inStep_pure _
  · exact inStep_pure _
  · refine inStep_lookSolver fun e e' he => ?_
    rw [binaries_congr he, booleans_congr he]
    refine inStep_ite (inStep_pure _) ?_
    split
    · exact inStep_pure _
    · refine inStep_bind (inStep_newTruth hP h) fun b => ?_
      exact inStep_bind (inStep_modifyEncoding fun _ => rfl) fun _ => inStep_pure _

theorem inStep_complement (hP : P.Steady view) (h : Handle (Number α)) :
    Steady view (complement P h) := by
  refine inStep_bind (inStep_truth hP h) fun b => ?_
  split
  · exact inStep_pure _
  · exact inStep_bind (inStep_sub _ _) fun _ => inStep_markBinary _

theorem inStep_conjoinFrom (hP : P.Steady view) (h : Handle (Number α))
    (hs : List (Handle (Number α))) : Steady view (conjoinFrom P h hs) := by
  induction hs generalizing h with
  | nil => exact inStep_markBinary h
  | cons k ks ih =>
    refine inStep_bind (inStep_truth hP k) fun b => inStep_bind (inStep_gated hP h b) fun result => ?_
    exact inStep_ite (inStep_pure _) (ih result)

theorem inStep_openTruths (hP : P.Steady view) (hs : List (Handle (Number α))) :
    Steady view (openTruths P hs) := by
  induction hs with
  | nil => exact inStep_pure _
  | cons h hs ih =>
    refine inStep_bind (inStep_truth hP h) fun b => ?_
    split
    · exact inStep_ite ih (inStep_pure _)
    · exact inStep_bind ih fun _ => inStep_pure _

theorem inStep_disjoin (hP : P.Steady view) (hs : List (Handle (Number α))) :
    Steady view (disjoin P hs) := by
  refine inStep_bind (inStep_openTruths hP hs) fun open? => ?_
  split
  · exact inStep_pure _
  · exact inStep_pure _
  · exact inStep_pure _
  · exact inStep_bind (hP.total _) fun _ => inStep_truth hP _

theorem inStep_membership (hP : P.Steady view) (h : Handle (Number α))
    (hs : List (Option (Handle (Number α)))) : Steady view (membership P h hs) := by
  refine inStep_bind (inStep_mapM fun candidate _ => ?_) fun _ => inStep_disjoin hP _
  split
  · exact inStep_pure _
  · exact inStep_reify hP _ _ _

/-! ### Selection -/

theorem inStep_divide (hP : P.Steady view) (x y : Handle (Number α)) : Steady view (divide P x y) := by
  unfold divide
  split
  · exact hP.quotient _ _
  · refine inStep_when (inStep_fail _) ?_
    split
    · exact inStep_pure _
    · exact inStep_mul _ _

theorem inStep_power (hP : P.Steady view) (x y : Handle (Number α)) : Steady view (power P x y) := by
  unfold power
  split
  · exact inStep_fail _
  · split
    · exact inStep_pure _
    · exact inStep_fail _
  · exact inStep_ite (inStep_pure _) (inStep_ite (inStep_pure _) (hP.power _ _))

theorem inStep_absolute (hP : P.Steady view) (h : Handle (Number α)) : Steady view (absolute P h) := by
  unfold absolute
  split
  · exact inStep_pure _
  · exact hP.absolute _

theorem inStep_requireOne (hP : P.Steady view) (hs : List (Handle (Number α))) :
    Steady view (requireOne P hs) :=
  inStep_bind (hP.total _) fun _ => inStep_constrain hP _ _ _

theorem inStep_newExtremum (hP : P.Steady view) (e : Extremum) (hs : List (Handle (Number α))) :
    Steady view (newExtremum P e hs) := by
  unfold newExtremum
  refine inStep_bind (inStep_auxiliaryName _) fun _ => ?_
  refine inStep_bind (inStep_createVariable hP _ _ _ _) fun _ => ?_
  refine inStep_bind (inStep_mapM fun _ _ => inStep_newBinary hP _) fun _ => ?_
  refine inStep_bind (inStep_requireOne hP _) fun _ => ?_
  refine inStep_bind (inStep_forM fun p _ => ?_) fun _ => inStep_pure _
  have hgap (gap selector : Handle (Number α)) : Steady view (do
      constrain P gap realZero noUpper
      constrain P (← gated P selector gap) noLower realZero) :=
    inStep_bind (inStep_constrain hP _ _ _) fun _ =>
      inStep_bind (inStep_gated hP _ _) fun _ => inStep_constrain hP _ _ _
  obtain ⟨h, selector⟩ := p
  cases e with
  | least => exact inStep_bind (inStep_sub _ _) fun gap => hgap gap selector
  | greatest => exact inStep_bind (inStep_sub _ _) fun gap => hgap gap selector

theorem inStep_extremum (hP : P.Steady view) (e : Extremum) (hs : List (Handle (Number α))) :
    Steady view (extremum P e hs) := by
  unfold extremum
  split
  · exact inStep_pure _
  · exact inStep_fail _
  · exact inStep_newExtremum hP e hs

theorem inStep_conditional (hP : P.Steady view) (c t e : Handle (Number α)) :
    Steady view (conditional P c t e) := by
  refine inStep_bind (inStep_truth hP c) fun c => ?_
  split
  · exact inStep_pure _
  · refine inStep_bind (inStep_gated hP _ _) fun _ => inStep_bind (inStep_sub _ _) fun _ => ?_
    exact inStep_bind (inStep_gated hP _ _) fun _ => inStep_add _ _

theorem inStep_gatePairs (hP : P.Steady view) (pending : Handle (Number α))
    (pairs : List (Handle (Number α) × Handle (Number α))) :
    Steady view (gatePairs P pending pairs) := by
  induction pairs generalizing pending with
  | nil => exact inStep_pure _
  | cons p ps ih =>
    refine inStep_bind (inStep_truth hP _) fun c => inStep_bind (inStep_gated hP _ _) fun _ => ?_
    refine inStep_bind (inStep_gated hP _ _) fun term => ?_
    have hrest (notC : Handle (Number α)) : Steady view (do
        let pending ← gated P pending notC
        let r ← gatePairs P pending ps
        return (term :: r.1, r.2)) :=
      inStep_bind (inStep_gated hP _ _) fun _ => inStep_bind (ih _) fun _ => inStep_pure _
    dsimp only
    split
    · exact inStep_bind (inStep_pure _) hrest
    · exact inStep_bind (inStep_sub _ _) hrest

theorem inStep_firstMatch (hP : P.Steady view) (cs vs : List (Handle (Number α)))
    (h : Handle (Number α)) : Steady view (firstMatch P cs vs h) := by
  refine inStep_bind (inStep_gatePairs hP _ _) fun _ => ?_
  exact inStep_bind (inStep_gated hP _ _) fun _ => hP.total _

theorem inStep_lookup (hP : P.Steady view) (h : Handle (Number α))
    (entries : List (Int × Handle (Number α))) : Steady view (lookup P h entries) := by
  refine inStep_bind (inStep_mapM fun _ _ => inStep_newBinary hP _) fun _ => ?_
  refine inStep_bind (inStep_requireOne hP _) fun _ => inStep_bind (inStep_mapM fun _ _ => ?_) fun _ => ?_
  · exact inStep_mul _ _
  refine inStep_bind (hP.total _) fun _ => ?_
  refine inStep_bind (inStep_sub _ _) fun _ => inStep_bind (inStep_constrain hP _ _ _) fun _ => ?_
  exact inStep_bind (inStep_mapM fun _ _ => inStep_gated hP _ _) fun _ => hP.total _

variable {c : Context α} {k : Config α}

theorem inStep_membershipEntries (low : Int) (width : Nat) (keys : List Int) :
    InStep (SameBut (Encoding.seen view)) (membershipEntries c low width keys : TolerantM α σ _)
      (membershipEntries (c.under k) low width keys) := by
  refine inStep_bind (inStep_mapM fun _ _ => ?_) fun _ => inStep_pure _
  exact inStep_bind (inStep_collection c k _) fun _ => inStep_pure _

theorem inStep_tabulatedMembership (hP : P.Steady view) (key : Handle (Number α))
    (keys : List Int) (v : VarId) (low high : Int) :
    InStep (SameBut (Encoding.seen view)) (tabulatedMembership P c key keys v low high)
      (tabulatedMembership P (c.under k) key keys v low high) := by
  refine inStep_bind (inStep_newInteger hP _ _ _) fun _ => inStep_bind (inStep_sub _ _) fun _ => ?_
  refine inStep_bind (inStep_mul _ _) fun _ => ?_
  refine inStep_bind (Backend.inStep_variableHandle v) fun _ => inStep_bind (inStep_add _ _) fun _ => ?_
  refine inStep_bind (inStep_sub _ _) fun _ => inStep_bind (inStep_sub _ _) fun _ => ?_
  refine inStep_bind (inStep_constrain hP _ _ _) fun _ => ?_
  refine inStep_bind (inStep_membershipEntries _ _ _) fun entries => ?_
  exact inStep_bind (inStep_lookup hP _ _) fun _ => inStep_markBinary _

theorem inStep_keyedMembership? (hP : P.Steady view) (c : Context α) (k : Config α)
    (key : Handle (Number α)) (keys : List Int) (v : VarId) :
    Option.Rel (InStep (SameBut (Encoding.seen view))) (keyedMembership? P c key keys v)
      (keyedMembership? P (c.under k) key keys v) := by
  unfold keyedMembership?
  dsimp only
  split
  · exact .none
  · split
    · exact .none
    · split
      · exact .some (inStep_tabulatedMembership hP _ _ _ _ _)
      · exact .none

theorem inStep_createSequence (hP : P.Steady view) (name : String) (members : List String) :
    Steady view (createSequence P name members) := by
  refine inStep_bind (inStep_mapM fun _ _ => inStep_createVariable hP _ _ _ _) fun _ => ?_
  refine inStep_bind (inStep_mapM fun _ _ => inStep_mapM fun _ _ => inStep_newBinary hP _) fun _ => ?_
  refine inStep_bind (inStep_forM fun p _ => ?_) fun _ => inStep_pure _
  refine inStep_bind (inStep_requireOne hP _) fun _ => inStep_bind (inStep_requireOne hP _) fun _ => ?_
  refine inStep_bind (inStep_mapM fun _ _ => inStep_mul _ _) fun _ => ?_
  refine inStep_bind (hP.total _) fun _ => ?_
  exact inStep_bind (inStep_sub _ _) fun _ => inStep_constrain hP _ _ _

/-! ### Posting -/

theorem inStep_postEqual (hP : P.Steady view) (x y : Handle (Number α)) :
    Steady view (postEqual P x y) :=
  inStep_bind (inStep_sub _ _) fun _ => inStep_constrain hP _ _ _

theorem inStep_postTrue (hP : P.Steady view) (h : Handle (Number α)) : Steady view (postTrue P h) :=
  inStep_bind inStep_epsilon fun _ => inStep_constrain hP _ _ _

theorem inStep_postObjective (hP : P.Steady view) (sense : Sense) (h : Handle (Number α)) :
    Steady view (postObjective P sense h) := by
  refine inStep_bind (inStep_createVariable hP _ _ _ _) fun _ => ?_
  refine inStep_bind (inStep_sub _ _) fun _ => inStep_bind (inStep_constrain hP _ _ _) fun _ => ?_
  exact inStep_bind (inStep_modifyEncoding fun _ => rfl) fun _ => hP.setObjective _ _

theorem steady (hP : P.Steady view) : (backend P).Steady (Encoding.seen view) where
  constant _ := inStep_pure _
  constant? _ := inStep_pure _
  negate := inStep_neg
  add := inStep_add
  subtract := inStep_sub
  multiply := inStep_mul
  divide := inStep_divide hP
  power := inStep_power hP
  absolute := inStep_absolute hP
  minimum := inStep_extremum hP .least
  maximum := inStep_extremum hP .greatest
  reify := inStep_reify hP
  complement := inStep_complement hP
  conjoin := inStep_conjoinFrom hP one
  disjoin := inStep_disjoin hP
  conditional := inStep_conditional hP
  firstMatch := inStep_firstMatch hP
  membership := inStep_membership hP
  lookup := inStep_lookup hP
  keyedMembership? := inStep_keyedMembership? hP
  createVariable _ := inStep_createVariable hP _ _ _ _
  createSequence := inStep_createSequence hP
  newInteger := inStep_newInteger hP
  postEqual := inStep_postEqual hP
  postComparison := inStep_postComparison hP
  postTrue := inStep_postTrue hP
  postDefinition _ := inStep_postEqual hP
  postObjective := inStep_postObjective hP

/-- The sizes that are reported in the end are seen. -/
theorem inStep_lowerModel (hP : P.Steady view) (hk : k.epsilon = c.config.epsilon) :
    InStep (SameBut (Encoding.seen view)) (lowerModel P c) (lowerModel P (c.under k)) := by
  unfold lowerModel
  dsimp only
  rw [hk]
  split
  case' h_1 => refine inStep_bind (inStep_pure _) fun eps => ?_
  case' h_2 => refine inStep_bind hP.tolerance fun eps => ?_
  all_goals
    refine inStep_bind (inStep_modifyEncoding fun _ => rfl) fun _ => ?_
    refine inStep_bind (inStep_log _ _ _ _) fun _ => ?_
    refine inStep_bind (Backend.inStep_lowerModel (steady hP)) fun _ => ?_
    refine inStep_lookSolver fun e e' h => ?_
    rw [created_congr h, posted_congr h]
    exact inStep_log _ _ _ _

end DecisionModel.Tolerant
