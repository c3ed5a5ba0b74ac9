import DecisionModel.Proofs.Lowering.Memo
import DecisionModel.Tolerant.Encoding

/-!
# Tolerant lowering: what the encodings keep

The encodings for algebraic solvers are put together from a few steps: a variable is created, a range is
posted, a term is made. A relation between states that these steps keep is kept by the encodings
(`Primitives.Steps`). If taking truth values and marking handles keeps it too, all operations of the
back-end that lower and post terms do (`Primitives.Encodes.preserves`). These create variables under
auxiliary names only; what the model declares is created under any name, and then the rest of the
back-end keeps the relation as well (`Primitives.Creates.creates`). For a relation that has nothing to do
with what the encodings note down (`Noted`) it is enough that the primitives of the solver keep it
(`Primitives.KeepAuxiliaries.encodes`, `Primitives.Keep.creates`).
-/

namespace DecisionModel.Tolerant

open LowerM

variable {α σ β : Type} {R : LoweringState (Number α) (Encoding α σ) →
  LoweringState (Number α) (Encoding α σ) → Prop}

section

variable [Unaffected R]

theorem keeps_getEncoding : Keeps R (getEncoding : TolerantM α σ (Encoding α σ)) := keeps_getSolver

theorem keeps_epsilon : Keeps R (epsilon : TolerantM α σ (Number α)) :=
  keeps_bind keeps_getEncoding fun _ => keeps_pure _

variable [Scalar α]

theorem keeps_threshold : Keeps R (threshold : TolerantM α σ (Number α)) :=
  keeps_bind keeps_epsilon fun _ => keeps_pure _

theorem keeps_negatedThreshold : Keeps R (negatedThreshold : TolerantM α σ (Number α)) :=
  keeps_bind keeps_epsilon fun _ => keeps_pure _

theorem keeps_chainedSum (hs : List (Handle (Number α))) :
    Keeps R (chainedSum hs : TolerantM α σ (Handle (Number α))) := by
  cases hs with
  | nil => exact keeps_pure _
  | cons h hs => exact keeps_foldlM (fun x y _ => keeps_add x y) h

end

/-- The terms and ranges that the solver offers keep the relation. -/
structure Primitives.KeepTerms (P : Primitives α σ)
    (R : LoweringState (Number α) (Encoding α σ) → LoweringState (Number α) (Encoding α σ) → Prop) :
    Prop where
  addRange (h : Handle (Number α)) (lower upper : Number α) (name : String) :
    Keeps R (P.addRange h lower upper name)
  absolute (h : Handle (Number α)) : Keeps R (P.absolute h)
  power (h : Handle (Number α)) (x : α) : Keeps R (P.power h x)
  gate (b h : Handle (Number α)) : Keeps R (P.gate b h)
  quotient (x y : Handle (Number α)) : Keeps R (P.quotient x y)
  total (hs : List (Handle (Number α))) : Keeps R (P.total hs)

/-- So do new variables, if they get auxiliary names. -/
structure Primitives.KeepAuxiliaries (P : Primitives α σ)
    (R : LoweringState (Number α) (Encoding α σ) → LoweringState (Number α) (Encoding α σ) → Prop) :
    Prop extends P.KeepTerms R where
  newAuxiliary (kind : Kind) (lower upper : α) (hint : String) :
    Keeps R (auxiliaryName hint >>= P.newVariable kind lower upper)

/-- All that the solver offers keeps the relation. -/
structure Primitives.Keep (P : Primitives α σ)
    (R : LoweringState (Number α) (Encoding α σ) → LoweringState (Number α) (Encoding α σ) → Prop) :
    Prop extends P.KeepTerms R where
  newVariable (kind : Kind) (lower upper : α) (name : String) :
    Keeps R (P.newVariable kind lower upper name)
  setObjective (h : Handle (Number α)) (sense : Sense) : Keeps R (P.setObjective h sense)

/-- What the solver offers changes nothing but the solver's own part: what all such changes keep is kept. -/
structure Primitives.Contained (P : Primitives α σ) : Prop where
  keep {R : LoweringState (Number α) (Encoding α σ) → LoweringState (Number α) (Encoding α σ) → Prop}
    [Unaffected R] : (∀ f : σ → σ, Keeps R (modifyOwn f : TolerantM α σ Unit)) → P.Keep R
  tolerance {R : LoweringState (Number α) (Encoding α σ) → LoweringState (Number α) (Encoding α σ) → Prop}
    [Unaffected R] : (∀ f : σ → σ, Keeps R (modifyOwn f : TolerantM α σ Unit)) → Keeps R P.tolerance

/-- The steps that the encodings are made of keep the relation. -/
structure Primitives.Steps (P : Primitives α σ)
    (R : LoweringState (Number α) (Encoding α σ) → LoweringState (Number α) (Encoding α σ) → Prop) :
    Prop extends P.KeepTerms R where
  createAuxiliary (kind : Kind) (lower upper : α) (hint : String) :
    Keeps R (auxiliaryName hint >>= Tolerant.createVariable P kind lower upper)
  post (r : Range α) :
    Keeps R (modifyEncoding fun e => { e with posted := e.posted.push r } : TolerantM α σ Unit)

/-- So do the operations that mark handles and enter truth values. -/
structure Primitives.Encodes [Scalar α] (P : Primitives α σ)
    (R : LoweringState (Number α) (Encoding α σ) → LoweringState (Number α) (Encoding α σ) → Prop) :
    Prop extends P.Steps R where
  truth (h : Handle (Number α)) : Keeps R (Tolerant.truth P h)
  complement (h : Handle (Number α)) : Keeps R (Tolerant.complement P h)
  conjoin (hs : List (Handle (Number α))) : Keeps R (Tolerant.conjoin P hs)
  tabulatedMembership (c : Context α) (key : Handle (Number α)) (keys : List Int) (v : VarId)
    (low high : Int) : Keeps R (Tolerant.tabulatedMembership P c key keys v low high)

/-- So do the steps that create what the model declares. -/
structure Primitives.Creates [Scalar α] (P : Primitives α σ)
    (R : LoweringState (Number α) (Encoding α σ) → LoweringState (Number α) (Encoding α σ) → Prop) :
    Prop extends P.Encodes R where
  createVariable (kind : Kind) (lower upper : α) (name : String) :
    Keeps R (Tolerant.createVariable P kind lower upper name)
  setObjective (h : Handle (Number α)) (sense : Sense) : Keeps R (P.setObjective h sense)
  enterObjective (h : Handle (Number α)) :
    Keeps R (modifyEncoding fun e => { e with objective := some h } : TolerantM α σ Unit)

section

variable [Unaffected R] [Scalar α] {P : Primitives α σ}

/-! ### Steps -/

omit [Unaffected R] in
theorem keeps_newBinary (hP : P.Steps R) (hint : String) : Keeps R (newBinary P hint) :=
  hP.createAuxiliary _ _ _ _

theorem keeps_newInteger (hP : P.Steps R) (lower upper : Int) (hint : String) :
    Keeps R (newInteger P lower upper hint) :=
  keeps_bind (keeps_lift _) fun _ => keeps_bind (keeps_lift _) fun _ => hP.createAuxiliary _ _ _ _

theorem keeps_constrain (hP : P.Steps R) (h : Handle (Number α)) (lower upper : Number α) :
    Keeps R (constrain P h lower upper) := by
  unfold constrain
  split
  · exact keeps_bind keeps_epsilon fun _ => keeps_ite (keeps_recordViolated _) (keeps_pure _)
  · refine keeps_bind (keeps_auxiliaryName _) fun _ => keeps_bind ?_ fun _ => hP.addRange _ _ _ _
    exact hP.post _

theorem keeps_gated (hP : P.Steps R) (b h : Handle (Number α)) : Keeps R (gated P b h) := by
  unfold gated
  split
  · exact keeps_pure _
  · exact keeps_ite (keeps_pure _) (keeps_mul _ _)
  · exact hP.gate _ _

theorem keeps_postComparison (hP : P.Steps R) (c : Comparison) (x y : Handle (Number α)) :
    Keeps R (postComparison P c x y) := by
  refine keeps_bind keeps_epsilon fun _ => keeps_bind (keeps_sub _ _) fun _ => ?_
  cases c with
  | le => exact keeps_constrain hP _ _ _
  | lt => exact keeps_bind keeps_negatedThreshold fun _ => keeps_constrain hP _ _ _
  | ge => exact keeps_constrain hP _ _ _
  | gt => exact keeps_bind keeps_threshold fun _ => keeps_constrain hP _ _ _
  | eq => exact keeps_constrain hP _ _ _
  | ne =>
    exact keeps_bind (hP.absolute _) fun _ => keeps_bind keeps_threshold fun _ =>
      keeps_constrain hP _ _ _

theorem keeps_requireGated (hP : P.Steps R) (b h : Handle (Number α)) :
    Keeps R (requireGated P b h) :=
  keeps_bind (keeps_gated hP _ _) fun _ => keeps_constrain hP _ _ _

/-- One gated range, for a handle that is made first. -/
theorem keeps_requireGated_of (hP : P.Steps R) {m : TolerantM α σ (Handle (Number α))}
    {rest : TolerantM α σ β} (hm : Keeps R m) (hrest : Keeps R rest)
    (b : Handle (Number α)) :
    Keeps R (m >>= fun h => requireGated P b h >>= fun _ => rest) :=
  keeps_bind hm fun _ => keeps_bind (keeps_requireGated hP _ _) fun _ => hrest

theorem keeps_reify (hP : P.Steps R) (c : Comparison) (x y : Handle (Number α)) :
    Keeps R (reify P c x y) := by
  have hg {m : TolerantM α σ (Handle (Number α))} {rest : TolerantM α σ (Handle (Number α))}
      (hm : Keeps R m) (hrest : Keeps R rest) (b : Handle (Number α)) :=
    keeps_requireGated_of hP hm hrest b
  refine keeps_bind keeps_epsilon fun _ => keeps_bind keeps_threshold fun _ => ?_
  refine keeps_bind keeps_negatedThreshold fun _ => keeps_bind (keeps_sub _ _) fun _ => ?_
  refine keeps_bind (keeps_newBinary hP _) fun _ => keeps_bind (keeps_sub _ _) fun _ => ?_
  cases c with
  | ge => exact hg (keeps_add _ _) (hg (keeps_sub _ _) (keeps_pure _) _) _
  | le => exact hg (keeps_sub _ _) (hg (keeps_sub _ _) (keeps_pure _) _) _
  | gt => exact hg (keeps_sub _ _) (hg (keeps_sub _ _) (keeps_pure _) _) _
  | lt => exact hg (keeps_sub _ _) (hg (keeps_add _ _) (keeps_pure _) _) _
  | eq =>
    refine hg (keeps_sub _ _) (hg (keeps_add _ _) ?_ _) _
    exact keeps_bind (hP.absolute _) fun _ => hg (keeps_sub _ _) (keeps_pure _) _
  | ne =>
    refine keeps_bind (hP.absolute _) fun _ => ?_
    exact hg (keeps_sub _ _) (hg (keeps_sub _ _) (keeps_pure _) _) _

theorem keeps_newTruth (hP : P.Steps R) (h : Handle (Number α)) : Keeps R (newTruth P h) := by
  refine keeps_bind keeps_epsilon fun _ => keeps_bind keeps_threshold fun _ => ?_
  refine keeps_bind (keeps_newBinary hP _) fun _ => keeps_bind (hP.absolute _) fun _ => ?_
  refine keeps_bind (keeps_mul _ _) fun _ => keeps_bind (keeps_sub _ _) fun _ => ?_
  refine keeps_bind (keeps_constrain hP _ _ _) fun _ => keeps_bind (keeps_sub _ _) fun _ => ?_
  refine keeps_bind (keeps_sub _ _) fun _ => keeps_bind (keeps_gated hP _ _) fun _ => ?_
  exact keeps_bind (keeps_constrain hP _ _ _) fun _ => keeps_pure _

theorem keeps_divide (hP : P.Steps R) (x y : Handle (Number α)) : Keeps R (divide P x y) := by
  unfold divide
  split
  · exact hP.quotient _ _
  · refine keeps_when (keeps_fail _) ?_
    split
    · exact keeps_pure _
    · exact keeps_mul _ _

theorem keeps_power (hP : P.Steps R) (x y : Handle (Number α)) : Keeps R (power P x y) := by
  unfold power
  split
  · exact keeps_fail _
  · split
    · exact keeps_pure _
    · exact keeps_fail _
  · exact keeps_ite (keeps_pure _) (keeps_ite (keeps_pure _) (hP.power _ _))

theorem keeps_absolute (hP : P.Steps R) (h : Handle (Number α)) : Keeps R (absolute P h) := by
  unfold absolute
  split
  · exact keeps_pure _
  · exact hP.absolute _

theorem keeps_requireOne (hP : P.Steps R) (hs : List (Handle (Number α))) :
    Keeps R (requireOne P hs) :=
  keeps_bind (hP.total _) fun _ => keeps_constrain hP _ _ _

theorem keeps_newExtremum (hP : P.Steps R) (e : Extremum) (hs : List (Handle (Number α))) :
    Keeps R (newExtremum P e hs) := by
  unfold newExtremum
  dsimp only
  rw [← bind_assoc]
  refine keeps_bind (hP.createAuxiliary _ _ _ _) fun _ => ?_
  refine keeps_bind (keeps_mapM fun _ _ => keeps_newBinary hP _) fun _ => ?_
  refine keeps_bind (keeps_requireOne hP _) fun _ => ?_
  refine keeps_bind (keeps_forM fun p _ => ?_) fun _ => keeps_pure _
  have hgap (gap selector : Handle (Number α)) : Keeps R (do
      constrain P gap realZero noUpper
      constrain P (← gated P selector gap) noLower realZero) :=
    keeps_bind (keeps_constrain hP _ _ _) fun _ =>
      keeps_bind (keeps_gated hP _ _) fun _ => keeps_constrain hP _ _ _
  obtain ⟨h, selector⟩ := p
  cases e with
  | least => exact keeps_bind (keeps_sub _ _) fun gap => hgap gap selector
  | greatest => exact keeps_bind (keeps_sub _ _) fun gap => hgap gap selector

theorem keeps_extremum (hP : P.Steps R) (e : Extremum) (hs : List (Handle (Number α))) :
    Keeps R (extremum P e hs) := by
  unfold extremum
  split
  · exact keeps_pure _
  · exact keeps_fail _
  · exact keeps_newExtremum hP e hs

theorem keeps_lookup (hP : P.Steps R) (h : Handle (Number α))
    (entries : List (Int × Handle (Number α))) : Keeps R (lookup P h entries) := by
  refine keeps_bind (keeps_mapM fun _ _ => keeps_newBinary hP _) fun _ => ?_
  refine keeps_bind (keeps_requireOne hP _) fun _ => ?_
  refine keeps_bind (keeps_mapM fun _ _ => keeps_mul _ _) fun _ => keeps_bind (hP.total _) fun _ => ?_
  refine keeps_bind (keeps_sub _ _) fun _ => keeps_bind (keeps_constrain hP _ _ _) fun _ => ?_
  exact keeps_bind (keeps_mapM fun _ _ => keeps_gated hP _ _) fun _ => hP.total _

theorem keeps_membershipEntries (c : Context α) (low : Int) (width : Nat) (keys : List Int) :
    Keeps R (membershipEntries c low width keys : TolerantM α σ _) := by
  refine keeps_bind (keeps_mapM fun _ _ => ?_) fun _ => keeps_pure _
  exact keeps_bind (keeps_collection c _) fun _ => keeps_pure _

/-- A member of a sequence is tied to its row and its column. -/
theorem keeps_tied (hP : P.Steps R) (matrix : List (List (Handle (Number α)))) (h : Handle (Number α))
    (i : Nat) (row : List (Handle (Number α))) : Keeps R (do
      requireOne P row
      requireOne P (matrix.filterMap (·[i]?))
      let weighted ← (row.mapIdx Prod.mk).mapM fun (column, b) =>
        LowerM.mul (integer (column + 1)) b
      let channel ← P.total weighted
      constrain P (← LowerM.sub h channel) realZero realZero) := by
  refine keeps_bind (keeps_requireOne hP _) fun _ => keeps_bind (keeps_requireOne hP _) fun _ => ?_
  refine keeps_bind (keeps_mapM fun _ _ => keeps_mul _ _) fun _ => keeps_bind (hP.total _) fun _ => ?_
  exact keeps_bind (keeps_sub _ _) fun _ => keeps_constrain hP _ _ _

theorem keeps_postEqual (hP : P.Steps R) (x y : Handle (Number α)) : Keeps R (postEqual P x y) :=
  keeps_bind (keeps_sub _ _) fun _ => keeps_constrain hP _ _ _

theorem keeps_postTrue (hP : P.Steps R) (h : Handle (Number α)) : Keeps R (postTrue P h) :=
  keeps_bind keeps_epsilon fun _ => keeps_constrain hP _ _ _

/-! ### Truth values -/

theorem keeps_openTruths (hP : P.Encodes R) (hs : List (Handle (Number α))) :
    Keeps R (openTruths P hs) := by
  induction hs with
  | nil => exact keeps_pure _
  | cons h hs ih =>
    refine keeps_bind (hP.truth h) fun b => ?_
    split
    · exact keeps_ite ih (keeps_pure _)
    · exact keeps_bind ih fun _ => keeps_pure _

theorem keeps_disjoin (hP : P.Encodes R) (hs : List (Handle (Number α))) :
    Keeps R (disjoin P hs) := by
  refine keeps_bind (keeps_openTruths hP hs) fun open? => ?_
  split
  · exact keeps_pure _
  · exact keeps_pure _
  · exact keeps_pure _
  · exact keeps_bind (hP.total _) fun _ => hP.truth _

theorem keeps_membership (hP : P.Encodes R) (h : Handle (Number α))
    (hs : List (Option (Handle (Number α)))) : Keeps R (membership P h hs) := by
  refine keeps_bind (keeps_mapM fun candidate _ => ?_) fun _ => keeps_disjoin hP _
  split
  · exact keeps_pure _
  · exact keeps_reify hP.toSteps _ _ _

theorem keeps_conditional (hP : P.Encodes R) (c t e : Handle (Number α)) :
    Keeps R (conditional P c t e) := by
  refine keeps_bind (hP.truth c) fun c => ?_
  split
  · exact keeps_pure _
  · refine keeps_bind (keeps_gated hP.toSteps _ _) fun _ => keeps_bind (keeps_sub _ _) fun _ => ?_
    exact keeps_bind (keeps_gated hP.toSteps _ _) fun _ => keeps_add _ _

theorem keeps_gatePairs (hP : P.Encodes R) (pending : Handle (Number α))
    (pairs : List (Handle (Number α) × Handle (Number α))) :
    Keeps R (gatePairs P pending pairs) := by
  induction pairs generalizing pending with
  | nil => exact keeps_pure _
  | cons p ps ih =>
    refine keeps_bind (hP.truth _) fun c => keeps_bind (keeps_gated hP.toSteps _ _) fun _ => ?_
    refine keeps_bind (keeps_gated hP.toSteps _ _) fun term => ?_
    have hrest (notC : Handle (Number α)) : Keeps R (do
        let pending ← gated P pending notC
        let r ← gatePairs P pending ps
        return (term :: r.1, r.2)) :=
      keeps_bind (keeps_gated hP.toSteps _ _) fun _ => keeps_bind (ih _) fun _ => keeps_pure _
    dsimp only
    split
    · exact keeps_bind (keeps_pure _) hrest
    · exact keeps_bind (keeps_sub _ _) hrest

theorem keeps_firstMatch (hP : P.Encodes R) (cs vs : List (Handle (Number α)))
    (h : Handle (Number α)) : Keeps R (firstMatch P cs vs h) := by
  refine keeps_bind (keeps_gatePairs hP _ _) fun _ => ?_
  exact keeps_bind (keeps_gated hP.toSteps _ _) fun _ => hP.total _

omit [Unaffected R] in
theorem keeps_keyedMembership? (hP : P.Encodes R) {c : Context α} {key : Handle (Number α)}
    {keys : List Int} {v : VarId} {encode : TolerantM α σ (Handle (Number α))}
    (he : keyedMembership? P c key keys v = some encode) : Keeps R encode := by
  unfold keyedMembership? at he
  split at he
  · cases he
  · split at he
    · cases he
    · split at he
      · cases he
        exact hP.tabulatedMembership _ _ _ _ _ _
      · cases he

/-- The operations on terms keep the relation. -/
theorem Primitives.Encodes.preserves (hP : P.Encodes R) : (backend P).Preserves R where
  constant _ := keeps_pure _
  constant? _ := keeps_pure _
  negate := keeps_neg
  add := keeps_add
  subtract := keeps_sub
  multiply := keeps_mul
  divide := keeps_divide hP.toSteps
  power := keeps_power hP.toSteps
  absolute := keeps_absolute hP.toSteps
  minimum := keeps_extremum hP.toSteps .least
  maximum := keeps_extremum hP.toSteps .greatest
  reify := keeps_reify hP.toSteps
  complement := hP.complement
  conjoin := hP.conjoin
  disjoin := keeps_disjoin hP
  conditional := keeps_conditional hP
  firstMatch := keeps_firstMatch hP
  membership := keeps_membership hP
  lookup := keeps_lookup hP.toSteps
  keyedMembership? := keeps_keyedMembership? hP
  newInteger := keeps_newInteger hP.toSteps
  postEqual := keeps_postEqual hP.toSteps
  postComparison := keeps_postComparison hP.toSteps
  postTrue := keeps_postTrue hP.toSteps
  postDefinition _ := keeps_postEqual hP.toSteps

/-! ### Declarations -/

/-- The square of binary variables of a sequence, and the ties between it and the members. -/
theorem keeps_square (hP : P.Steps R) (name : String) (handles : List (Handle (Number α))) (n : Nat) :
    Keeps R (do
      let matrix ← (List.range n).mapM fun i => (List.range n).mapM fun column =>
        newBinary P (name ++ "_" ++ toString i ++ "_" ++ toString (column + 1))
      (handles.zip (matrix.mapIdx Prod.mk)).forM fun (h, i, row) => do
        requireOne P row
        requireOne P (matrix.filterMap (·[i]?))
        let weighted ← (row.mapIdx Prod.mk).mapM fun (column, b) =>
          LowerM.mul (integer (column + 1)) b
        let channel ← P.total weighted
        constrain P (← LowerM.sub h channel) realZero realZero
      return handles) := by
  refine keeps_bind (keeps_mapM fun _ _ => keeps_mapM fun _ _ => keeps_newBinary hP _) fun _ => ?_
  exact keeps_bind (keeps_forM fun _ _ => keeps_tied hP _ _ _ _) fun _ => keeps_pure _

theorem keeps_createSequence (hP : P.Creates R) (name : String) (members : List String) :
    Keeps R (createSequence P name members) :=
  keeps_bind (keeps_mapM fun _ _ => hP.createVariable _ _ _ _) fun _ => keeps_square hP.toSteps _ _ _

/-- A member of a sequence was created as an integer within the length of it. -/
theorem exists_run_of_createSequence (hP : P.Creates R) {name : String} {members : List String}
    {hs : List (Handle (Number α))} {s s' : LoweringState (Number α) (Encoding α σ)}
    (hr : (createSequence P name members).Runs s hs s') {h : Handle (Number α)} (hh : h ∈ hs) :
    ∃ member s₁ s₂, (createVariable P .integer Scalar.one (Scalar.ofInt members.length) member).Runs s₁ h s₂ ∧
      R s₂ s' := by
  obtain ⟨hs', t, hmembers, hr⟩ := runs_bind.mp hr
  have hafter : R t s' := related_of_runs (keeps_square hP.toSteps _ _ _) hr
  obtain ⟨_, _, -, hr⟩ := runs_bind.mp hr
  obtain ⟨_, _, -, hr⟩ := runs_bind.mp hr
  obtain ⟨rfl, -⟩ := runs_pure.mp hr
  obtain ⟨member, -, s₁, s₂, -, hcreate, hlater⟩ :=
    exists_run_of_mem_mapM (fun _ _ => hP.createVariable _ _ _ _) hmembers hh
  exact ⟨member, s₁, s₂, hcreate, keeps_trans hlater hafter⟩

theorem keeps_postObjective (hP : P.Creates R) (sense : Sense) (h : Handle (Number α)) :
    Keeps R (postObjective P sense h) := by
  refine keeps_bind (hP.createVariable _ _ _ _) fun _ => keeps_bind (keeps_sub _ _) fun _ => ?_
  refine keeps_bind (keeps_constrain hP.toSteps _ _ _) fun _ => ?_
  exact keeps_bind (hP.enterObjective _) fun _ => hP.setObjective _ _

/-- All operations keep the relation. -/
theorem Primitives.Creates.creates (hP : P.Creates R) : (backend P).Creates R where
  toPreserves := hP.toEncodes.preserves
  createVariable _ := hP.createVariable _ _ _ _
  createSequence := keeps_createSequence hP
  postObjective := keeps_postObjective hP

end

/-- Lowering a whole model, for which the tolerance is fixed first. -/
theorem keeps_lowerModel [Unaffected R] [Scalar α] {P : Primitives α σ} (hP : P.Creates R)
    (htolerance : Keeps R P.tolerance) (hepsilon : ∀ x : Number α,
      Keeps R (modifyEncoding fun e => { e with epsilon := x } : TolerantM α σ Unit))
    {c : Context α} (hR : Backend.EntersVariables R (backend P) c)
    (hterm : ∀ t, c.Contains t → Backend.KeepsWithin R (backend P) c t) : Keeps R (lowerModel P c) := by
  unfold lowerModel
  dsimp only
  split
  case' h_1 => refine keeps_bind (keeps_pure _) fun eps => ?_
  case' h_2 => refine keeps_bind htolerance fun eps => ?_
  all_goals
    refine keeps_bind (hepsilon _) fun _ => keeps_bind (keeps_log _ _ _) fun _ => ?_
    refine keeps_bind (Backend.keeps_lowerModel hP.creates hR hterm) fun _ => ?_
    exact keeps_bind keeps_getEncoding fun _ => keeps_log _ _ _

/-! ### Relations that what is noted down does not matter for -/

/-- Notes are taken: variables and ranges may be added, and handles may be marked. -/
structure Encoding.Notes (e e' : Encoding α σ) : Prop where
  epsilon_eq : e'.epsilon = e.epsilon
  solver_eq : e'.solver = e.solver
  created_subset : e.created.toList ⊆ e'.created.toList
  posted_subset : e.posted.toList ⊆ e'.posted.toList

theorem Encoding.Notes.of_same {e e' : Encoding α σ} (hepsilon : e'.epsilon = e.epsilon)
    (hsolver : e'.solver = e.solver) (hcreated : e'.created = e.created) (hposted : e'.posted = e.posted) :
    e.Notes e' := ⟨hepsilon, hsolver, by rw [hcreated]; exact List.Subset.refl _, by
  rw [hposted]; exact List.Subset.refl _⟩

/-- A relation that holds across all that the encodings note down about handles, variables and ranges. -/
class Noted
    (R : LoweringState (Number α) (Encoding α σ) → LoweringState (Number α) (Encoding α σ) → Prop) :
    Prop extends Unaffected R where
  note {s : LoweringState (Number α) (Encoding α σ)} {e : Encoding α σ} :
    s.solver.Notes e → R s { s with solver := e }

instance (J : List (NodeId × Handle (Number α)) → Prop) : Noted (Upholds (σ := Encoding α σ) J) where
  note _ h := h

variable [Noted R] {P : Primitives α σ}

theorem keeps_note {f : Encoding α σ → Encoding α σ} (hf : ∀ e, Encoding.Notes e (f e)) :
    Keeps R (modifyEncoding f : TolerantM α σ Unit) := keeps_modifySolver fun _ => Noted.note (hf _)

/-- A new variable is noted. -/
theorem keeps_noteVariable (c : Created α) (binaries : Encoding α σ → List HandleId) :
    Keeps R (modifyEncoding fun e => { e with created := e.created.push c, binaries := binaries e } :
      TolerantM α σ Unit) :=
  keeps_note fun _ => ⟨rfl, rfl, by simp [Array.toList_push], List.Subset.refl _⟩

theorem keeps_markBinary (h : Handle (Number α)) :
    Keeps R (markBinary h : TolerantM α σ (Handle (Number α))) :=
  keeps_bind (keeps_note fun _ => .of_same rfl rfl rfl rfl) fun _ => keeps_pure _

theorem Primitives.KeepAuxiliaries.steps (hP : P.KeepAuxiliaries R) : P.Steps R where
  toKeepTerms := hP.toKeepTerms
  createAuxiliary _ _ _ _ := keeps_bind_both (hP.newAuxiliary _ _ _ _) fun _ _ =>
    keeps_bind (keeps_noteVariable _ _) fun _ => keeps_pure _
  post _ := keeps_note fun _ => ⟨rfl, rfl, List.Subset.refl _, by simp [Array.toList_push]⟩

theorem Primitives.Keep.toKeepAuxiliaries (hP : P.Keep R) : P.KeepAuxiliaries R where
  toKeepTerms := hP.toKeepTerms
  newAuxiliary _ _ _ _ := keeps_bind (keeps_auxiliaryName _) fun _ => hP.newVariable _ _ _ _

variable [Scalar α]

theorem Primitives.KeepAuxiliaries.truth (hP : P.KeepAuxiliaries R) (h : Handle (Number α)) :
    Keeps R (truth P h) := by
  unfold Tolerant.truth
  split
  · exact keeps_pure _
  · exact keeps_pure _
  · refine keeps_bind keeps_getEncoding fun _ => keeps_ite (keeps_pure _) ?_
    split
    · exact keeps_pure _
    · refine keeps_bind (keeps_newTruth hP.steps _) fun _ => ?_
      exact keeps_bind (keeps_note fun _ => .of_same rfl rfl rfl rfl) fun _ => keeps_pure _

theorem Primitives.KeepAuxiliaries.conjoinFrom (hP : P.KeepAuxiliaries R) (h : Handle (Number α))
    (hs : List (Handle (Number α))) : Keeps R (conjoinFrom P h hs) := by
  induction hs generalizing h with
  | nil => exact keeps_markBinary _
  | cons k hs ih =>
    refine keeps_bind (hP.truth k) fun b => keeps_bind (keeps_gated hP.steps h b) fun _ => ?_
    exact keeps_ite (keeps_pure _) (ih _)

theorem Primitives.KeepAuxiliaries.encodes (hP : P.KeepAuxiliaries R) : P.Encodes R where
  toSteps := hP.steps
  truth := hP.truth
  complement h := by
    refine keeps_bind (hP.truth h) fun b => ?_
    split
    · exact keeps_pure _
    · exact keeps_bind (keeps_sub _ _) fun _ => keeps_markBinary _
  conjoin := hP.conjoinFrom one
  tabulatedMembership c key keys v low high := by
    refine keeps_bind (keeps_newInteger hP.steps _ _ _) fun _ => keeps_bind (keeps_sub _ _) fun _ => ?_
    refine keeps_bind (keeps_mul _ _) fun _ => keeps_bind (Backend.keeps_variableHandle c v) fun _ => ?_
    refine keeps_bind (keeps_add _ _) fun _ => keeps_bind (keeps_sub _ _) fun _ => ?_
    refine keeps_bind (keeps_sub _ _) fun _ => keeps_bind (keeps_constrain hP.steps _ _ _) fun _ => ?_
    refine keeps_bind (keeps_membershipEntries c _ _ _) fun _ => ?_
    exact keeps_bind (keeps_lookup hP.steps _ _) fun _ => keeps_markBinary _

theorem Primitives.Keep.creates (hP : P.Keep R) : P.Creates R where
  toEncodes := hP.toKeepAuxiliaries.encodes
  createVariable _ _ _ _ := keeps_bind (hP.newVariable _ _ _ _) fun _ =>
    keeps_bind (keeps_noteVariable _ _) fun _ => keeps_pure _
  setObjective := hP.setObjective
  enterObjective _ := keeps_note fun _ => .of_same rfl rfl rfl rfl

end DecisionModel.Tolerant
