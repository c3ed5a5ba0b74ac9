import DecisionModel.Proofs.Builder.Assembly

/-!
# Refused calls

Most builders check everything before they enter anything, so that a call that is refused leaves no
trace in any model (`atomic_bind`). Two write before their last check: an objective sets its sense
before its operand is converted, and a source of collections is entered before its number of keys is
made an integer. `Call.early` is what is written before the last check, and nothing else is
(`Call.refused`). So a refused call leaves all models as they were if the sense is not a new one and
the number of keys is finite (`Call.unchanged_of_refused`).
-/

namespace DecisionModel

open Build Workspace

variable {α β γ : Type} {w w' : Workspace α} {e : BuildError α}

/-- The workspaces have the same variables, families, sequences and models. -/
structure SameModels (w w' : Workspace α) : Prop extends SameTables w w' where
  sequences : w'.sequences = w.sequences
  models : w'.models = w.models

instance : Lasting (@SameModels α) where
  refl _ := ⟨⟨rfl, rfl⟩, rfl, rfl⟩
  trans _ _ _ h h' := ⟨⟨h'.vars.trans h.vars, h'.families.trans h.families⟩,
    h'.sequences.trans h.sequences, h'.models.trans h.models⟩
  nextNode _ _ := ⟨⟨rfl, rfl⟩, rfl, rfl⟩
  registerOperator _ _ := ⟨⟨by simp, by simp⟩, by simp, by simp⟩

namespace Build

/-- Where `m` refuses, it has changed no model. -/
def Atomic (m : Build α β) : Prop := ∀ ⦃w e w'⦄, m.run.run w = (.error e, w') → SameModels w w'

/-- `m` never refuses. -/
def Certain (m : Build α β) : Prop := ∀ w e w', m.run.run w ≠ (.error e, w')

theorem Atomic.of_keeps {m : Build α β} (h : Keeps SameModels m) : Atomic m := by
  intro w e w' hr
  have hw := h w
  rwa [hr] at hw

theorem Certain.atomic {m : Build α β} (h : Certain m) : Atomic m :=
  fun w e w' hr => absurd hr (h w e w')

/-- Nothing is entered before the last step that may refuse. -/
theorem atomic_bind {m : Build α β} {f : β → Build α γ} (hm : Keeps SameModels m)
    (hf : ∀ x, Atomic (f x)) : Atomic (m >>= f) := by
  intro w e w' hr
  rcases failed_bind hr with hr | ⟨x, w₁, hx, hr⟩
  · exact Atomic.of_keeps hm hr
  · have h₁ := hm w
    rw [hx] at h₁
    exact keeps_trans h₁ (hf x hr)

/-- What follows the last step that may refuse. -/
theorem atomic_bind_certain {m : Build α β} {f : β → Build α γ} (hm : Atomic m)
    (hf : ∀ x, Certain (f x)) : Atomic (m >>= f) := by
  intro w e w' hr
  rcases failed_bind hr with hr | ⟨x, w₁, -, hr⟩
  · exact hm hr
  · exact absurd hr (hf x w₁ e w')

theorem atomic_when {p : Prop} [Decidable p] {m : Build α PUnit} {f : PUnit → Build α β}
    (hm : Keeps SameModels m) (hf : Atomic (f ⟨⟩)) : Atomic (if p then m >>= f else f ⟨⟩) := by
  split
  · exact atomic_bind hm fun _ => hf
  · exact hf

theorem certain_pure (x : β) : Certain (pure x : Build α β) := fun _ _ _ h => nomatch h

theorem certain_modify (f : Workspace α → Workspace α) :
    Certain (modify f : Build α PUnit) := fun _ _ _ h => nomatch h

theorem certain_bind {m : Build α β} {f : β → Build α γ} (hm : Certain m)
    (hf : ∀ x, Certain (f x)) : Certain (m >>= f) := by
  intro w e w' hr
  rcases failed_bind hr with hr | ⟨x, w₁, -, hr⟩
  · exact hm w e w' hr
  · exact hf x w₁ e w' hr

theorem certain_get {f : Workspace α → Build α β} (hf : ∀ w, Certain (f w)) : Certain (get >>= f) :=
  certain_bind (fun _ _ _ h => nomatch h) hf

theorem certain_set (w : Workspace α) : Certain (set w : Build α PUnit) := fun _ _ _ h => nomatch h

theorem certain_mapM {f : β → Build α γ} (hf : ∀ x, Certain (f x)) (xs : List β) :
    Certain (xs.mapM f) := by
  induction xs with
  | nil => exact certain_pure _
  | cons x xs ih =>
    rw [List.mapM_cons]
    exact certain_bind (hf x) fun _ => certain_bind ih fun _ => certain_pure _

theorem certain_enterVariable (m : ModelId) (new : Variable α) : Certain (enterVariable m new) :=
  certain_get fun _ => certain_bind (certain_set _) fun _ => certain_pure _

theorem keeps_checkOwner {R : Workspace α → Workspace α → Prop} [Lasting R] (f : FamilyId)
    (new : Variable α) : Keeps R (checkOwner f new) := by
  unfold checkOwner
  split
  · exact keeps_look fun w => keeps_when (keeps_refuse _) (keeps_pure _)
  · exact keeps_pure _

/-! ### Builders of models -/

variable [Scalar α]

theorem atomic_newModel (sense : Sense) : Atomic (newModel sense : Build α ModelId) :=
  atomic_bind (keeps_wrapTerm _) fun _ =>
    (certain_get fun _ => certain_bind (certain_set _) fun _ => certain_pure _).atomic

theorem atomic_addVariable (m : ModelId) (kind : VariableKind) (name : String)
    (lower upper : Literal α) (x : Input α) : Atomic (addVariable m kind name lower upper x) :=
  atomic_bind (keeps_checkVariable m kind name lower upper x) fun _ =>
    (certain_bind (certain_enterVariable _ _) fun _ =>
      certain_bind (certain_modify _) fun _ => certain_pure _).atomic

omit [Scalar α] in
theorem atomic_addFamily (m : ModelId) (kind : VariableKind) (name : String) :
    Atomic (addFamily m kind name : Build α FamilyId) := by
  refine atomic_bind (keeps_getModel m) fun model => atomic_when (keeps_refuse _) ?_
  exact (certain_get fun _ => certain_bind (certain_set _) fun _ => certain_pure _).atomic

theorem atomic_addMember (f : FamilyId) (lower upper : Literal α) (x : Input α) :
    Atomic (addMember f lower upper x) := by
  refine atomic_bind (fun w => keeps_refl w) fun w => ?_
  split
  · exact .of_keeps (keeps_refuse _)
  · dsimp only
    rw [checkVariable_some]
    refine atomic_bind (keeps_bind (keeps_checkVariable _ _ _ _ _ x) fun _ => keeps_checkOwner _ _)
      fun _ => Certain.atomic ?_
    exact certain_bind (certain_enterVariable _ _) fun _ =>
      certain_bind (certain_modify _) fun _ => certain_pure _

theorem atomic_addSequence (m : ModelId) (name : String) (n : Literal α) :
    Atomic (addSequence m name n) := by
  unfold addSequence
  split
  · exact .of_keeps (keeps_refuse _)
  · refine atomic_bind (keeps_getModel m) fun model => ?_
    dsimp only
    split
    · exact .of_keeps (keeps_refusal _ _)
    · refine atomic_when (keeps_refuse _) (Certain.atomic ?_)
      refine certain_bind (certain_mapM (fun _ => certain_enterVariable _ _) _) fun _ => ?_
      exact certain_get fun _ => certain_bind (certain_set _) fun _ => certain_pure _

theorem atomic_addConstraint (m : ModelId) (given : Input α) : Atomic (addConstraint m given) := by
  cases given with
  | term t =>
    refine atomic_bind (keeps_wrapTerm t) fun t => ?_
    refine atomic_bind (fun w => keeps_refl w) fun w => ?_
    have hlast : Atomic (do
        modify (·.modifyModel m fun model => { model with constraints := model.constraints ++ [t] })
        return t : Build α (Term α)) :=
      (certain_bind (certain_modify _) fun _ => certain_pure _).atomic
    have hrefusal : ∀ (e : String → BuildError α) (f : PUnit → Build α (Term α)),
        Atomic (do let text ← lift (w.termText t); refuse (e text) >>= f) := fun e f =>
      .of_keeps (keeps_bind (keeps_lift _) fun _ => keeps_refusal _ f)
    dsimp only
    split
    · exact hrefusal _ _
    · split
      · split
        · exact .of_keeps (keeps_refusal _ _)
        · split
          · exact hrefusal _ _
          · exact hlast
      · exact hlast
  | literal l => exact .of_keeps (keeps_refusal _ _)
  | other kind description => exact .of_keeps (keeps_refusal _ _)

/-- The sense is set before the objective is converted. -/
theorem refused_setObjective {m : ModelId} {sense : Sense} {x : Input α}
    (hr : (setObjective m sense x).run.run w = (.error e, w')) :
    SameModels (w.modifyModel m fun model => { model with sense }) w' := by
  have hrest : Atomic (do
      let objective ← wrap x
      modify (·.modifyModel m fun model => { model with objective })
      return objective : Build α (Term α)) :=
    atomic_bind (keeps_wrap x) fun _ =>
      (certain_bind (certain_modify _) fun _ => certain_pure _).atomic
  exact hrest hr

/-- The number of keys that is given is neither negative nor finite. -/
def Endless (keyCount : Literal α) : Bool :=
  keyCount.number?.any fun n => !n.exact.isNegative && !n.exact.isFinite

theorem truncate_of_isFinite {x : Exact} (h : x.isFinite = true) : ∃ n, x.truncate = .ok n := by
  cases x with
  | finite q => exact ⟨_, rfl⟩
  | _ => exact nomatch h

/-- A source of collections is set before the number of its keys is made an integer. -/
theorem refused_setCollections {m : ModelId} {lookup : Int → LookupAnswer α} {keyCount : Literal α}
    (hr : (setCollections m lookup keyCount).run.run w = (.error e, w')) :
    SameModels (if Endless keyCount then
      w.modifyModel m fun model => { model with lookup := some lookup } else w) w' := by
  unfold setCollections at hr
  unfold Endless
  split at hr
  · rename_i hn
    rw [hn]
    exact Atomic.of_keeps (keeps_refuse _) hr
  · rename_i n hn
    simp only [hn, Option.any_some]
    split at hr
    · rename_i hneg
      rw [hneg]
      exact Atomic.of_keeps (keeps_refusal _ _) hr
    · rename_i hneg
      cases hfin : n.exact.isFinite with
      | true =>
        obtain ⟨k, hk⟩ := truncate_of_isFinite hfin
        rw [hk] at hr
        cases hr
      | false =>
        have hrest : Atomic (do
            let count ← lift n.exact.truncate
            modify (·.modifyModel m fun model => { model with keyCount := count.toNat }) :
              Build α PUnit) :=
          atomic_bind (keeps_lift _) fun _ => (certain_modify _).atomic
        simpa [hneg] using hrest hr

end Build

namespace Call

variable [Scalar α]

/-- What a refused call leaves behind: an objective its sense, and a source of collections itself if
the number of its keys is not finite. -/
def residue : Call α → Workspace α → Workspace α
  | setObjective m sense _, w => w.modifyModel m fun model => { model with sense }
  | setCollections m lookup keyCount, w =>
    if Endless keyCount then w.modifyModel m fun model => { model with lookup := some lookup }
    else w
  | _, w => w

/-- A refused call leaves its residue, and no other trace in any model. -/
theorem refused {call : Call α} (hr : call.run.run.run w = (.error e, w')) :
    SameModels (call.residue w) w' := by
  by_cases hbuilds : call.Builds
  · cases call with
    | newModel sense => exact atomic_bind_certain (atomic_newModel sense) (fun _ => certain_pure _) hr
    | addVariable m kind name lower upper x =>
      exact atomic_bind_certain (atomic_addVariable m kind name lower upper x)
        (fun _ => certain_pure _) hr
    | addFamily m kind name =>
      exact atomic_bind_certain (atomic_addFamily m kind name) (fun _ => certain_pure _) hr
    | addMember f lower upper x =>
      exact atomic_bind_certain (atomic_addMember f lower upper x) (fun _ => certain_pure _) hr
    | addSequence m name n =>
      exact atomic_bind_certain (atomic_addSequence m name n) (fun _ => certain_pure _) hr
    | addConstraint m x =>
      exact atomic_bind_certain (atomic_addConstraint m x) (fun _ => certain_pure _) hr
    | setObjective m sense x =>
      rcases failed_bind hr with hr | ⟨t, w₁, -, hr⟩
      · exact refused_setObjective hr
      · cases hr
    | setCollections m lookup keyCount =>
      rcases failed_bind hr with hr | ⟨_, w₁, -, hr⟩
      · exact refused_setCollections hr
      · cases hr
    | _ => exact hbuilds.elim
  · have hsame : SameModels w w' := Atomic.of_keeps (keeps_of_not_builds hbuilds) hr
    cases call with
    | setObjective | setCollections => exact absurd trivial hbuilds
    | _ => exact hsame

omit [Scalar α] in
theorem modifyModel_eq_self {m : ModelId} {f : Model α → Model α}
    (h : ∀ model, w.findModel m = some model → f model = model) : w.modifyModel m f = w := by
  have hmodels : w.models.modify m.index f = w.models := by
    refine Array.ext_getElem? fun i => ?_
    rw [Array.getElem?_modify]
    split
    · rename_i hi
      subst hi
      cases hm : w.models[m.index]? with
      | none => rfl
      | some model => exact congrArg some (h model hm)
    · rfl
  unfold Workspace.modifyModel
  rw [hmodels]

/-- A refused call leaves all models exactly as they were, if it sets no new sense and the number of
keys of a source of collections is finite. -/
theorem unchanged_of_refused {call : Call α} (hr : call.run.run.run w = (.error e, w'))
    (hsense : ∀ m sense x, call = .setObjective m sense x →
      ∀ model, w.findModel m = some model → model.sense = sense)
    (hcount : ∀ m lookup keyCount, call = .setCollections m lookup keyCount →
      ∀ n, keyCount.number? = some n → n.exact.isFinite = true) : SameModels w w' := by
  have hresidue : call.residue w = w := by
    cases call with
    | setObjective m sense x =>
      refine modifyModel_eq_self fun model hmodel => ?_
      rw [← hsense m sense x rfl model hmodel]
    | setCollections m lookup keyCount =>
      refine if_neg ?_
      unfold Endless
      cases hn : keyCount.number? with
      | none => simp
      | some n => simp [hcount m lookup keyCount rfl n hn]
    | _ => rfl
  rw [← hresidue]
  exact refused hr

/-- A second variable with the name of the first is refused, and so is an objective that is no
expression; its sense is the one that the model has. -/
theorem small_unchanged :
    (∃ e, (Call.addVariable ⟨0⟩ .real "x" .absent .absent (.literal .absent)).run.run.run
      Small.workspace = (.error e, Small.workspace) ∧ SameModels Small.workspace Small.workspace) ∧
    ∃ e w', (Call.setObjective ⟨0⟩ .feasible (.literal .absent)).run.run.run Small.workspace =
      (.error e, w') ∧ SameModels Small.workspace w' := by
  have hname : (Call.addVariable ⟨0⟩ .real "x" .absent .absent (.literal .absent)).run.run.run
      Small.workspace = (.error (.duplicateName .variable "x"), Small.workspace) := rfl
  have hsense : ∀ m sense x, Call.setObjective ⟨0⟩ .feasible (.literal .absent) =
      (Call.setObjective m sense x : Call Exact) →
      ∀ model, Small.workspace.findModel m = some model → model.sense = sense := by
    rintro _ _ _ ⟨⟩ model h
    cases h
    rfl
  exact ⟨⟨_, hname, unchanged_of_refused hname (fun _ _ _ h => nomatch h) fun _ _ _ h => nomatch h⟩,
    ⟨_, _, rfl, unchanged_of_refused rfl hsense fun _ _ _ h => nomatch h⟩⟩

/-- An objective that is no expression is refused after its sense was set. -/
theorem small_changed :
    ∃ e w', (Call.setObjective ⟨0⟩ .minimize (.literal .absent)).run.run.run Small.workspace =
      (.error e, w') ∧ ¬ SameModels Small.workspace w' := by
  refine ⟨_, _, rfl, fun h => ?_⟩
  have hsense := congrArg (Array.map (·.sense)) h.models
  exact absurd hsense (by decide +kernel)

end Call

end DecisionModel
