import DecisionModel.Proofs.Builder.Tables

/-!
# Assembled workspaces

A workspace is `Assembled` if calls of builders lead to it from the empty one, in any order, refused
ones among them. What is handed in may be any term over variables of the workspace, also one whose
nodes are made by hand. After every such call definitions and families refer to variables of the
workspace, and no variable depends on itself (`Assembled.stratified`).
-/

namespace DecisionModel

open Build Workspace

variable {α β : Type} [Scalar α] {w w₁ : Workspace α}

/-- Where the first workspace is stratified the second one is. -/
def StaysStratified (w w' : Workspace α) : Prop := w.Stratified → w'.Stratified

instance : IsPreorder (Workspace α) StaysStratified where
  refl _ := id
  trans _ _ _ h h' := h' ∘ h

omit [Scalar α] in
theorem staysStratified_of_sameTables {w w' : Workspace α} (h : SameTables w w') :
    StaysStratified w w' := fun hw => hw.same h

namespace Build

omit [Scalar α] in
theorem keeps_stratified {m : Build α β} (h : Keeps SameTables m) : Keeps StaysStratified m :=
  h.mono fun _ _ => staysStratified_of_sameTables

omit [Scalar α] in
/-- A variable without a definition is entered. -/
theorem keeps_enterVariable (m : ModelId) {new : Variable α} (hnew : new.definition = none) :
    Keeps StaysStratified (enterVariable m new) := by
  intro w hw
  obtain ⟨w', hrun, hsame⟩ := run_enterVariable w m new
  rw [hrun]
  exact (hw.withVariable (by simp [hnew])).same hsame

omit [Scalar α] in
theorem keeps_addFamily (m : ModelId) (kind : VariableKind) (name : String) :
    Keeps StaysStratified (addFamily m kind name : Build α FamilyId) := by
  refine keeps_bind (keeps_stratified (keeps_getModel m)) fun model => ?_
  refine keeps_when (keeps_stratified (keeps_refuse _)) (keeps_get fun w hw => ?_)
  have hfamily : (w.withFamily { model := m, kind, name }).Stratified := hw.withFamily rfl
  exact hfamily.same ⟨rfl, rfl⟩

theorem keeps_addSequence (m : ModelId) (name : String) (n : Literal α) :
    Keeps StaysStratified (addSequence m name n) := by
  unfold addSequence
  split
  · exact keeps_stratified (keeps_refuse _)
  · refine keeps_bind (keeps_stratified (keeps_getModel m)) fun model => ?_
    have hlast : ∀ (k : Nat) (names : List String), Keeps StaysStratified (do
        let members ← names.mapM fun memberName => enterVariable m
          { kind := .integer, name := memberName, lower := Scalar.one, upper := Scalar.ofInt k }
        let w ← get
        let id : SequenceId := ⟨w.sequences.size⟩
        let w := { w with sequences := w.sequences.push { name, members } }
        set (w.modifyModel m fun model =>
          { model with
            sequenceNames := name :: model.sequenceNames
            sequences := model.sequences ++ [id] })
        return id : Build α SequenceId) := fun k names =>
      keeps_bind (keeps_mapM fun _ _ => keeps_enterVariable m rfl) fun _ =>
        keeps_get fun w hw => hw.same ⟨rfl, rfl⟩
    dsimp only
    split
    · exact keeps_stratified (keeps_refusal _ _)
    · exact keeps_when (keeps_stratified (keeps_refuse _)) (hlast _ _)

/-- The tables after the checks of a new variable, and the variables of its definition. -/
theorem checked {m : ModelId} {kind : VariableKind} {name : String} {lower upper : Literal α}
    {x : Input α} {new : Variable α} (hx : x.Declared w)
    (h : (checkVariable m kind name lower upper x none).run.run w = (.ok new, w₁)) :
    SameTables w w₁ ∧ ∀ t, new.definition = some t → w₁.DeclaresAll t := by
  have hsame : SameTables w w₁ := same_of_run (keeps_checkVariable m kind name lower upper x) h
  exact ⟨hsame, fun t ht => hsame.declaresAll.mpr (declaresAll_checkVariable hx h t ht)⟩

theorem stratified_addVariable (hw : w.Stratified) {m : ModelId} {kind : VariableKind} {name : String}
    {lower upper : Literal α} {x : Input α} (hx : x.Declared w) :
    ((addVariable m kind name lower upper x).run.run w).2.Stratified := by
  rcases hcheck : (checkVariable m kind name lower upper x none).run.run w with ⟨e | new, w₁⟩
  · rw [show (addVariable m kind name lower upper x).run.run w = _ from run_bind_of_error hcheck]
    exact hw.same (same_of_run (keeps_checkVariable m kind name lower upper x) hcheck)
  · obtain ⟨hsame, hnew⟩ := checked hx hcheck
    obtain ⟨w', hrun, hsame'⟩ := run_addVariable hcheck
    rw [hrun]
    exact ((hw.same hsame).withVariable hnew).same hsame'

omit [Scalar α] in
/-- A member whose definition does not select from its family closes no cycle. -/
theorem stratified_withMember (hw : w.Stratified) {f : FamilyId} {family : Family} {new : Variable α}
    (hf : w.findFamily f = some family) (hnew : ∀ t, new.definition = some t → w.DeclaresAll t)
    (hsel : ∀ t, new.definition = some t → w.selectsFrom f t = false) :
    (w.withMember f new).Stratified := by
  refine hw.withMember hf hnew fun hcycle => ?_
  obtain ⟨t, ht⟩ := exists_of_onCycle_withMember hcycle
  have hselects := (onCycle_withMember_iff hw.closed hf ht (hnew t ht)).mp hcycle
  rw [← selectsFrom_iff hw.closed (hnew t ht), hsel t ht] at hselects
  cases hselects

theorem stratified_addMember (hw : w.Stratified) {f : FamilyId} {lower upper : Literal α}
    {x : Input α} (hx : x.Declared w) :
    ((addMember f lower upper x).run.run w).2.Stratified := by
  rcases hf : w.findFamily f with _ | family
  · rw [run_addMember_of_none hf]
    exact hw
  rcases hcheck : (checkMember family lower upper x).run.run w with ⟨e | new, w₁⟩
  · rw [run_addMember_of_error hf hcheck]
    exact hw.same (same_of_run (keeps_checkVariable _ _ _ lower upper x) hcheck)
  · obtain ⟨hsame, hnew⟩ := checked hx hcheck
    have hw₁ := hw.same hsame
    by_cases hsel : ∃ t, new.definition = some t ∧ w₁.selectsFrom f t = true
    · obtain ⟨t, ht, hsel⟩ := hsel
      rw [run_addMember_refused hf hcheck ht hsel]
      exact hw₁
    · have hsel' : ∀ t, new.definition = some t → w₁.selectsFrom f t = false := fun t ht =>
        Bool.eq_false_iff.mpr fun h => hsel ⟨t, ht, h⟩
      obtain ⟨w', hrun, hsame'⟩ := run_addMember hf hcheck hsel'
      rw [hrun]
      exact (stratified_withMember hw₁ (hsame.findFamily ▸ hf) hnew hsel').same hsame'

omit [Scalar α] in
/-- What is returned has no effect on the workspace. -/
theorem state_return {γ : Type} (m : Build α β) (g : β → γ) :
    ((do let x ← m; return g x : Build α γ).run.run w).2 = (m.run.run w).2 := by
  rcases hm : m.run.run w with ⟨e | x, w₁⟩
  · rw [run_bind_of_error hm]
  · rw [run_bind_of_ok hm]
    rfl

end Build

/-! ### Calls -/

namespace Call

/-- The call declares variables or adds a family. -/
def Adds : Call α → Prop
  | addVariable .. | addMember .. | addFamily .. | addSequence .. => True
  | _ => False

/-- The call makes a model or changes what one has. -/
def Builds : Call α → Prop
  | newModel .. | addVariable .. | addFamily .. | addMember .. | addSequence .. | setObjective ..
  | addConstraint .. | setCollections .. => True
  | _ => False

/-- All other calls make expressions only. -/
theorem keeps_of_not_builds {R : Workspace α → Workspace α → Prop} [Lasting R] {call : Call α}
    (h : ¬ call.Builds) : Keeps R call.run := by
  cases call with
  | wrap x => exact keeps_bind (keeps_wrap x) fun _ => keeps_pure _
  | add x y => exact keeps_bind (keeps_calculate _ _ x y) fun _ => keeps_pure _
  | subtract x y => exact keeps_bind (keeps_calculate _ _ x y) fun _ => keeps_pure _
  | multiply x y => exact keeps_bind (keeps_calculate _ _ x y) fun _ => keeps_pure _
  | divide x y => exact keeps_bind (keeps_calculate _ _ x y) fun _ => keeps_pure _
  | negate x => exact keeps_bind (keeps_negate x) fun _ => keeps_pure _
  | magnitude x => exact keeps_bind (keeps_magnitude x) fun _ => keeps_pure _
  | relate c x y => exact keeps_bind (keeps_relate c x y) fun _ => keeps_pure _
  | conjoin x y => exact keeps_bind (keeps_connect _ x y) fun _ => keeps_pure _
  | disjoin x y => exact keeps_bind (keeps_connect _ x y) fun _ => keeps_pure _
  | complement x => exact keeps_bind (keeps_complement x) fun _ => keeps_pure _
  | implies x y => exact keeps_bind (keeps_implies x y) fun _ => keeps_pure _
  | implication x =>
    refine keeps_bind (keeps_implication x) fun o => ?_
    split
    · exact keeps_pure _
    · exact keeps_pure _
  | copy x => exact keeps_bind (keeps_copy x) fun _ => keeps_pure _
  | custom name xs => exact keeps_bind (keeps_custom name xs) fun _ => keeps_pure _
  | operatorIndex name => exact keeps_bind (keeps_operatorIndex name) fun _ => keeps_pure _
  | aggregate name xs => exact keeps_bind (keeps_checkedCustom name xs xs) fun _ => keeps_pure _
  | collection x => exact keeps_bind (keeps_collection x) fun _ => keeps_pure _
  | elementOf x xs => exact keeps_bind (keeps_checkedCustom _ xs _) fun _ => keeps_pure _
  | notElementOf x xs => exact keeps_bind (keeps_checkedCustom _ xs _) fun _ => keeps_pure _
  | entryAt x xs => exact keeps_bind (keeps_entryAt x xs) fun _ => keeps_pure _
  | familyEntry f x => exact keeps_bind (keeps_familyEntry f x) fun _ => keeps_pure _
  | sequenceEntry q x => exact keeps_bind (keeps_sequenceEntry q x) fun _ => keeps_pure _
  | newModel | addVariable | addFamily | addMember | addSequence | setObjective | addConstraint
  | setCollections => exact absurd trivial h

/-- All calls that neither add nor make a model leave what the models list. -/
theorem keeps_of_not_lists {R : Workspace α → Workspace α → Prop} [Abiding R] {call : Call α}
    (h : ¬ call.Adds) (hnew : ∀ sense, call ≠ .newModel sense) : Keeps R call.run := by
  by_cases hbuilds : call.Builds
  · cases call with
    | setObjective m sense x => exact keeps_bind (keeps_setObjective m sense x) fun _ => keeps_pure _
    | addConstraint m x => exact keeps_bind (keeps_addConstraint m x) fun _ => keeps_pure _
    | setCollections m lookup keyCount =>
      exact keeps_bind (keeps_setCollections m lookup keyCount) fun _ => keeps_pure _
    | newModel sense => exact absurd rfl (hnew sense)
    | addVariable | addMember | addFamily | addSequence => exact absurd trivial h
    | _ => exact hbuilds.elim
  · exact keeps_of_not_builds hbuilds

/-- All calls that do not add leave variables and families as they are. -/
theorem keeps_of_not_adds {call : Call α} (h : ¬ call.Adds) : Keeps SameTables call.run := by
  by_cases hnew : ∃ sense, call = .newModel sense
  · obtain ⟨sense, rfl⟩ := hnew
    exact keeps_bind (keeps_newModel sense) fun _ => keeps_pure _
  · exact keeps_of_not_lists h fun sense hcall => hnew ⟨sense, hcall⟩

/-- A call whose terms have only variables of the workspace leaves it stratified, whether it refuses
or not. -/
theorem stratified (call : Call α) (hw : w.Stratified) (hx : ∀ x ∈ call.inputs, x.Declared w) :
    (call.run.run.run w).2.Stratified := by
  by_cases h : call.Adds
  · cases call with
    | addVariable m kind name lower upper x =>
      rw [run, state_return]
      exact stratified_addVariable hw (hx x (by simp [inputs]))
    | addMember f lower upper x =>
      rw [run, state_return]
      exact stratified_addMember hw (hx x (by simp [inputs]))
    | addFamily m kind name =>
      rw [run, state_return]
      exact keeps_addFamily m kind name w hw
    | addSequence m name n =>
      rw [run, state_return]
      exact keeps_addSequence m name n w hw
    | _ => exact h.elim
  · exact hw.same (keeps_of_not_adds h w)

end Call

/-- A workspace that calls of builders lead to. Their terms have only variables that are declared when
the call is made. -/
inductive Assembled : Workspace α → Prop
  | start : Assembled {}
  | step {w : Workspace α} (call : Call α) : Assembled w → (∀ x ∈ call.inputs, x.Declared w) →
    Assembled (call.run.run.run w).2

omit [Scalar α] in
theorem stratified_empty : ({} : Workspace α).Stratified where
  closed := by
    refine ⟨fun hdef => ?_, fun hm => ?_⟩
    · simp [Workspace.definition?, findVariable] at hdef
    · simp [Workspace.members, findFamily] at hm
  acyclic v h := by
    obtain ⟨u, ⟨t, hdef, -⟩, -⟩ := Relation.TransGen.head'_iff.mp h
    simp [Workspace.definition?, findVariable] at hdef

/-- Definitions never become circular. -/
theorem Assembled.stratified (h : Assembled w) : w.Stratified := by
  induction h with
  | start => exact stratified_empty
  | step call _ hx ih => exact call.stratified ih hx

/-! ### The small model -/

namespace Small

/-- The small model, call by call. -/
def calls : List (Call Exact) :=
  [.newModel .feasible, .addVariable ⟨0⟩ .integer "x" (.int 1) (.int 5) (.literal .absent),
    .add (.term (.var ⟨0⟩)) (.literal (.int 1)),
    .addVariable ⟨0⟩ .integer "y" .absent .absent (.term successor),
    .relate .ge (.term (.var ⟨1⟩)) (.literal (.int 3)), .addConstraint ⟨0⟩ (.term constraint)]

theorem assembled : Assembled workspace := by
  have h : Assembled (calls.foldl (fun w call => (call.run.run.run w).2) {}) := by
    refine .step _ (.step _ (.step _ (.step _ (.step _ (.step _ .start ?_) ?_) ?_) ?_) ?_) ?_
    all_goals
      simp [Call.inputs, Input.Declared, Workspace.DeclaresAll, Term.mentions, Term.mentionsAll,
        successor, constraint]
    all_goals exact Nat.lt_succ_self _
  exact h

end Small

end DecisionModel
