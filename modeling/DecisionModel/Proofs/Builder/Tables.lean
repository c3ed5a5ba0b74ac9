import DecisionModel.Proofs.Builder.History
import DecisionModel.Proofs.Keeps
import DecisionModel.Proofs.Workspace.Growth

/-!
# What builders do to variables and families

Only three kinds of calls change the tables of variables and families: those that declare a variable,
add a family or add a sequence. All others keep both tables, whether they refuse or not
(`keeps_of_not_adds`). What makes or checks an expression keeps every relation that is `Lasting`, and
`SameTables` is one of them. Those that add are described by their runs: after the checks of a new
variable (`checkVariable`) a variable is entered as it was checked, and a member joins its family
unless its definition selects from it (`run_addMember`).
-/

namespace DecisionModel

/-- What a model lists, and the names in use. -/
structure Listing where
  sequences : List SequenceId
  vars : List VarId
  families : List FamilyId
  variableNames : List String
  familyNames : List String
  sequenceNames : List String

/-- What is left of a model without what it is to be solved for. -/
def Model.listing {α : Type} (model : Model α) : Listing where
  sequences := model.sequences
  vars := model.vars
  families := model.families
  variableNames := model.variableNames
  familyNames := model.familyNames
  sequenceNames := model.sequenceNames

end DecisionModel

namespace DecisionModel.Build

open Workspace

/-- A relation between workspaces that holds across what expressions are made with: new identities of
nodes and new names of operators. -/
class Lasting {α : Type} (R : Workspace α → Workspace α → Prop) : Prop extends
    IsPreorder (Workspace α) R where
  nextNode (w : Workspace α) (n : Nat) : R w { w with nextNode := n }
  registerOperator (w : Workspace α) (name : String) : R w (w.registerOperator name)

/-- A relation that holds also across a change of a model that leaves what it lists. -/
class Abiding {α : Type} (R : Workspace α → Workspace α → Prop) : Prop extends Lasting R where
  modifyModel {w : Workspace α} {m : ModelId} {f : Model α → Model α} :
    (∀ model, (f model).listing = model.listing) → R w (w.modifyModel m f)

instance {α : Type} : Abiding (@SameTables α) where
  nextNode _ _ := ⟨rfl, rfl⟩
  registerOperator _ _ := ⟨by simp, by simp⟩
  modifyModel _ := ⟨rfl, rfl⟩

variable {α β γ : Type} [Scalar α] {w w₁ w₂ : Workspace α}
  {R : Workspace α → Workspace α → Prop} [Lasting R]

/-! ### Expressions -/

omit [Scalar α] in
theorem keeps_refuse (e : BuildError α) : Keeps R (refuse e : Build α β) := keeps_throw e

omit [Scalar α] in
/-- Nothing follows a refusal. -/
theorem keeps_refusal (e : BuildError α) (f : β → Build α γ) :
    Keeps R (refuse e >>= f) := fun w => keeps_refl w

omit [Scalar α] in
theorem keeps_lift (r : Except Fault β) : Keeps R (lift r : Build α β) := by
  cases r with
  | ok x => exact keeps_pure x
  | error f => exact keeps_throw _

omit [Scalar α] in
theorem keeps_node (op : Operator) (ts : List (Term α)) : Keeps R (node op ts) :=
  fun w => Lasting.nextNode w _

omit [Scalar α] in
theorem keeps_wrapTerm (t : Term α) : Keeps R (wrapTerm t) := by
  unfold wrapTerm
  exact keeps_ite (keeps_pure t) (keeps_node _ _)

theorem keeps_operand (x : Input α) : Keeps R (operand x) := by
  cases x with
  | term t => exact keeps_pure t
  | literal l =>
    refine keeps_bind (keeps_lift _) fun o => ?_
    cases o with
    | some x => exact keeps_pure _
    | none => exact keeps_refuse _
  | other kind description => exact keeps_refuse _

theorem keeps_wrap (x : Input α) : Keeps R (wrap x) :=
  keeps_bind (keeps_operand x) keeps_wrapTerm

theorem keeps_operands (xs : List (Input α)) : Keeps R (xs.mapM operand) :=
  keeps_mapM fun x _ => keeps_operand x

theorem keeps_apply (op : Operator) (xs : List (Input α)) : Keeps R (apply op xs) :=
  keeps_bind (keeps_operands xs) fun ts => keeps_node op ts

theorem keeps_calculate (op : Operator) (f : Number α → Number α → Number α) (x y : Input α) :
    Keeps R (calculate op f x y) := by
  unfold calculate
  split
  · exact keeps_pure _
  · exact keeps_map (keeps_apply op _)

theorem keeps_negate (x : Input α) : Keeps R (negate x) := by
  unfold negate
  split
  · exact keeps_pure _
  · exact keeps_map (keeps_apply _ _)

omit [Scalar α] in
theorem keeps_relateToOther (c : Comparison) (kind : String) :
    Keeps R (relateToOther c kind : Build α (Input α)) := by
  cases c <;> first | exact keeps_pure _ | exact keeps_refuse _

theorem keeps_relateToLiteral (c : Comparison) (t : Term α) (l : Literal α) :
    Keeps R (relateToLiteral c t l) := by
  unfold relateToLiteral
  split
  · exact keeps_relateToOther c _
  · exact keeps_map (keeps_apply _ _)

theorem keeps_relate (c : Comparison) (x y : Input α) : Keeps R (relate c x y) := by
  unfold relate
  split
  · unfold relateLiterals
    split
    · exact keeps_pure _
    · exact keeps_pure _
    · exact keeps_pure _
    · exact keeps_relateToOther _ _
  · exact keeps_relateToLiteral _ _ _
  · exact keeps_relateToLiteral _ _ _
  · exact keeps_map (keeps_apply _ _)
  · exact keeps_relateToOther _ _
  · exact keeps_relateToOther _ _

theorem keeps_connect (op : Operator) (x y : Input α) : Keeps R (connect op x y) :=
  keeps_bind (keeps_operand x) fun _ => keeps_bind (keeps_operand y) fun _ => keeps_node _ _

theorem keeps_complement (x : Input α) : Keeps R (complement x) := by
  refine keeps_bind (keeps_operand x) fun t => ?_
  split
  · exact keeps_wrapTerm _
  · exact keeps_refuse _
  · exact keeps_node _ _

theorem keeps_implies (x y : Input α) : Keeps R (implies x y) :=
  keeps_bind (keeps_complement x) fun _ => keeps_connect _ _ _

omit [Scalar α] in
theorem keeps_implication (x : Input α) : Keeps R (implication? x) := by
  unfold implication?
  split
  · refine keeps_ite (keeps_pure _) ?_
    exact keeps_bind (keeps_wrapTerm _) fun _ => keeps_bind (keeps_wrapTerm _) fun _ => keeps_pure _
  · exact keeps_refuse _
  · exact keeps_pure _

omit [Scalar α] in
theorem keeps_copy (x : Input α) : Keeps R (copy x) := by
  unfold copy
  split
  · exact fun w => Lasting.nextNode w _
  · exact keeps_pure _

omit [Scalar α] in
theorem keeps_registerOperator (name : String) :
    Keeps R (modify (·.registerOperator name) : Build α PUnit) :=
  keeps_modify fun w => Lasting.registerOperator w name

theorem keeps_custom (name : String) (xs : List (Input α)) : Keeps R (custom name xs) := by
  refine keeps_bind (keeps_operands xs) fun ts => keeps_when (keeps_refuse _) ?_
  have hnode : Keeps R (do
      modify (·.registerOperator name)
      node (.custom name) ts : Build α (Term α)) :=
    keeps_bind (keeps_registerOperator name) fun _ => keeps_node _ _
  dsimp only
  split
  · exact keeps_when (keeps_refuse _) (keeps_when (keeps_refuse _) (keeps_when (keeps_refuse _) hnode))
  · exact keeps_when (keeps_refuse _) (keeps_when (keeps_refuse _) hnode)

omit [Scalar α] in
theorem keeps_operatorIndex (name : String) :
    Keeps R (operatorIndex name : Build α Nat) :=
  keeps_bind (keeps_registerOperator name) fun _ => keeps_get fun w => keeps_refl w

theorem keeps_anyCollection (xs : List (Input α)) : Keeps R (anyCollection xs) := by
  induction xs with
  | nil => exact keeps_pure _
  | cons x xs ih => exact keeps_bind (keeps_operand x) fun _ => keeps_ite (keeps_pure _) ih

theorem keeps_checkSingleCollection (name : String) (xs : List (Input α)) :
    Keeps R (checkSingleCollection name xs) := by
  unfold checkSingleCollection
  refine keeps_ite (keeps_bind (keeps_anyCollection xs) fun _ => ?_) (keeps_pure _)
  exact keeps_ite (keeps_refuse _) (keeps_pure _)

theorem keeps_collection (key : Input α) : Keeps R (collection key) :=
  keeps_bind (keeps_operand key) fun _ => keeps_when (keeps_refuse _) (keeps_node _ _)

theorem keeps_checkedCustom (name : String) (xs ys : List (Input α)) :
    Keeps R (do checkSingleCollection name xs; custom name ys) :=
  keeps_bind (keeps_checkSingleCollection name xs) fun _ => keeps_custom name ys

theorem keeps_magnitude (x : Input α) : Keeps R (magnitude x) := by
  unfold magnitude
  split
  · exact keeps_pure _
  · exact keeps_map (keeps_custom _ _)

theorem keeps_entryAt (index : Input α) (values : List (Input α)) :
    Keeps R (entryAt index values) := by
  unfold entryAt
  split
  · exact keeps_refuse _
  · refine keeps_bind (keeps_checkSingleCollection _ _) fun _ => keeps_bind (keeps_operand _) fun _ => ?_
    exact keeps_ite (keeps_bind (keeps_operand _) fun _ => keeps_node _ _) (keeps_custom _ _)

/-! ### Models -/

omit [Scalar α] in
theorem keeps_itemAt (items : List β) (position : Int) :
    Keeps R (itemAt items position : Build α β) := by
  unfold itemAt
  dsimp only
  split
  · exact keeps_pure _
  · exact keeps_ite (keeps_refuse _) (keeps_refuse _)

omit [Scalar α] in
theorem keeps_familyEntry (f : FamilyId) (index : Input α) :
    Keeps R (familyEntry f index) := by
  refine keeps_look fun w => ?_
  split
  · exact fun w => Lasting.nextNode w _
  · exact keeps_bind (keeps_itemAt _ _) fun _ => keeps_pure _
  · exact keeps_refuse _

omit [Scalar α] in
theorem keeps_sequenceEntry (q : SequenceId) (index : Input α) :
    Keeps R (sequenceEntry q index) := by
  refine keeps_look fun w => ?_
  split
  · exact keeps_bind (keeps_itemAt _ _) fun _ => keeps_pure _
  · exact keeps_refuse _

theorem keeps_newModel (sense : Sense) : Keeps SameTables (newModel sense : Build α ModelId) :=
  keeps_bind (keeps_wrapTerm _) fun _ => keeps_get fun _ => ⟨rfl, rfl⟩

section

variable {R : Workspace α → Workspace α → Prop} [Abiding R]

omit [Scalar α] in
theorem keeps_modifyModel (m : ModelId) {f : Model α → Model α}
    (hf : ∀ model, (f model).listing = model.listing) :
    Keeps R (modify (·.modifyModel m f) : Build α PUnit) :=
  keeps_modify fun _ => Abiding.modifyModel hf

theorem keeps_setObjective (m : ModelId) (sense : Sense) (objective : Input α) :
    Keeps R (setObjective m sense objective) := by
  refine keeps_bind (keeps_modifyModel m fun _ => rfl) fun _ => ?_
  refine keeps_bind (keeps_wrap objective) fun _ => ?_
  exact keeps_bind (keeps_modifyModel m fun _ => rfl) fun _ => keeps_pure _

theorem keeps_addConstraint (m : ModelId) (given : Input α) : Keeps R (addConstraint m given) := by
  cases given with
  | term t =>
    refine keeps_bind (keeps_wrapTerm t) fun t => keeps_look fun w => ?_
    have hlast : Keeps R (do
        modify (·.modifyModel m fun model => { model with constraints := model.constraints ++ [t] })
        return t : Build α (Term α)) :=
      keeps_bind (keeps_modifyModel m fun _ => rfl) fun _ => keeps_pure t
    have hrefusal : ∀ (e : String → BuildError α) (f : PUnit → Build α (Term α)),
        Keeps R (do let text ← lift (w.termText t); refuse (e text) >>= f) := fun e f =>
      keeps_bind (keeps_lift _) fun _ => keeps_refusal _ f
    dsimp only
    split
    · exact hrefusal _ _
    · split
      · split
        · exact keeps_refusal _ _
        · split
          · exact hrefusal _ _
          · exact hlast
      · exact hlast
  | literal l => exact keeps_refusal _ _
  | other kind description => exact keeps_refusal _ _

theorem keeps_setCollections (m : ModelId) (lookup : Int → LookupAnswer α) (keyCount : Literal α) :
    Keeps R (setCollections m lookup keyCount) := by
  unfold setCollections
  split
  · exact keeps_refuse _
  · refine keeps_when (keeps_refuse _) (keeps_bind (keeps_modifyModel m fun _ => rfl) fun _ => ?_)
    exact keeps_bind (keeps_lift _) fun _ => keeps_modifyModel m fun _ => rfl

end

/-! ### Checks of a new variable -/

omit [Scalar α] in
theorem keeps_getModel (m : ModelId) : Keeps R (getModel m : Build α (Model α)) := by
  refine keeps_look fun w => ?_
  split
  · exact keeps_pure _
  · exact keeps_refuse _

theorem keeps_definitionOf (x : Input α) : Keeps R (definitionOf x) := by
  unfold definitionOf
  split
  · exact keeps_pure _
  · exact keeps_map (keeps_wrap x)

theorem keeps_boundOr (default : α) (given : Literal α) :
    Keeps R (boundOr default given) :=
  keeps_bind (keeps_lift _) fun _ => keeps_pure _

/-- What makes a member be refused for the sake of its family. -/
def checkOwner (family : FamilyId) (new : Variable α) : Build α (Variable α) := do
  if let some t := new.definition then
    let w ← get
    if w.selectsFrom family t then refuse (.ownFamily new.name (w.familyName family))
  return new

/-- A new member is checked as any new variable is, and then with regard to its family. -/
theorem checkVariable_some (m : ModelId) (kind : VariableKind) (name : String)
    (lower upper : Literal α) (definition : Input α) (family : FamilyId) :
    checkVariable m kind name lower upper definition (some family) =
      checkVariable m kind name lower upper definition none >>= checkOwner family := by
  simp only [checkVariable, bind_assoc]
  refine bind_congr fun model => ?_
  split
  · rw [bind_assoc]
    rfl
  · simp only [bind_assoc]
    refine bind_congr fun o => bind_congr fun lower => bind_congr fun upper => ?_
    split
    · rw [bind_assoc]
      rfl
    · cases o with
      | none => simp [checkOwner]
      | some t => simp [checkOwner]

theorem keeps_checkVariable (m : ModelId) (kind : VariableKind) (name : String)
    (lower upper : Literal α) (definition : Input α) :
    Keeps R (checkVariable m kind name lower upper definition none) := by
  refine keeps_bind (keeps_getModel m) fun model => keeps_when (keeps_refuse _) ?_
  refine keeps_bind (keeps_definitionOf _) fun o => ?_
  refine keeps_bind (keeps_boundOr _ _) fun low => keeps_bind (keeps_boundOr _ _) fun high => ?_
  refine keeps_when (keeps_refuse _) ?_
  cases o with
  | none => exact keeps_pure _
  | some t => exact keeps_pure _

end DecisionModel.Build

namespace DecisionModel

open Build Workspace

variable {α : Type} [Scalar α] {w w₁ : Workspace α}

/-- The variables of what is given are in the workspace. -/
def Input.Declared (w : Workspace α) : Input α → Prop
  | .term t => w.DeclaresAll t
  | _ => True

omit [Scalar α] in
theorem Input.Declared.same {x : Input α} (hx : x.Declared w) (h : SameTables w w₁) :
    x.Declared w₁ := by
  cases x with
  | term t => exact h.declaresAll.mpr hx
  | literal l => trivial
  | other kind description => trivial

namespace Build

omit [Scalar α] in
theorem declaresAll_wrapTerm {t t' : Term α} (ht : w.DeclaresAll t)
    (h : (wrapTerm t).run.run w = (.ok t', w₁)) : w.DeclaresAll t' := by
  unfold wrapTerm at h
  split at h
  · cases h
    exact ht
  · cases h
    intro v hv
    obtain ⟨s, hs, hvs⟩ := Term.mem_mentionsAll.mp hv
    obtain rfl := List.mem_singleton.mp hs
    exact ht v hvs

omit [Scalar α] in
theorem same_of_run {β : Type} {m : Build α β} {r : Except (BuildError α) β}
    (hm : Keeps SameTables m) (h : m.run.run w = (r, w₁)) : SameTables w w₁ := by
  have hw := hm w
  rw [h] at hw
  exact hw

theorem declaresAll_operand {x : Input α} {t : Term α} (hx : x.Declared w)
    (h : (operand x).run.run w = (.ok t, w₁)) : w.DeclaresAll t := by
  cases x with
  | term s =>
    cases h
    exact hx
  | literal l =>
    obtain ⟨o, w₂, -, h⟩ := exists_of_run_bind h
    cases o with
    | some x =>
      cases h
      intro v hv
      cases hv
    | none => cases h
  | other kind description => cases h

theorem declaresAll_definitionOf {x : Input α} {o : Option (Term α)} (hx : x.Declared w)
    (h : (definitionOf x).run.run w = (.ok o, w₁)) : ∀ t, o = some t → w.DeclaresAll t := by
  unfold definitionOf at h
  split at h
  · cases h
    simp
  · rw [← bind_pure_comp] at h
    obtain ⟨t, w₂, hwrap, h⟩ := exists_of_run_bind h
    obtain ⟨s, w₃, hs, ht⟩ := exists_of_run_bind hwrap
    cases h
    intro t' ht'
    cases ht'
    have hsame : SameTables w w₃ := same_of_run (keeps_operand x) hs
    have hgiven := hsame.declaresAll.mpr (declaresAll_operand hx hs)
    exact hsame.declaresAll.mp (declaresAll_wrapTerm hgiven ht)

/-- The definition of a new variable has only variables of the workspace if the one given has. -/
theorem declaresAll_checkVariable {m : ModelId} {kind : VariableKind} {name : String}
    {lower upper : Literal α} {x : Input α} {new : Variable α} (hx : x.Declared w)
    (h : (checkVariable m kind name lower upper x none).run.run w = (.ok new, w₁)) :
    ∀ t, new.definition = some t → w.DeclaresAll t := by
  obtain ⟨model, w₂, hmodel, h⟩ := exists_of_run_bind h
  have hsame : SameTables w w₂ := same_of_run (keeps_getModel m) hmodel
  dsimp only at h
  split at h
  · obtain ⟨_, _, h, -⟩ := exists_of_run_bind h
    cases h
  · obtain ⟨o, w₃, hdef, h⟩ := exists_of_run_bind h
    obtain ⟨low, w₄, -, h⟩ := exists_of_run_bind h
    obtain ⟨high, w₅, -, h⟩ := exists_of_run_bind h
    have hnew : new.definition = o := by
      split at h
      · obtain ⟨_, _, h, -⟩ := exists_of_run_bind h
        cases h
      · cases o <;> cases h <;> rfl
    intro t ht
    refine hsame.declaresAll.mp (declaresAll_definitionOf (hx.same hsame) hdef t ?_)
    rw [← hnew, ht]

/-! ### What is added -/

omit [Scalar α] in
theorem run_enterVariable (w : Workspace α) (m : ModelId) (new : Variable α) :
    ∃ w', (enterVariable m new).run.run w = (.ok w.nextVariable, w') ∧
      SameTables (w.withVariable new) w' := ⟨_, rfl, rfl, rfl⟩

variable {m : ModelId} {kind : VariableKind} {name : String} {lower upper : Literal α} {x : Input α}
  {new : Variable α} {f : FamilyId} {family : Family} {e : BuildError α}

/-- A variable that passes the checks is declared. -/
theorem run_addVariable
    (h : (checkVariable m kind name lower upper x none).run.run w = (.ok new, w₁)) :
    ∃ w', (addVariable m kind name lower upper x).run.run w = (.ok w₁.nextVariable, w') ∧
      SameTables (w₁.withVariable new) w' := by
  unfold addVariable
  rw [run_bind_of_ok h]
  exact ⟨_, rfl, rfl, rfl⟩

/-- The name of the next member of a family. -/
def memberName (family : Family) : String :=
  family.name ++ "[" ++ toString family.members.length ++ "]"

/-- The checks of a member, before its definition is compared with the family it joins. -/
abbrev checkMember (family : Family) (lower upper : Literal α) (x : Input α) : Build α (Variable α) :=
  checkVariable family.model family.kind (memberName family) lower upper x none

theorem addMember_eq (hf : w.findFamily f = some family) :
    (addMember f lower upper x).run.run w =
      ((checkMember family lower upper x >>= checkOwner f) >>= fun new => do
        let id ← enterVariable family.model new
        modify fun w =>
          { w with families := w.families.modify f.index fun family =>
              { family with members := family.members ++ [id] } }
        return id).run.run w := by
  rw [← checkVariable_some]
  unfold addMember
  rw [run_get_bind]
  simp only [hf]
  rfl

omit [Scalar α] in
theorem run_checkOwner (hsel : ∀ t, new.definition = some t → w.selectsFrom f t = false) :
    (checkOwner f new).run.run w = (.ok new, w) := by
  unfold checkOwner
  rcases ht : new.definition with _ | t
  · rfl
  · dsimp only
    rw [run_get_bind, if_neg (by simp [hsel t ht])]
    rfl

omit [Scalar α] in
theorem run_checkOwner_refused {t : Term α} (ht : new.definition = some t)
    (hsel : w.selectsFrom f t = true) :
    (checkOwner f new).run.run w = (.error (.ownFamily new.name (w.familyName f)), w) := by
  unfold checkOwner
  rw [ht]
  dsimp only
  rw [run_get_bind, if_pos hsel]
  rfl

/-- A member that passes the checks joins its family if its definition does not select from it. -/
theorem run_addMember (hf : w.findFamily f = some family)
    (h : (checkMember family lower upper x).run.run w = (.ok new, w₁))
    (hsel : ∀ t, new.definition = some t → w₁.selectsFrom f t = false) :
    ∃ w', (addMember f lower upper x).run.run w = (.ok w₁.nextVariable, w') ∧
      SameTables (w₁.withMember f new) w' := by
  rw [addMember_eq hf, run_bind_of_ok ((run_bind_of_ok h).trans (run_checkOwner hsel))]
  exact ⟨_, rfl, rfl, rfl⟩

/-- A member whose definition selects from its family is refused. -/
theorem run_addMember_refused {t : Term α} (hf : w.findFamily f = some family)
    (h : (checkMember family lower upper x).run.run w = (.ok new, w₁))
    (ht : new.definition = some t) (hsel : w₁.selectsFrom f t = true) :
    (addMember f lower upper x).run.run w =
      (.error (.ownFamily new.name (w₁.familyName f)), w₁) := by
  rw [addMember_eq hf]
  exact run_bind_of_error ((run_bind_of_ok h).trans (run_checkOwner_refused ht hsel))

/-- There are no members without a family. -/
theorem run_addMember_of_none (hf : w.findFamily f = none) :
    (addMember f lower upper x).run.run w = (.error .badPosition, w) := by
  unfold addMember
  rw [run_get_bind, hf]
  rfl

/-- A member that does not pass the checks is refused for the same reason. -/
theorem run_addMember_of_error (hf : w.findFamily f = some family)
    (h : (checkMember family lower upper x).run.run w = (.error e, w₁)) :
    (addMember f lower upper x).run.run w = (.error e, w₁) := by
  rw [addMember_eq hf]
  exact run_bind_of_error (run_bind_of_error h)

end Build

end DecisionModel
