import Std.Data.String.ToNat
import DecisionModel.Proofs.Builder.Refusal

/-!
# What builders enter

A successful call of a builder is described by what the workspace has afterwards: new variables under
certain names, and a changed listing of one model (`Enters`). Several entries in a row add up
(`Enters.trans`), so that the members of a sequence are entered as a single variable is. Each builder
that adds has a lemma that says what it has checked and what it has entered (`run_addVariable_ok` and
its siblings).
-/

namespace DecisionModel

open Build Workspace

variable {α : Type} {w w' w₁ w₂ : Workspace α} {m : ModelId} {l : Listing} {v : VarId}

/-- The name of the entry at a position of a family or a sequence. -/
def entryName (base : String) (i : Nat) : String := base ++ "[" ++ toString i ++ "]"

/-- The names of the entries of a family or a sequence with `n` of them. -/
def entryNames (base : String) (n : Nat) : List String := (List.range n).map (entryName base)

theorem entryName_injective (base : String) : Function.Injective (entryName base) := by
  intro i j h
  simp only [entryName, String.append_assoc, String.append_right_inj] at h
  exact Nat.repr_injective ((String.append_left_inj _).mp h)

theorem nodup_entryNames (base : String) (n : Nat) : (entryNames base n).Nodup :=
  List.nodup_range.map (entryName_injective base)

theorem entryNames_succ (base : String) (n : Nat) :
    entryNames base (n + 1) = entryNames base n ++ [entryName base n] := by
  simp [entryNames, List.range_succ]

/-- Names by position are what the list of names says. -/
theorem eq_entryName {vs : List VarId} {name : VarId → String} {base : String}
    (h : vs.map name = entryNames base vs.length) {i : Nat} (hv : vs[i]? = some v) :
    name v = entryName base i := by
  have hi : i < vs.length := (List.getElem?_eq_some_iff.mp hv).1
  have hname : (vs.map name)[i]? = some (name v) := by rw [List.getElem?_map, hv]; rfl
  rw [h, entryNames, List.getElem?_map, List.getElem?_range hi] at hname
  exact (Option.some.inj hname).symm

namespace Workspace

/-- The listing of a model, if there is one. -/
def listing? (w : Workspace α) (m : ModelId) : Option Listing := (w.findModel m).map (·.listing)

/-- The variables that are declared in the second workspace and not in the first. -/
def newVariables (w w' : Workspace α) : List VarId :=
  (List.range' w.vars.size (w'.vars.size - w.vars.size)).map VarId.mk

theorem newVariables_eq_nil (h : w'.vars.size = w.vars.size) : w.newVariables w' = [] := by
  simp [newVariables, h]

theorem newVariables_trans (h₁ : w.vars.size ≤ w₁.vars.size) (h₂ : w₁.vars.size ≤ w₂.vars.size) :
    w.newVariables w₂ = w.newVariables w₁ ++ w₁.newVariables w₂ := by
  have hsize : w₂.vars.size - w.vars.size =
      w₁.vars.size - w.vars.size + (w₂.vars.size - w₁.vars.size) := by omega
  have hstart : w.vars.size + (w₁.vars.size - w.vars.size) = w₁.vars.size := by omega
  rw [newVariables, hsize, ← List.range'_append_1, hstart, List.map_append]
  rfl

theorem declares_of_mem_newVariables (h : v ∈ w.newVariables w') : w'.Declares v := by
  simp only [newVariables, List.mem_map, List.mem_range'_1] at h
  obtain ⟨i, hi, rfl⟩ := h
  simp only [Declares]
  omega

theorem variableName_congr (h : w'.findVariable v = w.findVariable v) :
    w'.variableName v = w.variableName v := by simp [variableName, h]

theorem findFamily_congr (h : w'.families = w.families) (f : FamilyId) :
    w'.findFamily f = w.findFamily f := by simp [findFamily, h]

theorem findSequence_congr (h : w'.sequences = w.sequences) (q : SequenceId) :
    w'.findSequence q = w.findSequence q := by simp [findSequence, h]

theorem members_congr {f : FamilyId} (h : w'.findFamily f = w.findFamily f) :
    w'.members f = w.members f := by simp [members, h]

theorem familyName_congr {f : FamilyId} (h : w'.findFamily f = w.findFamily f) :
    w'.familyName f = w.familyName f := by simp [familyName, h]

theorem sequenceMembers_congr {q : SequenceId} (h : w'.findSequence q = w.findSequence q) :
    w'.sequenceMembers q = w.sequenceMembers q := by simp [sequenceMembers, h]

theorem sequenceName_congr {q : SequenceId} (h : w'.findSequence q = w.findSequence q) :
    w'.sequenceName q = w.sequenceName q := by simp [sequenceName, h]

/-- The second workspace still has the variables of the first one. -/
structure KeepsVariables (w w' : Workspace α) : Prop where
  size : w.vars.size ≤ w'.vars.size
  find {v : VarId} : w.Declares v → w'.findVariable v = w.findVariable v

theorem KeepsVariables.map_variableName (h : KeepsVariables w w') {vs : List VarId}
    (hvs : ∀ v ∈ vs, w.Declares v) : vs.map w'.variableName = vs.map w.variableName :=
  List.map_congr_left fun v hv => variableName_congr (h.find (hvs v hv))

end Workspace

/-! ### Variables that are entered -/

theorem findModel_modifyModel_self (f : Model α → Model α) :
    (w.modifyModel m f).findModel m = (w.findModel m).map f := by
  simp [Workspace.modifyModel, Workspace.findModel, Array.getElem?_modify]

theorem findModel_modifyModel_of_ne {m' : ModelId} (f : Model α → Model α) (h : m' ≠ m) :
    (w.modifyModel m f).findModel m' = w.findModel m' := by
  have hne : ¬ m.index = m'.index := fun hi => h (by cases m; cases m'; simp_all)
  simp [Workspace.modifyModel, Workspace.findModel, Array.getElem?_modify, hne]

/-- The second workspace has the variables with these names in addition, and the listing of the model
is changed by `g`. -/
structure Enters (w : Workspace α) (m : ModelId) (names : List String) (g : Listing → Listing)
    (w' : Workspace α) : Prop where
  size : w'.vars.size = w.vars.size + names.length
  find {v : VarId} : w.Declares v → w'.findVariable v = w.findVariable v
  named : (w.newVariables w').map w'.variableName = names
  listing : w'.listing? m = (w.listing? m).map g
  other {m' : ModelId} : m' ≠ m → w'.listing? m' = w.listing? m'

namespace Enters

variable {names names₁ names₂ : List String} {g g₁ g₂ : Listing → Listing}

theorem keepsVariables (h : Enters w m names g w') : KeepsVariables w w' where
  size := by rw [h.size]; exact Nat.le_add_right _ _
  find := h.find

theorem refl : Enters w m [] id w where
  size := rfl
  find _ := rfl
  named := by rw [newVariables_eq_nil rfl]; rfl
  listing := by rw [Option.map_id]; rfl
  other _ := rfl

theorem trans (h₁ : Enters w m names₁ g₁ w₁) (h₂ : Enters w₁ m names₂ g₂ w₂) :
    Enters w m (names₁ ++ names₂) (g₂ ∘ g₁) w₂ where
  size := by rw [h₂.size, h₁.size, List.length_append, Nat.add_assoc]
  find hv := (h₂.find (Nat.lt_of_lt_of_le hv h₁.keepsVariables.size)).trans (h₁.find hv)
  named := by
    rw [newVariables_trans h₁.keepsVariables.size h₂.keepsVariables.size, List.map_append, h₂.named,
      h₂.keepsVariables.map_variableName fun v hv => declares_of_mem_newVariables hv, h₁.named]
  listing := by rw [h₂.listing, h₁.listing, Option.map_map]
  other hm := (h₂.other hm).trans (h₁.other hm)

/-- The model is changed besides. -/
theorem modifyModel (h : Enters w m names g₁ w') (f : Model α → Model α) (g₂ : Listing → Listing)
    (hf : ∀ model, (f model).listing = g₂ model.listing) :
    Enters w m names (g₂ ∘ g₁) (w'.modifyModel m f) where
  size := h.size
  find := h.find
  named := h.named
  listing := by
    have hlisting : (w'.findModel m).map (·.listing) = (w.listing? m).map g₁ := h.listing
    rw [Workspace.listing?, findModel_modifyModel_self, ← Option.map_map, ← hlisting]
    simp [Function.comp_def, hf]
  other hm := by
    unfold Workspace.listing? at *
    rw [findModel_modifyModel_of_ne f hm]
    exact h.other hm

/-- Families and sequences do not matter for what is entered. -/
theorem congr (h : Enters w m names g w₁) (hvars : w₂.vars = w₁.vars) (hmodels : w₂.models = w₁.models) :
    Enters w m names g w₂ := by
  have hfind : w₂.findVariable = w₁.findVariable := by
    funext v
    simp [Workspace.findVariable, hvars]
  have hlisting : w₂.listing? = w₁.listing? := by
    funext m
    simp [Workspace.listing?, Workspace.findModel, hmodels]
  refine ⟨hvars ▸ h.size, fun hv => hfind ▸ h.find hv, ?_, hlisting ▸ h.listing, fun hm =>
    hlisting ▸ h.other hm⟩
  rw [← h.named]
  simp [newVariables, variableName, hfind, hvars]

/-- The first workspace may be exchanged for one with the same models. -/
theorem of_same (hsame : SameModels w w₁) (h : Enters w₁ m names g w') : Enters w m names g w' := by
  have hlisting : ∀ m, w₁.listing? m = w.listing? m := fun m => by
    simp [Workspace.listing?, Workspace.findModel, hsame.models]
  refine ⟨hsame.vars ▸ h.size, fun hv => ?_, ?_, hlisting m ▸ h.listing, fun hm =>
    hlisting _ ▸ h.other hm⟩
  · rw [h.find (by simpa [Declares, hsame.vars] using hv)]
    simp [Workspace.findVariable, hsame.vars]
  · rw [← h.named]
    simp [newVariables, hsame.vars]

theorem newVariables_of_singleton {name : String}
    (h : Enters w m [name] g w') : w.newVariables w' = [w.nextVariable] := by
  simp [newVariables, nextVariable, h.size]

theorem newVariables_of_nil (h : Enters w m [] g w') :
    w.newVariables w' = [] := newVariables_eq_nil h.size
end Enters

/-- A name more is in use. -/
def Listing.use (names : List String) (l : Listing) : Listing :=
  { l with variableNames := names.reverse ++ l.variableNames }

namespace Build

/-- A variable is entered under its name. -/
theorem run_enterVariable_enters (w : Workspace α) (m : ModelId) (new : Variable α) :
    ∃ w', (enterVariable m new).run.run w = (.ok w.nextVariable, w') ∧
      Enters w m [new.name] (Listing.use [new.name]) w' ∧ w'.families = w.families ∧
      w'.sequences = w.sequences := by
  have hpush : Enters w m [new.name] id (w.withVariable new) := by
    refine ⟨Array.size_push _, fun hv => ?_, ?_, by rw [Option.map_id]; rfl, fun _ => rfl⟩
    · exact (Array.getElem?_push_lt hv).trans (Array.getElem?_eq_getElem hv).symm
    · simp [newVariables, withVariable, Workspace.variableName, Workspace.findVariable]
  exact ⟨_, rfl, hpush.modifyModel _ (Listing.use [new.name]) fun _ => rfl, rfl, rfl⟩

/-- Variables are entered under their names, in order. -/
theorem run_enterVariables (m : ModelId) {new : String → Variable α} (hnew : ∀ name, (new name).name = name)
    (names : List String) (w : Workspace α) :
    ∃ w', (names.mapM fun name => enterVariable m (new name)).run.run w =
        (.ok (w.newVariables w'), w') ∧
      Enters w m names (Listing.use names) w' ∧ w'.families = w.families ∧
      w'.sequences = w.sequences := by
  induction names generalizing w with
  | nil =>
    refine ⟨w, ?_, Enters.refl, rfl, rfl⟩
    rw [newVariables_eq_nil rfl]
    rfl
  | cons name names ih =>
    obtain ⟨w₁, hrun₁, h₁, hf₁, hs₁⟩ := run_enterVariable_enters w m (new name)
    obtain ⟨w₂, hrun₂, h₂, hf₂, hs₂⟩ := ih w₁
    refine ⟨w₂, ?_, ?_, hf₂.trans hf₁, hs₂.trans hs₁⟩
    · rw [List.mapM_cons, run_bind_of_ok hrun₁, run_bind_of_ok hrun₂,
        newVariables_trans h₁.keepsVariables.size h₂.keepsVariables.size]
      have hfirst : w.newVariables w₁ = [w.nextVariable] := by
        simp [newVariables, nextVariable, h₁.size]
      rw [hfirst]
      rfl
    · have htrans := h₁.trans h₂
      rw [hnew] at htrans
      have huse : Listing.use names ∘ Listing.use [name] = Listing.use (name :: names) := by
        funext l
        simp [Listing.use]
      rwa [huse] at htrans

theorem run_getModel {model : Model α} (h : (getModel m).run.run w = (.ok model, w₁)) :
    w₁ = w ∧ w.findModel m = some model := by
  unfold getModel at h
  rw [run_get_bind] at h
  split at h
  · rename_i hm
    cases h
    exact ⟨rfl, hm⟩
  · cases h

variable [Scalar α] {kind : VariableKind} {name : String} {lower upper n : Literal α} {x : Input α}
  {new : Variable α} {f : FamilyId} {q : SequenceId}

/-- A variable that passes the checks has the name that was given, and the model has none of it. -/
theorem checkVariable_ok
    (h : (checkVariable m kind name lower upper x none).run.run w = (.ok new, w₁)) :
    SameModels w w₁ ∧ new.name = name ∧ ∃ l, w.listing? m = some l ∧ name ∉ l.variableNames := by
  have hsame := keeps_checkVariable (R := SameModels) m kind name lower upper x w
  rw [h] at hsame
  obtain ⟨model, w₂, hmodel, hrest⟩ := exists_of_run_bind h
  obtain ⟨rfl, hm⟩ := run_getModel hmodel
  clear h
  dsimp only at hrest
  split at hrest
  · obtain ⟨_, _, h, -⟩ := exists_of_run_bind hrest
    cases h
  · rename_i hname
    obtain ⟨o, w₃, -, h⟩ := exists_of_run_bind hrest
    obtain ⟨low, w₄, -, h⟩ := exists_of_run_bind h
    obtain ⟨high, w₅, -, h⟩ := exists_of_run_bind h
    have hnew : new.name = name := by
      split at h
      · obtain ⟨_, _, h, -⟩ := exists_of_run_bind h
        cases h
      · cases o <;> cases h <;> rfl
    refine ⟨hsame, hnew, model.listing, by simp [Workspace.listing?, hm], ?_⟩
    simpa [Model.listing] using hname

/-- A variable that is added is listed under its name. -/
theorem run_addVariable_ok (h : (addVariable m kind name lower upper x).run.run w = (.ok v, w')) :
    (∃ l, w.listing? m = some l ∧ name ∉ l.variableNames) ∧
      Enters w m [name] (fun l => { l.use [name] with vars := l.vars ++ [w.nextVariable] }) w' ∧
      w'.families = w.families ∧ w'.sequences = w.sequences := by
  obtain ⟨new, w₁, hcheck, h⟩ := exists_of_run_bind h
  obtain ⟨hsame, hname, hl⟩ := checkVariable_ok hcheck
  obtain ⟨w₂, hrun, henters, hfamilies, hsequences⟩ := run_enterVariable_enters w₁ m new
  rw [hname] at henters
  rw [run_bind_of_ok hrun] at h
  cases h
  rw [hsame.toSameTables.nextVariable]
  refine ⟨hl, .of_same hsame ?_, hfamilies.trans hsame.families, hsequences.trans hsame.sequences⟩
  exact henters.modifyModel _ (fun l => { l with vars := l.vars ++ [w.nextVariable] }) fun _ => rfl

omit [Scalar α] in
/-- A family that is added is listed under its name and has no members. -/
theorem run_addFamily_ok (h : (addFamily m kind name : Build α FamilyId).run.run w = (.ok f, w')) :
    (∃ l, w.listing? m = some l ∧ name ∉ l.familyNames) ∧
      Enters w m [] (fun l => { l with
        familyNames := name :: l.familyNames, families := l.families ++ [⟨w.families.size⟩] }) w' ∧
      w'.families = w.families.push { model := m, kind, name } ∧ w'.sequences = w.sequences := by
  obtain ⟨model, w₁, hmodel, hrest⟩ := exists_of_run_bind h
  obtain ⟨rfl, hm⟩ := run_getModel hmodel
  clear h
  dsimp only at hrest
  split at hrest
  · obtain ⟨_, _, h, -⟩ := exists_of_run_bind hrest
    cases h
  · rename_i hname
    cases hrest
    refine ⟨⟨model.listing, by simp [Workspace.listing?, hm], ?_⟩, ?_, rfl, rfl⟩
    · simpa [Model.listing] using hname
    have hpush : Enters w₁ m [] id (w₁.withFamily { model := m, kind, name }) := Enters.refl.congr rfl rfl
    exact hpush.modifyModel _ (fun l => { l with
      familyNames := name :: l.familyNames, families := l.families ++ [⟨w₁.families.size⟩] }) fun _ => rfl

/-- A member that is added is the last of its family, under the name of its position. -/
theorem run_addMember_ok (h : (addMember f lower upper x).run.run w = (.ok v, w')) :
    ∃ family, w.findFamily f = some family ∧
      (∃ l, w.listing? family.model = some l ∧ memberName family ∉ l.variableNames) ∧
      Enters w family.model [memberName family] (Listing.use [memberName family]) w' ∧
      w'.families = w.families.modify f.index (fun family =>
        { family with members := family.members ++ [w.nextVariable] }) ∧
      w'.sequences = w.sequences := by
  rcases hf : w.findFamily f with _ | family
  · rw [run_addMember_of_none hf] at h
    cases h
  rw [addMember_eq hf] at h
  obtain ⟨new, w₁, hchecks, h⟩ := exists_of_run_bind h
  obtain ⟨new', w₂, hcheck, howner⟩ := exists_of_run_bind hchecks
  obtain ⟨hsame, hname, hl⟩ := checkVariable_ok hcheck
  have hlast : new = new' ∧ w₁ = w₂ := by
    unfold checkOwner at howner
    split at howner
    · rw [run_get_bind] at howner
      split at howner
      · obtain ⟨_, _, howner, -⟩ := exists_of_run_bind howner
        cases howner
      · cases howner
        exact ⟨rfl, rfl⟩
    · cases howner
      exact ⟨rfl, rfl⟩
  obtain ⟨rfl, rfl⟩ := hlast
  obtain ⟨w₃, hrun, henters, hfamilies, hsequences⟩ := run_enterVariable_enters w₁ family.model new
  rw [run_bind_of_ok hrun] at h
  cases h
  rw [hname] at henters
  refine ⟨family, rfl, hl, .of_same hsame (henters.congr rfl rfl), ?_,
    hsequences.trans hsame.sequences⟩
  rw [← hsame.families, ← hfamilies, ← hsame.toSameTables.nextVariable]

/-- A sequence that is added is listed under its name, and its members are named by their positions. -/
theorem run_addSequence_ok (h : (addSequence m name n).run.run w = (.ok q, w')) :
    ∃ k, (∃ l, w.listing? m = some l ∧ (∀ x ∈ entryNames name k, x ∉ l.variableNames) ∧
        name ∉ l.sequenceNames) ∧
      Enters w m (entryNames name k) (fun l => { l.use (entryNames name k) with
        sequenceNames := name :: l.sequenceNames
        sequences := l.sequences ++ [⟨w.sequences.size⟩] }) w' ∧
      w'.families = w.families ∧
      w'.sequences = w.sequences.push { name, members := w.newVariables w' } := by
  unfold addSequence at h
  split at h
  · cases h
  rename_i k _
  obtain ⟨model, w₁, hmodel, hrest⟩ := exists_of_run_bind h
  obtain ⟨rfl, hm⟩ := run_getModel hmodel
  clear h
  have hnames : ((List.range k).map fun i => name ++ "[" ++ toString i ++ "]") = entryNames name k := rfl
  rw [hnames] at hrest
  dsimp only at hrest
  split at hrest
  · obtain ⟨_, _, h, -⟩ := exists_of_run_bind hrest
    cases h
  rename_i hnone
  split at hrest
  · obtain ⟨_, _, h, -⟩ := exists_of_run_bind hrest
    cases h
  rename_i hname
  let new (name : String) : Variable α :=
    { kind := .integer, name, lower := Scalar.one, upper := Scalar.ofInt k }
  have hnew : ∀ name, (new name).name = name := fun _ => rfl
  obtain ⟨w₂, hrun, henters, hfamilies, hsequences⟩ :=
    run_enterVariables m hnew (entryNames name k) w₁
  rw [run_bind_of_ok hrun] at hrest
  cases hrest
  have hfree := List.find?_eq_none.mp (Option.eq_none_iff_forall_ne_some.mpr hnone)
  let pushed : Workspace α :=
    { w₂ with sequences := w₂.sequences.push { name, members := w₁.newVariables w₂ } }
  have hpush : Enters w₁ m (entryNames name k) (Listing.use (entryNames name k)) pushed :=
    henters.congr rfl rfl
  refine ⟨k, ⟨model.listing, by simp [Workspace.listing?, hm], ?_, ?_⟩, ?_, hfamilies, ?_⟩
  · simpa [Model.listing] using hfree
  · simpa [Model.listing] using hname
  · rw [← hsequences]
    exact hpush.modifyModel _ (fun l => { l with
      sequenceNames := name :: l.sequenceNames
      sequences := l.sequences ++ [⟨w₂.sequences.size⟩] }) fun _ => rfl
  · rw [← hsequences]
    rfl

end Build

end DecisionModel
