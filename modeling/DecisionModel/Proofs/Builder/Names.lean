import Mathlib.Data.List.Perm.Basic
import DecisionModel.Proofs.Builder.Entries

/-!
# Namespaces

A model keeps the names in use in three namespaces beside the lists of its variables, families and
sequences. `Mirrors` says that both agree and that no name is used twice. It is kept by every call,
refused ones among them (`Registered.step`), for all models of a workspace at once: a family gives its
members to the model that lists it. The variables that a history creates on a model (`createdBy`) are
those that the model lists in the end (`namespaces_of_calls`).
-/

namespace DecisionModel

open Build Workspace

variable {α : Type} {w w' : Workspace α} {m : ModelId} {l : Listing} {v : VarId}

namespace Workspace

/-- The variables that are in a listing: of its sequences, plain ones, and of its families. -/
def listed (w : Workspace α) (l : Listing) : List VarId :=
  l.sequences.flatMap w.sequenceMembers ++ l.vars ++ l.families.flatMap w.members

theorem allVariables_eq {model : Model α} (h : w.findModel m = some model) :
    w.allVariables m = w.listed model.listing := by
  unfold allVariables
  rw [h]
  rfl

end Workspace

/-! ### What a listing says -/

/-- The variables in the listing are declared, they are those that were created, each once, and their
names are those in use. -/
structure MirrorsVariables (w : Workspace α) (l : Listing) (created : List VarId) : Prop where
  declared : ∀ v ∈ w.listed l, w.Declares v
  created : (w.listed l).Perm created
  names : l.variableNames.Perm ((w.listed l).map w.variableName)
  distinct : l.variableNames.Nodup

/-- The families in the listing belong to the model, their names are those in use, and their members are
named after them. -/
structure MirrorsFamilies (w : Workspace α) (m : ModelId) (l : Listing) : Prop where
  owned : ∀ f ∈ l.families, ∃ family, w.findFamily f = some family ∧ family.model = m
  names : l.familyNames.Perm (l.families.map w.familyName)
  distinct : l.familyNames.Nodup
  members : ∀ f ∈ l.families,
    (w.members f).map w.variableName = entryNames (w.familyName f) (w.members f).length

/-- The same for sequences. -/
structure MirrorsSequences (w : Workspace α) (l : Listing) : Prop where
  declared : ∀ q ∈ l.sequences, q.index < w.sequences.size
  names : l.sequenceNames.Perm (l.sequences.map w.sequenceName)
  distinct : l.sequenceNames.Nodup
  members : ∀ q ∈ l.sequences,
    (w.sequenceMembers q).map w.variableName =
      entryNames (w.sequenceName q) (w.sequenceMembers q).length

/-- The namespaces in the listing of a model mirror what it lists. -/
structure Mirrors (w : Workspace α) (m : ModelId) (l : Listing) (created : List VarId) : Prop where
  vars : MirrorsVariables w l created
  families : MirrorsFamilies w m l
  sequences : MirrorsSequences w l

section

variable {l' : Listing} {created ids : List VarId} {names : List String}
/-- Variables join the listing, under names that are not in use. -/
theorem MirrorsVariables.add (h : MirrorsVariables w l created) (hk : KeepsVariables w w')
    (hids : ids.map w'.variableName = names) (hdeclared : ∀ v ∈ ids, w'.Declares v)
    (hlisted : (w'.listed l').Perm (w.listed l ++ ids))
    (hnames : l'.variableNames.Perm (names ++ l.variableNames)) (hdistinct : names.Nodup)
    (hfresh : ∀ name ∈ names, name ∉ l.variableNames) :
    MirrorsVariables w' l' (created ++ ids) where
  declared v hv := by
    rcases List.mem_append.mp (hlisted.mem_iff.mp hv) with hv | hv
    · exact Nat.lt_of_lt_of_le (h.declared v hv) hk.size
    · exact hdeclared v hv
  created := hlisted.trans (h.created.append_right ids)
  names := calc
    l'.variableNames.Perm (names ++ l.variableNames) := hnames
    _ |>.Perm (l.variableNames ++ names) := List.perm_append_comm
    _ |>.Perm ((w.listed l).map w.variableName ++ names) := h.names.append_right names
    _ = (w.listed l ++ ids).map w'.variableName := by
      rw [List.map_append, hk.map_variableName h.declared, hids]
    _ |>.Perm ((w'.listed l').map w'.variableName) := (hlisted.map _).symm
  distinct := by
    rw [hnames.nodup_iff, List.nodup_append']
    exact ⟨hdistinct, h.distinct, hfresh⟩

/-- The families are the same up to their members. -/
theorem MirrorsFamilies.change (h : MirrorsFamilies w m l)
    (hfound : ∀ f ∈ l.families, ∀ family, w.findFamily f = some family →
      ∃ family', w'.findFamily f = some family' ∧ family'.model = family.model ∧
        family'.name = family.name)
    (hmembers : ∀ f ∈ l.families,
      (w'.members f).map w'.variableName = entryNames (w'.familyName f) (w'.members f).length)
    (hfamilies : l'.families = l.families) (hnames : l'.familyNames = l.familyNames) :
    MirrorsFamilies w' m l' where
  owned f hf := by
    rw [hfamilies] at hf
    obtain ⟨family, hfamily, hm⟩ := h.owned f hf
    obtain ⟨family', hfamily', hm', -⟩ := hfound f hf family hfamily
    exact ⟨family', hfamily', hm'.trans hm⟩
  names := by
    have hmap : l.families.map w'.familyName = l.families.map w.familyName := by
      refine List.map_congr_left fun f hf => ?_
      obtain ⟨family, hfamily, -⟩ := h.owned f hf
      obtain ⟨family', hfamily', -, hname⟩ := hfound f hf family hfamily
      simp [familyName, hfamily, hfamily', hname]
    rw [hfamilies, hnames, hmap]
    exact h.names
  distinct := hnames ▸ h.distinct
  members f hf := hmembers f (hfamilies ▸ hf)

/-- The families are the same. -/
theorem MirrorsFamilies.frame (h : MirrorsFamilies w m l) (hv : ∀ v ∈ w.listed l, w.Declares v)
    (hk : KeepsVariables w w') (hsame : ∀ f ∈ l.families, w'.findFamily f = w.findFamily f)
    (hfamilies : l'.families = l.families) (hnames : l'.familyNames = l.familyNames) :
    MirrorsFamilies w' m l' := by
  refine h.change (fun f hf family hfamily => ⟨family, (hsame f hf).trans hfamily, rfl, rfl⟩)
    (fun f hf => ?_) hfamilies hnames
  rw [members_congr (hsame f hf), familyName_congr (hsame f hf), hk.map_variableName, h.members f hf]
  exact fun v hm => hv v (List.mem_append_right _ (List.mem_flatMap.mpr ⟨f, hf, hm⟩))

/-- The sequences are the same. -/
theorem MirrorsSequences.frame (h : MirrorsSequences w l) (hv : ∀ v ∈ w.listed l, w.Declares v)
    (hk : KeepsVariables w w') (hsize : w.sequences.size ≤ w'.sequences.size)
    (hsame : ∀ q ∈ l.sequences, w'.findSequence q = w.findSequence q)
    (hsequences : l'.sequences = l.sequences) (hnames : l'.sequenceNames = l.sequenceNames) :
    MirrorsSequences w' l' where
  declared q hq := Nat.lt_of_lt_of_le (h.declared q (hsequences ▸ hq)) hsize
  names := by
    rw [hsequences, hnames, List.map_congr_left fun q hq => sequenceName_congr (hsame q hq)]
    exact h.names
  distinct := hnames ▸ h.distinct
  members q hq := by
    rw [hsequences] at hq
    rw [sequenceMembers_congr (hsame q hq), sequenceName_congr (hsame q hq), hk.map_variableName, h.members q hq]
    intro v hm
    refine hv v (List.mem_append_left _ (List.mem_append_left _ ?_))
    exact List.mem_flatMap.mpr ⟨q, hq, hm⟩

/-- What the listing refers to is the same. -/
theorem Mirrors.frame (h : Mirrors w m l created) (hk : KeepsVariables w w')
    (hfamilies : ∀ f ∈ l.families, w'.findFamily f = w.findFamily f)
    (hsize : w.sequences.size ≤ w'.sequences.size)
    (hsequences : ∀ q ∈ l.sequences, w'.findSequence q = w.findSequence q) :
    Mirrors w' m l created where
  vars := by
    have hlisted : w'.listed l = w.listed l := by
      unfold listed
      rw [List.flatMap_congr fun q hq => sequenceMembers_congr (hsequences q hq),
        List.flatMap_congr fun f hf => members_congr (hfamilies f hf)]
    have hadd : MirrorsVariables w' l (created ++ []) := 
      h.vars.add hk List.map_nil (by simp) (by simp [hlisted]) (by simp) List.nodup_nil (by simp)
    rwa [List.append_nil] at hadd
  families := h.families.frame h.vars.declared hk hfamilies rfl rfl
  sequences := h.sequences.frame h.vars.declared hk hsize hsequences rfl rfl

end

/-! ### What is listed -/

section

variable {l' : Listing} {created : List VarId} {names : List String} {name : String}
  {g : Listing → Listing} {f : FamilyId} {family : Family}

/-- The listing of a model for which variables are entered under free names. -/
theorem MirrorsVariables.enter (h : MirrorsVariables w l created) (he : Enters w m names g w')
    (hlisted : (w'.listed l').Perm (w.listed l ++ w.newVariables w'))
    (hnames : l'.variableNames = names.reverse ++ l.variableNames) (hdistinct : names.Nodup)
    (hfresh : ∀ name ∈ names, name ∉ l.variableNames) :
    MirrorsVariables w' l' (created ++ w.newVariables w') := by
  refine h.add he.keepsVariables he.named (fun _ => declares_of_mem_newVariables) hlisted ?_ hdistinct
    hfresh
  rw [hnames]
  exact (List.reverse_perm names).append_right _

theorem mirrors_addVariable (h : Mirrors w m l created) (hname : name ∉ l.variableNames)
    (he : Enters w m [name] (fun l => { l.use [name] with vars := l.vars ++ [w.nextVariable] }) w')
    (hfamilies : w'.families = w.families) (hsequences : w'.sequences = w.sequences) :
    Mirrors w' m { l.use [name] with vars := l.vars ++ [w.nextVariable] }
      (created ++ w.newVariables w') where
  vars := by
    refine h.vars.enter he ?_ rfl (List.nodup_singleton name) (by simpa using hname)
    have hmembers : w'.members = w.members :=
      funext fun f => members_congr (findFamily_congr hfamilies f)
    have hsequence : w'.sequenceMembers = w.sequenceMembers :=
      funext fun q => sequenceMembers_congr (findSequence_congr hsequences q)
    rw [he.newVariables_of_singleton]
    simp only [listed, Listing.use, hmembers, hsequence, List.append_assoc]
    exact (List.perm_append_comm.append_left _).append_left _
  families := h.families.frame h.vars.declared he.keepsVariables
    (fun f _ => findFamily_congr hfamilies f) rfl rfl
  sequences := h.sequences.frame h.vars.declared he.keepsVariables (by rw [hsequences])
    (fun q _ => findSequence_congr hsequences q) rfl rfl

theorem findFamily_push_iff {f : FamilyId} {new family : Family}
    (hfamilies : w'.families = w.families.push new) :
    w'.findFamily f = some family ↔
      w.findFamily f = some family ∨ f = ⟨w.families.size⟩ ∧ family = new := by
  simp only [findFamily, hfamilies, Array.getElem?_push]
  split
  · rename_i hindex
    have hf : f = ⟨w.families.size⟩ := congrArg FamilyId.mk hindex
    subst hf
    simp [eq_comm]
  · rename_i hindex
    have hf : f ≠ ⟨w.families.size⟩ := fun h => hindex (congrArg FamilyId.index h)
    simp [hf]

theorem mirrors_addFamily {kind : VariableKind} (h : Mirrors w m l created)
    (hname : name ∉ l.familyNames)
    (he : Enters w m [] (fun l => { l with
      familyNames := name :: l.familyNames, families := l.families ++ [⟨w.families.size⟩] }) w')
    (hfamilies : w'.families = w.families.push { model := m, kind, name })
    (hsequences : w'.sequences = w.sequences) :
    Mirrors w' m { l with
      familyNames := name :: l.familyNames, families := l.families ++ [⟨w.families.size⟩] }
      (created ++ w.newVariables w') := by
  have hnew : w'.findFamily ⟨w.families.size⟩ = some { model := m, kind, name } :=
    (findFamily_push_iff hfamilies).mpr (.inr ⟨rfl, rfl⟩)
  have hsame : ∀ f ∈ l.families, w'.findFamily f = w.findFamily f := fun f hf => by
    obtain ⟨family, hfamily, -⟩ := h.families.owned f hf
    rw [hfamily]
    exact (findFamily_push_iff hfamilies).mpr (.inl hfamily)
  have hold : MirrorsFamilies w' m l :=
    h.families.frame h.vars.declared he.keepsVariables hsame rfl rfl
  have hempty : w'.members ⟨w.families.size⟩ = [] := by simp [members, hnew]
  have hlabel : w'.familyName ⟨w.families.size⟩ = name := by simp [familyName, hnew]
  have hsequence : w'.sequenceMembers = w.sequenceMembers :=
    funext fun q => sequenceMembers_congr (findSequence_congr hsequences q)
  refine ⟨h.vars.enter he ?_ rfl List.nodup_nil (by simp), ⟨?_, ?_, ?_, ?_⟩,
    h.sequences.frame h.vars.declared he.keepsVariables (by rw [hsequences])
    (fun q _ => findSequence_congr hsequences q) rfl rfl⟩
  · rw [he.newVariables_of_nil, List.append_nil]
    unfold listed
    rw [List.flatMap_append, List.flatMap_congr fun f hf => members_congr (hsame f hf)]
    simp [hempty, hsequence]
  · intro f hf
    rcases List.mem_append.mp hf with hf | hf
    · exact hold.owned f hf
    · obtain rfl := List.mem_singleton.mp hf
      exact ⟨_, hnew, rfl⟩
  · rw [List.map_append, List.map_singleton, hlabel]
    exact (hold.names.cons name).trans (List.perm_append_singleton _ _).symm
  · exact List.nodup_cons.mpr ⟨hname, hold.distinct⟩
  · intro f hf
    rcases List.mem_append.mp hf with hf | hf
    · exact hold.members f hf
    · obtain rfl := List.mem_singleton.mp hf
      rw [hempty]
      rfl

/-- One of the lists that are joined is longer. -/
theorem perm_flatMap_add {β γ : Type} {xs : List β} {x : β} {f f' : β → List γ} {ys : List γ}
    (hx : x ∈ xs) (hn : xs.Nodup) (hself : f' x = f x ++ ys) (hother : ∀ y, y ≠ x → f' y = f y) :
    (xs.flatMap f').Perm (xs.flatMap f ++ ys) := by
  induction xs with
  | nil => cases hx
  | cons a xs ih =>
    rw [List.flatMap_cons, List.flatMap_cons]
    obtain ⟨ha, hn⟩ := List.nodup_cons.mp hn
    rcases List.mem_cons.mp hx with rfl | hx
    · have htail : xs.flatMap f' = xs.flatMap f :=
        List.flatMap_congr fun y hy => hother y fun h => ha (h ▸ hy)
      rw [hself, htail, List.append_assoc, List.append_assoc]
      exact List.perm_append_comm.append_left _
    · rw [hother a fun h => ha (h ▸ hx), List.append_assoc]
      exact (ih hx hn).append_left _

theorem mirrors_addMember (h : Mirrors w m l created) (hf : w.findFamily f = some family)
    (hmem : f ∈ l.families) (hname : memberName family ∉ l.variableNames)
    (he : Enters w m [memberName family] (Listing.use [memberName family]) w')
    (hfamilies : w'.families = w.families.modify f.index (fun family =>
      { family with members := family.members ++ [w.nextVariable] }))
    (hsequences : w'.sequences = w.sequences) :
    Mirrors w' m (l.use [memberName family]) (created ++ w.newVariables w') := by
  have hself : w'.findFamily f =
      some { family with members := family.members ++ [w.nextVariable] } := by
    have hfound : w.families[f.index]? = some family := hf
    simp [findFamily, hfamilies, Array.getElem?_modify, hfound]
  have hother : ∀ f', f' ≠ f → w'.findFamily f' = w.findFamily f' := fun f' hne => by
    have hindex : ¬ f.index = f'.index := fun hi => hne (by cases f; cases f'; simp_all)
    simp [findFamily, hfamilies, Array.getElem?_modify, hindex]
  have hmembers : w'.members f = w.members f ++ [w.nextVariable] := by simp [members, hself, hf]
  have hlabel : w'.familyName f = w.familyName f := by simp [familyName, hself, hf]
  have hnext : w'.variableName w.nextVariable = memberName family := by
    have hnamed := he.named
    rw [he.newVariables_of_singleton] at hnamed
    simpa using hnamed
  have hdistinct : l.families.Nodup := ((h.families.names.nodup_iff.mp h.families.distinct)).of_map _
  have hsequence : w'.sequenceMembers = w.sequenceMembers :=
    funext fun q => sequenceMembers_congr (findSequence_congr hsequences q)
  refine ⟨h.vars.enter he ?_ rfl (List.nodup_singleton _) (by simpa using hname),
    h.families.change (fun f' hf' family' hfamily' => ?_) (fun f' hf' => ?_) rfl rfl,
    h.sequences.frame h.vars.declared he.keepsVariables (by rw [hsequences])
    (fun q _ => findSequence_congr hsequences q) rfl rfl⟩
  · rw [he.newVariables_of_singleton]
    simp only [listed, Listing.use, hsequence, List.append_assoc]
    refine ((perm_flatMap_add hmem hdistinct hmembers fun f' hne => ?_).append_left _).append_left _
    exact members_congr (hother f' hne)
  · by_cases hne : f' = f
    · subst hne
      cases hf.symm.trans hfamily'
      exact ⟨_, hself, rfl, rfl⟩
    · exact ⟨family', (hother f' hne).trans hfamily', rfl, rfl⟩
  · have hold : (w.members f').map w'.variableName =
        entryNames (w.familyName f') (w.members f').length := by
      rw [he.keepsVariables.map_variableName, h.families.members f' hf']
      exact fun v hv => h.vars.declared v
        (List.mem_append_right _ (List.mem_flatMap.mpr ⟨f', hf', hv⟩))
    by_cases hne : f' = f
    · subst hne
      have hlast : memberName family = entryName (w.familyName f') (w.members f').length := by
        simp [memberName, entryName, familyName, members, hf]
      rw [hmembers, hlabel, List.map_append, hold, List.map_singleton, hnext, List.length_append,
        List.length_singleton, entryNames_succ, hlast]
    · rw [members_congr (hother f' hne), familyName_congr (hother f' hne), hold]

theorem findSequence_push_of_lt {q : SequenceId} {new : Sequence}
    (hsequences : w'.sequences = w.sequences.push new) (hq : q.index < w.sequences.size) :
    w'.findSequence q = w.findSequence q := by
  simp only [findSequence, hsequences]
  exact (Array.getElem?_push_lt hq).trans (Array.getElem?_eq_getElem hq).symm

theorem mirrors_addSequence {k : Nat} (h : Mirrors w m l created)
    (hnames : ∀ x ∈ entryNames name k, x ∉ l.variableNames) (hname : name ∉ l.sequenceNames)
    (he : Enters w m (entryNames name k) (fun l => { l.use (entryNames name k) with
      sequenceNames := name :: l.sequenceNames
      sequences := l.sequences ++ [⟨w.sequences.size⟩] }) w')
    (hfamilies : w'.families = w.families)
    (hsequences : w'.sequences = w.sequences.push { name, members := w.newVariables w' }) :
    Mirrors w' m { l.use (entryNames name k) with
      sequenceNames := name :: l.sequenceNames
      sequences := l.sequences ++ [⟨w.sequences.size⟩] } (created ++ w.newVariables w') := by
  have hnew : w'.findSequence ⟨w.sequences.size⟩ =
      some { name, members := w.newVariables w' } := by simp [findSequence, hsequences]
  have hsame : ∀ q ∈ l.sequences, w'.findSequence q = w.findSequence q := fun q hq =>
    findSequence_push_of_lt hsequences (h.sequences.declared q hq)
  have hsize : w.sequences.size ≤ w'.sequences.size := by simp [hsequences]
  have hold : MirrorsSequences w' l :=
    h.sequences.frame h.vars.declared he.keepsVariables hsize hsame rfl rfl
  have hmembers : w'.sequenceMembers ⟨w.sequences.size⟩ = w.newVariables w' := by
    simp [sequenceMembers, hnew]
  have hlabel : w'.sequenceName ⟨w.sequences.size⟩ = name := by simp [sequenceName, hnew]
  have hfamily : w'.members = w.members :=
    funext fun f => members_congr (findFamily_congr hfamilies f)
  refine ⟨h.vars.enter he ?_ rfl (nodup_entryNames name k) hnames,
    h.families.frame h.vars.declared he.keepsVariables
      (fun f _ => findFamily_congr hfamilies f) rfl rfl, ⟨?_, ?_, ?_, ?_⟩⟩
  · simp only [listed, Listing.use, hfamily, List.flatMap_append, List.flatMap_singleton, hmembers,
      List.flatMap_congr fun q hq => sequenceMembers_congr (hsame q hq), List.append_assoc]
    refine (List.perm_append_comm.trans ?_).append_left _
    rw [List.append_assoc]
  · intro q hq
    rcases List.mem_append.mp hq with hq | hq
    · exact hold.declared q hq
    · obtain rfl := List.mem_singleton.mp hq
      simp [hsequences]
  · rw [List.map_append, List.map_singleton, hlabel]
    exact (hold.names.cons name).trans (List.perm_append_singleton _ _).symm
  · exact List.nodup_cons.mpr ⟨hname, hold.distinct⟩
  · intro q hq
    rcases List.mem_append.mp hq with hq | hq
    · exact hold.members q hq
    · obtain rfl := List.mem_singleton.mp hq
      have hlength : (w.newVariables w').length = k := by
        rw [← List.length_map w'.variableName, he.named]
        simp [entryNames]
      rw [hmembers, hlabel, he.named, hlength]

end

/-! ### Calls -/

/-- The workspaces have the same variables, families and sequences, and their models list the same. -/
structure SameListings (w w' : Workspace α) : Prop extends SameTables w w' where
  sequences : w'.sequences = w.sequences
  listing : w'.listing? = w.listing?

instance : Abiding (@SameListings α) where
  refl _ := ⟨⟨rfl, rfl⟩, rfl, rfl⟩
  trans _ _ _ h h' := ⟨⟨h'.vars.trans h.vars, h'.families.trans h.families⟩,
    h'.sequences.trans h.sequences, h'.listing.trans h.listing⟩
  nextNode _ _ := ⟨⟨rfl, rfl⟩, rfl, rfl⟩
  registerOperator _ _ := ⟨⟨by simp, by simp⟩, by simp, funext fun m => by
    simp [Workspace.listing?, Workspace.findModel]⟩
  modifyModel {w m f} hf := by
    refine ⟨⟨rfl, rfl⟩, rfl, funext fun m' => ?_⟩
    unfold Workspace.listing?
    by_cases hm : m' = m
    · subst hm
      rw [findModel_modifyModel_self]
      simp [Function.comp_def, hf]
    · rw [findModel_modifyModel_of_ne f hm]

theorem SameModels.sameListings (h : SameModels w w') : SameListings w w' :=
  ⟨h.toSameTables, h.sequences, funext fun m => by
    simp [Workspace.listing?, Workspace.findModel, h.models]⟩

/-- All models of the workspace mirror what was created on them, and each family is listed by its
model. -/
structure Registered (w : Workspace α) (created : ModelId → List VarId) : Prop where
  mirrors {m : ModelId} {l : Listing} : w.listing? m = some l → Mirrors w m l (created m)
  missing {m : ModelId} : w.listing? m = none → created m = []
  owner {f : FamilyId} {family : Family} : w.findFamily f = some family →
    ∃ l, w.listing? family.model = some l ∧ f ∈ l.families

namespace Registered

variable {created : ModelId → List VarId} {names : List String} {g : Listing → Listing}

theorem same (h : Registered w created) (hsame : SameListings w w') : Registered w' created where
  mirrors {m l} hl := by
    have hk : KeepsVariables w w' :=
      ⟨by rw [hsame.vars], fun _ => by simp [findVariable, hsame.vars]⟩
    refine (h.mirrors (hsame.listing ▸ hl)).frame hk (fun f _ => ?_) (by rw [hsame.sequences])
      fun q _ => ?_
    · rw [hsame.toSameTables.findFamily]
    · exact findSequence_congr hsame.sequences q
  missing hl := h.missing (hsame.listing ▸ hl)
  owner hf := hsame.listing ▸ h.owner (hsame.toSameTables.findFamily ▸ hf)

/-- Variables are entered for one of the models. -/
theorem enter (h : Registered w created) (he : Enters w m names g w') (hl : w.listing? m = some l)
    (hmirrors : Mirrors w' m (g l) (created m ++ w.newVariables w'))
    (hothers : ∀ f family, w.findFamily f = some family → family.model ≠ m →
      w'.findFamily f = w.findFamily f)
    (hsize : w.sequences.size ≤ w'.sequences.size)
    (hsequences : ∀ q, q.index < w.sequences.size → w'.findSequence q = w.findSequence q)
    (hfamilies : ∀ f family', w'.findFamily f = some family' →
      (∃ family, w.findFamily f = some family ∧ family.model = family'.model) ∨
        family'.model = m ∧ f ∈ (g l).families)
    (hkeep : ∀ f ∈ l.families, f ∈ (g l).families) :
    Registered w' fun m' => created m' ++ if m = m' then w.newVariables w' else [] := by
  have hlisting : w'.listing? m = some (g l) := by rw [he.listing, hl]; rfl
  refine ⟨fun {m' l'} hl' => ?_, fun {m'} hl' => ?_, fun {f family'} hf => ?_⟩
  · by_cases hm : m = m'
    · subst hm
      rw [hlisting] at hl'
      cases hl'
      simpa using hmirrors
    · rw [he.other (Ne.symm hm)] at hl'
      have hmirrors' := h.mirrors hl'
      rw [if_neg hm, List.append_nil]
      refine hmirrors'.frame he.keepsVariables (fun f hf => ?_) hsize fun q hq =>
        hsequences q (hmirrors'.sequences.declared q hq)
      obtain ⟨family, hfamily, hmodel⟩ := hmirrors'.families.owned f hf
      exact hothers f family hfamily fun h => hm (h.symm.trans hmodel)
  · by_cases hm : m = m'
    · subst hm
      rw [hlisting] at hl'
      cases hl'
    · rw [he.other (Ne.symm hm)] at hl'
      rw [if_neg hm, List.append_nil, h.missing hl']
  · rcases hfamilies f family' hf with ⟨family, hfamily, hmodel⟩ | ⟨hmodel, hmem⟩
    · obtain ⟨l₀, hl₀, hmem⟩ := h.owner hfamily
      rw [hmodel] at hl₀
      by_cases hm : family'.model = m
      · rw [hm] at hl₀ ⊢
        cases hl.symm.trans hl₀
        exact ⟨_, hlisting, hkeep f hmem⟩
      · exact ⟨l₀, (he.other hm).trans hl₀, hmem⟩
    · exact ⟨g l, hmodel ▸ hlisting, hmem⟩

end Registered

/-- A model is made that lists nothing. -/
theorem Registered.pushModel {created : ModelId → List VarId} (h : Registered w created)
    (hsame : SameTables w w') (hsequences : w'.sequences = w.sequences) {model : Model α}
    (hempty : model.listing = ⟨[], [], [], [], [], []⟩)
    (hmodels : w'.models = w.models.push model) : Registered w' created := by
  have hold : ∀ m l, w.listing? m = some l → w'.listing? m = some l := fun m l hl => by
    obtain ⟨model', hmodel', rfl⟩ := Option.map_eq_some_iff.mp hl
    have hlt : m.index < w.models.size := (Array.getElem?_eq_some_iff.mp hmodel').1
    have hfind : w'.findModel m = w.findModel m := by
      simp only [findModel, hmodels]
      exact (Array.getElem?_push_lt hlt).trans (Array.getElem?_eq_getElem hlt).symm
    simp [listing?, hfind, hmodel']
  have hnew : ∀ m l, w'.listing? m = some l →
      w.listing? m = some l ∨ w.listing? m = none ∧ l = ⟨[], [], [], [], [], []⟩ := fun m l hl => by
    obtain ⟨model', hmodel', rfl⟩ := Option.map_eq_some_iff.mp hl
    simp only [findModel, hmodels, Array.getElem?_push] at hmodel'
    split at hmodel'
    · rename_i hindex
      cases hmodel'
      exact .inr ⟨by simp [listing?, findModel, hindex], hempty⟩
    · exact .inl (by simp [listing?, findModel, hmodel'])
  have hk : KeepsVariables w w' := ⟨by rw [hsame.vars], fun _ => by simp [findVariable, hsame.vars]⟩
  refine ⟨fun {m l} hl => ?_, fun {m} hl => h.missing ?_, fun {f family} hf => ?_⟩
  · rcases hnew m l hl with hl | ⟨hnone, rfl⟩
    · refine (h.mirrors hl).frame hk (fun f _ => ?_) (by rw [hsequences]) fun q _ => ?_
      · rw [hsame.findFamily]
      · exact findSequence_congr hsequences q
    · rw [h.missing hnone]
      exact ⟨⟨by simp [listed], by simp [listed], by simp [listed], List.nodup_nil⟩,
        ⟨by simp, by simp, List.nodup_nil, by simp⟩, ⟨by simp, by simp, List.nodup_nil, by simp⟩⟩
  · cases hl' : w.listing? m with
    | none => rfl
    | some l => rw [hold m l hl'] at hl; cases hl
  · obtain ⟨l, hl, hmem⟩ := h.owner (hsame.findFamily ▸ hf)
    exact ⟨l, hold _ l hl, hmem⟩

namespace Call

variable [Scalar α]

/-- The workspace after the call, whether it is refused or not. -/
def effect (call : Call α) (w : Workspace α) : Workspace α := (call.run.run.run w).2

/-- The model that the call declares variables for. -/
def target? : Call α → Workspace α → Option ModelId
  | addVariable m .., _ | addSequence m .., _ => some m
  | addMember f .., w => (w.findFamily f).map (·.model)
  | _, _ => none

/-- The variables that the call creates on a model. -/
def created (call : Call α) (m : ModelId) (w : Workspace α) : List VarId :=
  if call.target? w = some m then w.newVariables (call.effect w) else []

theorem created_eq_nil {call : Call α} (h : (call.effect w).vars = w.vars) : call.created m w = [] := by
  unfold created
  rw [newVariables_eq_nil (congrArg Array.size h)]
  exact ite_self _

/-- Among the calls that add none leaves a trace when it is refused. -/
theorem sameListings_of_refused {call : Call α} (hadds : call.Adds) {e : BuildError α}
    (hr : call.run.run.run w = (.error e, w')) : SameListings w w' := by
  have hrefused := refused hr
  cases call with
  | addVariable | addMember | addFamily | addSequence => exact hrefused.sameListings
  | _ => exact hadds.elim

end Call

namespace Registered

variable [Scalar α] {created : ModelId → List VarId} {kind : VariableKind} {name : String}
  {lower upper n : Literal α} {x : Input α} {f : FamilyId} {q : SequenceId}

theorem addVariable (h : Registered w created)
    (hrun : (addVariable m kind name lower upper x).run.run w = (.ok v, w')) :
    Registered w' fun m' => created m' ++ if m = m' then w.newVariables w' else [] := by
  obtain ⟨⟨l, hl, hname⟩, he, hfamilies, hsequences⟩ := run_addVariable_ok hrun
  have hfind : w'.findFamily = w.findFamily := funext (findFamily_congr hfamilies)
  exact h.enter he hl (mirrors_addVariable (h.mirrors hl) hname he hfamilies hsequences)
    (fun _ _ _ _ => by rw [hfind]) (by rw [hsequences]) (fun q _ => findSequence_congr hsequences q)
    (fun f family hf => .inl ⟨family, hfind ▸ hf, rfl⟩) fun _ hf => hf

omit [Scalar α] in
theorem addFamily (h : Registered w created)
    (hrun : (Build.addFamily m kind name : Build α FamilyId).run.run w = (.ok f, w')) :
    Registered w' created := by
  obtain ⟨⟨l, hl, hname⟩, he, hfamilies, hsequences⟩ := run_addFamily_ok hrun
  have henter := h.enter he hl (mirrors_addFamily (h.mirrors hl) hname he hfamilies hsequences)
    (fun f family hf _ => ?_) (by rw [hsequences]) (fun q _ => findSequence_congr hsequences q)
    (fun f family hf => ?_) fun _ hf => List.mem_append_left _ hf
  · simpa [he.newVariables_of_nil] using henter
  · rw [hf]
    exact (findFamily_push_iff hfamilies).mpr (.inl hf)
  · rcases (findFamily_push_iff hfamilies).mp hf with hf | ⟨rfl, rfl⟩
    · exact .inl ⟨family, hf, rfl⟩
    · exact .inr ⟨rfl, List.mem_append_right _ (List.mem_singleton_self _)⟩

theorem addMember (h : Registered w created)
    (hrun : (Build.addMember f lower upper x).run.run w = (.ok v, w')) :
    ∃ family, w.findFamily f = some family ∧
      Registered w' fun m' => created m' ++ if family.model = m' then w.newVariables w' else [] := by
  obtain ⟨family, hfamily, ⟨l, hl, hname⟩, he, hfamilies, hsequences⟩ := run_addMember_ok hrun
  obtain ⟨l', hl', hmem⟩ := h.owner hfamily
  cases hl.symm.trans hl'
  refine ⟨family, hfamily, h.enter he hl
    (mirrors_addMember (h.mirrors hl) hfamily hmem hname he hfamilies hsequences)
    (fun f' family' hf' hne => ?_) (by rw [hsequences]) (fun q _ => findSequence_congr hsequences q)
    (fun f' family' hf' => .inl ?_) fun _ hf => hf⟩
  · have hindex : ¬ f.index = f'.index := fun hi => hne (by
      have hff : f = f' := congrArg FamilyId.mk hi
      subst hff
      cases hfamily.symm.trans hf'
      rfl)
    simp [findFamily, hfamilies, Array.getElem?_modify, hindex]
  · simp only [findFamily, hfamilies, Array.getElem?_modify] at hf'
    split at hf'
    · obtain ⟨old, hold, rfl⟩ := Option.map_eq_some_iff.mp hf'
      exact ⟨old, hold, rfl⟩
    · exact ⟨family', hf', rfl⟩

theorem addSequence (h : Registered w created)
    (hrun : (Build.addSequence m name n).run.run w = (.ok q, w')) :
    Registered w' fun m' => created m' ++ if m = m' then w.newVariables w' else [] := by
  obtain ⟨k, ⟨l, hl, hnames, hname⟩, he, hfamilies, hsequences⟩ := run_addSequence_ok hrun
  have hfind : w'.findFamily = w.findFamily := funext (findFamily_congr hfamilies)
  exact h.enter he hl (mirrors_addSequence (h.mirrors hl) hnames hname he hfamilies hsequences)
    (fun _ _ _ _ => by rw [hfind]) (by simp [hsequences])
    (fun _ hq => findSequence_push_of_lt hsequences hq)
    (fun f family hf => .inl ⟨family, hfind ▸ hf, rfl⟩) fun _ hf => hf

theorem newModel (h : Registered w created) (sense : Sense) :
    Registered ((Build.newModel sense).run.run w).2 created :=
  h.pushModel ⟨rfl, rfl⟩ rfl (by rfl) rfl

/-- What is created on no model at all. -/
theorem of_same (h : Registered w created) {call : Call α}
    (hsame : SameListings w (call.effect w)) :
    Registered (call.effect w) fun m => created m ++ call.created m w := by
  have hnil : (fun m => created m ++ call.created m w) = created := funext fun m => by
    rw [Call.created_eq_nil hsame.vars, List.append_nil]
  rw [hnil]
  exact h.same hsame

/-- Every call leaves all models registered. -/
theorem step (h : Registered w created) (call : Call α) :
    Registered (call.effect w) fun m => created m ++ call.created m w := by
  by_cases hadds : call.Adds
  · rcases hrun : call.run.run.run w with ⟨e | ts, w'⟩
    · refine h.of_same ?_
      rw [Call.effect, hrun]
      exact Call.sameListings_of_refused hadds hrun
    · have heffect : call.effect w = w' := by rw [Call.effect, hrun]
      unfold Call.created
      rw [heffect]
      cases call with
      | addVariable m kind name lower upper x =>
        obtain ⟨v, w₁, hadd, hrest⟩ := exists_of_run_bind hrun
        cases hrest
        simpa [Call.target?] using h.addVariable hadd
      | addFamily m kind name =>
        obtain ⟨v, w₁, hadd, hrest⟩ := exists_of_run_bind hrun
        cases hrest
        simpa [Call.target?] using h.addFamily hadd
      | addMember f lower upper x =>
        obtain ⟨v, w₁, hadd, hrest⟩ := exists_of_run_bind hrun
        cases hrest
        obtain ⟨family, hfamily, h⟩ := h.addMember hadd
        simpa [Call.target?, hfamily] using h
      | addSequence m name n =>
        obtain ⟨v, w₁, hadd, hrest⟩ := exists_of_run_bind hrun
        cases hrest
        simpa [Call.target?] using h.addSequence hadd
      | _ => exact hadds.elim
  · by_cases hnew : ∃ sense, call = .newModel sense
    · obtain ⟨sense, rfl⟩ := hnew
      have heffect : (Call.newModel sense : Call α).effect w = ((Build.newModel sense).run.run w).2 :=
        state_return _ _
      have hnil : (fun m => created m ++ (Call.newModel sense : Call α).created m w) = created :=
        funext fun m => by rw [Call.created_eq_nil (by rw [heffect]; rfl), List.append_nil]
      rw [hnil, heffect]
      exact h.newModel sense
    · exact h.of_same (Call.keeps_of_not_lists hadds (fun sense hcall => hnew ⟨sense, hcall⟩) w)

end Registered

/-! ### Histories -/

section

variable [Scalar α]

/-- The workspace after the calls, refused ones among them. -/
def Workspace.afterCalls (w : Workspace α) (calls : List (Call α)) : Workspace α :=
  calls.foldl (fun w call => call.effect w) w

/-- The variables that the calls create on a model. -/
def createdBy (m : ModelId) : List (Call α) → Workspace α → List VarId
  | [], _ => []
  | call :: calls, w => call.created m w ++ createdBy m calls (call.effect w)

/-- Calls leave all models registered. -/
theorem Registered.run {created : ModelId → List VarId} (h : Registered w created)
    (calls : List (Call α)) :
    Registered (w.afterCalls calls) fun m => created m ++ createdBy m calls w := by
  induction calls generalizing w created with
  | nil => simpa [afterCalls, createdBy] using h
  | cons call calls ih => simpa [afterCalls, createdBy] using ih (h.step call)

omit [Scalar α] in
theorem registered_empty : Registered ({} : Workspace α) fun _ => [] where
  mirrors hl := by simp [listing?, findModel] at hl
  missing _ := rfl
  owner hf := by simp [findFamily] at hf

end

/-- The namespaces of a model are the names of what it lists, each once, and its variables are those
that were created on it. -/
structure Workspace.Namespaces (w : Workspace α) (m : ModelId) (model : Model α)
    (created : List VarId) : Prop where
  listed : (w.allVariables m).Perm created
  once : (w.allVariables m).Nodup
  variable_distinct : ((w.allVariables m).map w.variableName).Nodup
  variableNames : model.variableNames.Perm ((w.allVariables m).map w.variableName)
  family_distinct : (model.families.map w.familyName).Nodup
  familyNames : model.familyNames.Perm (model.families.map w.familyName)
  sequence_distinct : (model.sequences.map w.sequenceName).Nodup
  sequenceNames : model.sequenceNames.Perm (model.sequences.map w.sequenceName)
  family_entry {f : FamilyId} {i : Nat} {v : VarId} : f ∈ model.families →
    (w.members f)[i]? = some v → w.variableName v = entryName (w.familyName f) i
  sequence_entry {q : SequenceId} {i : Nat} {v : VarId} : q ∈ model.sequences →
    (w.sequenceMembers q)[i]? = some v → w.variableName v = entryName (w.sequenceName q) i

theorem Mirrors.namespaces {model : Model α} {created : List VarId}
    (h : Mirrors w m model.listing created) (hm : w.findModel m = some model) :
    w.Namespaces m model created := by
  have hdistinct := h.vars.names.nodup_iff.mp h.vars.distinct
  refine ⟨?_, ?_, ?_, ?_, h.families.names.nodup_iff.mp h.families.distinct, h.families.names,
    h.sequences.names.nodup_iff.mp h.sequences.distinct, h.sequences.names,
    fun hf => eq_entryName (h.families.members _ hf),
    fun hq => eq_entryName (h.sequences.members _ hq)⟩
  all_goals rw [allVariables_eq hm]
  · exact h.vars.created
  · exact hdistinct.of_map _
  · exact hdistinct
  · exact h.vars.names

/-- After any calls, refused ones among them, the namespaces of every model mirror it. -/
theorem namespaces_of_calls [Scalar α] (calls : List (Call α)) {model : Model α}
    (hm : (Workspace.afterCalls {} calls).findModel m = some model) :
    (Workspace.afterCalls {} calls).Namespaces m model (createdBy m calls {}) := by
  have hlisting : (Workspace.afterCalls {} calls).listing? m = some model.listing := by
    simp [listing?, hm]
  exact ((registered_empty.run calls).mirrors hlisting).namespaces hm

namespace Small

/-- A variable takes the name that the second member of a family would get, so that the family stays
with one member; a sequence follows. -/
def namesakes : List (Call Exact) :=
  [.newModel .feasible, .addFamily ⟨0⟩ .integer "a",
    .addMember ⟨0⟩ .absent .absent (.literal .absent),
    .addVariable ⟨0⟩ .real "a[1]" .absent .absent (.literal .absent),
    .addMember ⟨0⟩ .absent .absent (.literal .absent), .addSequence ⟨0⟩ "s" (.int 2)]

theorem namesakes_namespaces : ∃ model,
    (Workspace.afterCalls {} namesakes).findModel ⟨0⟩ = some model ∧
      model.variableNames = ["s[1]", "s[0]", "a[1]", "a[0]"] ∧
      createdBy ⟨0⟩ namesakes {} = [⟨0⟩, ⟨1⟩, ⟨2⟩, ⟨3⟩] ∧
      (Workspace.afterCalls {} namesakes).Namespaces ⟨0⟩ model [⟨0⟩, ⟨1⟩, ⟨2⟩, ⟨3⟩] :=
  ⟨_, rfl, by decide +kernel, by decide +kernel, namespaces_of_calls namesakes rfl⟩

end Small

end DecisionModel
