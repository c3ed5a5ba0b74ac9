import Mathlib.Data.List.Basic
import DecisionModel.Builder.Model
import DecisionModel.Proofs.Term.WellBuilt

/-!
# Well-formed workspaces

A workspace is `WellFormed` over a register of identities if its terms are as builders make them, the
variables that models list are declared, and the names of operators in registered nodes are in the table
of operators. The changes that builders make to a workspace keep this, as long as what they enter has
these properties.
-/

namespace DecisionModel

variable {α β γ : Type} [Scalar α]

/-- The declaration of a member of a sequence of length `n`. -/
structure Variable.IsMember (d : Variable α) (n : Nat) : Prop where
  kind : d.kind = .integer
  lower : d.lower = Scalar.one
  upper : d.upper = Scalar.ofInt n

/-- The names of named operators at the tops of the terms in a register are in the table. -/
def Workspace.Names (w : Workspace α) (origin : NodeId → Option (Term α)) : Prop :=
  ∀ ⦃id t⦄, origin id = some t → ∀ name, t.operator? = some (.custom name) → name ∈ w.operators

/-- The terms of a workspace are well built, and what its models list is declared. -/
structure Workspace.WellFormed (origin : NodeId → Option (Term α)) (w : Workspace α) : Prop where
  fresh {id : NodeId} {t : Term α} : origin id = some t → id.index < w.nextNode
  named : w.Names origin
  definition {v : VarId} {t : Term α} : w.definition? v = some t → t.WellBuilt origin
  constraint {m : ModelId} {model : Model α} {t : Term α} : w.findModel m = some model →
    t ∈ model.constraints → t.WellBuilt origin
  objective {m : ModelId} {model : Model α} : w.findModel m = some model →
    model.objective.WellBuilt origin
  declared {m : ModelId} {model : Model α} {v : VarId} : w.findModel m = some model →
    v ∈ model.vars → ∃ d, w.findVariable v = some d
  member {f : FamilyId} {v : VarId} : v ∈ w.members f → ∃ d, w.findVariable v = some d
  sequence {q : SequenceId} {v : VarId} : v ∈ w.sequenceMembers q →
    ∃ d, w.findVariable v = some d ∧ d.IsMember (w.sequenceMembers q).length

/-- The register and the workspace after some building, which forgets nothing. -/
structure Grown (origin : NodeId → Option (Term α)) (w : Workspace α)
    (origin' : NodeId → Option (Term α)) (w' : Workspace α) : Prop where
  register {id : NodeId} {t : Term α} : origin id = some t → origin' id = some t
  declared {v : VarId} {d : Variable α} : w.findVariable v = some d → w'.findVariable v = some d
  wellFormed : w'.WellFormed origin'

/-- What is given can be used: if it is a term, it is well built. -/
def Input.Known (origin : NodeId → Option (Term α)) : Input α → Prop
  | .term t => t.WellBuilt origin
  | _ => True

variable {origin origin' origin₁ origin₂ : NodeId → Option (Term α)} {w w' w₁ w₂ : Workspace α}

theorem Grown.refl (hw : w.WellFormed origin) : Grown origin w origin w :=
  ⟨fun h => h, fun h => h, hw⟩

theorem Grown.trans (h₁ : Grown origin w origin₁ w₁) (h₂ : Grown origin₁ w₁ origin₂ w₂) :
    Grown origin w origin₂ w₂ where
  register h := h₂.register (h₁.register h)
  declared h := h₂.declared (h₁.declared h)
  wellFormed := h₂.wellFormed

theorem Grown.wellBuilt (h : Grown origin w origin' w') {t : Term α} (ht : t.WellBuilt origin) :
    t.WellBuilt origin' := ht.mono fun _ _ => h.register

theorem Grown.known (h : Grown origin w origin' w') {x : Input α} (hx : x.Known origin) :
    x.Known origin' := by
  cases x with
  | term t => exact h.wellBuilt hx
  | _ => trivial

omit [Scalar α] in
theorem Workspace.definition?_eq {w : Workspace α} {v : VarId} {t : Term α} :
    w.definition? v = some t ↔ ∃ d, w.findVariable v = some d ∧ d.definition = some t := by
  simp [Workspace.definition?, Option.bind_eq_some_iff]

/-! ### Changes of a workspace -/

/-- A change that concerns neither terms nor declarations. -/
theorem Workspace.WellFormed.congr (hw : w.WellFormed origin) (hvars : w'.vars = w.vars)
    (hfamilies : w'.families = w.families) (hsequences : w'.sequences = w.sequences)
    (hmodels : w'.models = w.models) (hnext : w.nextNode ≤ w'.nextNode)
    (hoperators : ∀ name ∈ w.operators, name ∈ w'.operators) : w'.WellFormed origin where
  fresh h := Nat.lt_of_lt_of_le (hw.fresh h) hnext
  named _ _ h name hname := hoperators name (hw.named h name hname)
  definition h := hw.definition (by simpa [definition?, findVariable, hvars] using h)
  constraint h ht := hw.constraint (by simpa [findModel, hmodels] using h) ht
  objective h := hw.objective (by simpa [findModel, hmodels] using h)
  declared h hv := by
    simpa [findVariable, hvars] using hw.declared (by simpa [findModel, hmodels] using h) hv
  member h := by
    simpa [findVariable, hvars] using hw.member (by simpa [members, findFamily, hfamilies] using h)
  sequence h := by
    have hmembers : ∀ q, w'.sequenceMembers q = w.sequenceMembers q := fun q => by
      simp [sequenceMembers, findSequence, hsequences]
    simpa [findVariable, hvars, hmembers] using hw.sequence (hmembers _ ▸ h)

/-- A register with more identities, all of them handed out. -/
theorem Workspace.WellFormed.register (hw : w.WellFormed origin)
    (ho : ∀ id t, origin id = some t → origin' id = some t)
    (hfresh : ∀ id t, origin' id = some t → id.index < w.nextNode) (hnamed : w.Names origin') :
    w.WellFormed origin' where
  fresh := hfresh _ _
  named := hnamed
  definition h := (hw.definition h).mono ho
  constraint h ht := (hw.constraint h ht).mono ho
  objective h := (hw.objective h).mono ho
  declared := hw.declared
  member := hw.member
  sequence := hw.sequence

/-- A new identity is given to a term, whose operator is in the table if it is a named one. -/
theorem grown_enter (hw : w.WellFormed origin) {t : Term α}
    (ht : ∀ name, t.operator? = some (.custom name) → name ∈ w.operators) :
    Grown origin w (Function.update origin ⟨w.nextNode⟩ (some t))
      { w with nextNode := w.nextNode + 1 } := by
  have hregister : ∀ id s, origin id = some s →
      Function.update origin ⟨w.nextNode⟩ (some t) id = some s := by
    intro id s h
    rw [Function.update_of_ne, h]
    rintro rfl
    exact absurd (hw.fresh h) (Nat.lt_irrefl _)
  have hnext : ({ w with nextNode := w.nextNode + 1 } : Workspace α).WellFormed origin :=
    hw.congr rfl rfl rfl rfl (Nat.le_succ _) fun _ => id
  refine ⟨hregister _ _, fun h => h, hnext.register hregister (fun id s h => ?_) fun id s h => ?_⟩
  · by_cases hid : id = ⟨w.nextNode⟩
    · rw [hid]
      exact Nat.lt_succ_self _
    · rw [Function.update_of_ne hid] at h
      exact Nat.lt_succ_of_lt (hw.fresh h)
  · by_cases hid : id = ⟨w.nextNode⟩
    · rw [hid, Function.update_self] at h
      cases h
      exact ht
    · rw [Function.update_of_ne hid] at h
      exact hw.named h

omit [Scalar α] in
theorem findModel_modifyModel {m m' : ModelId} {f : Model α → Model α} {model : Model α}
    (h : (w.modifyModel m f).findModel m' = some model) :
    w.findModel m' = some model ∨ ∃ old, w.findModel m' = some old ∧ model = f old := by
  simp only [Workspace.modifyModel, Workspace.findModel, Array.getElem?_modify] at h
  split at h
  · obtain ⟨old, hold, rfl⟩ := Option.map_eq_some_iff.mp h
    exact .inr ⟨old, hold, rfl⟩
  · exact .inl h

/-- A model is changed to one whose terms are well built and whose variables are declared. -/
theorem Workspace.WellFormed.modifyModel (hw : w.WellFormed origin) (m : ModelId)
    {f : Model α → Model α}
    (hconstraints : ∀ model : Model α, (∀ t ∈ model.constraints, t.WellBuilt origin) →
      ∀ t ∈ (f model).constraints, t.WellBuilt origin)
    (hobjective : ∀ model : Model α, model.objective.WellBuilt origin →
      (f model).objective.WellBuilt origin)
    (hvars : ∀ model : Model α, (∀ v ∈ model.vars, ∃ d, w.findVariable v = some d) →
      ∀ v ∈ (f model).vars, ∃ d, w.findVariable v = some d) :
    (w.modifyModel m f).WellFormed origin where
  fresh := hw.fresh
  named := hw.named
  definition := hw.definition
  constraint h ht := by
    rcases findModel_modifyModel h with h | ⟨old, hold, rfl⟩
    · exact hw.constraint h ht
    · exact hconstraints old (fun t ht => hw.constraint hold ht) _ ht
  objective h := by
    rcases findModel_modifyModel h with h | ⟨old, hold, rfl⟩
    · exact hw.objective h
    · exact hobjective old (hw.objective hold)
  declared h hv := by
    rcases findModel_modifyModel h with h | ⟨old, hold, rfl⟩
    · exact hw.declared h hv
    · exact hvars old (fun v hv => hw.declared hold hv) _ hv
  member := hw.member
  sequence := hw.sequence

omit [Scalar α] in
theorem findVariable_push {v : VarId} {d new : Variable α} (h : w.findVariable v = some d) :
    ({ w with vars := w.vars.push new } : Workspace α).findVariable v = some d := by
  simp only [Workspace.findVariable] at h ⊢
  rw [Array.getElem?_push_lt (Array.getElem?_eq_some_iff.mp h).1]
  simpa using (Array.getElem?_eq_some_iff.mp h).2

/-- A variable is declared. -/
theorem Workspace.WellFormed.pushVariable (hw : w.WellFormed origin) {new : Variable α}
    (hnew : ∀ t, new.definition = some t → t.WellBuilt origin) :
    ({ w with vars := w.vars.push new } : Workspace α).WellFormed origin where
  fresh := hw.fresh
  named := hw.named
  definition h := by
    obtain ⟨d, hd, ht⟩ := definition?_eq.mp h
    simp only [findVariable, Array.getElem?_push] at hd
    split at hd
    · cases hd
      exact hnew _ ht
    · exact hw.definition (definition?_eq.mpr ⟨d, hd, ht⟩)
  constraint := hw.constraint
  objective := hw.objective
  declared h hv := by
    obtain ⟨d, hd⟩ := hw.declared h hv
    exact ⟨d, findVariable_push hd⟩
  member h := by
    obtain ⟨d, hd⟩ := hw.member h
    exact ⟨d, findVariable_push hd⟩
  sequence h := by
    obtain ⟨d, hd, hm⟩ := hw.sequence h
    exact ⟨d, findVariable_push hd, hm⟩

/-! ### Families and sequences -/

omit [Scalar α] in
theorem findFamily_push {f f' : Family} {id : FamilyId}
    (h : ({ w with families := w.families.push f } : Workspace α).findFamily id = some f') :
    w.findFamily id = some f' ∨ f' = f := by
  simp only [Workspace.findFamily, Array.getElem?_push] at h
  split at h
  · exact .inr (Option.some.inj h).symm
  · exact .inl h

omit [Scalar α] in
theorem mem_members {w : Workspace α} {id : FamilyId} {v : VarId} :
    v ∈ w.members id ↔ ∃ f, w.findFamily id = some f ∧ v ∈ f.members := by
  cases h : w.findFamily id with
  | none => simp [Workspace.members, h]
  | some f => simp [Workspace.members, h]

/-- The families are changed so that no member is listed that is not declared. -/
theorem Workspace.WellFormed.changeFamilies (hw : w.WellFormed origin) {families : Array Family}
    (h : ∀ f v, v ∈ ({ w with families } : Workspace α).members f →
      ∃ d, w.findVariable v = some d) :
    ({ w with families } : Workspace α).WellFormed origin where
  fresh := hw.fresh
  named := hw.named
  definition := hw.definition
  constraint := hw.constraint
  objective := hw.objective
  declared := hw.declared
  member := h _ _
  sequence := hw.sequence

omit [Scalar α] in
theorem mem_sequenceMembers {w : Workspace α} {id : SequenceId} {v : VarId} :
    v ∈ w.sequenceMembers id ↔ ∃ q, w.findSequence id = some q ∧ v ∈ q.members := by
  cases h : w.findSequence id with
  | none => simp [Workspace.sequenceMembers, h]
  | some q => simp [Workspace.sequenceMembers, h]

omit [Scalar α] in
theorem findSequence_push {new q : Sequence} {id : SequenceId}
    (h : ({ w with sequences := w.sequences.push new } : Workspace α).findSequence id = some q) :
    w.findSequence id = some q ∨ q = new := by
  simp only [Workspace.findSequence, Array.getElem?_push] at h
  split at h
  · exact .inr (Option.some.inj h).symm
  · exact .inl h

omit [Scalar α] in
theorem sequenceMembers_eq {q : Sequence} {id : SequenceId} (h : w.findSequence id = some q) :
    w.sequenceMembers id = q.members := by simp [Workspace.sequenceMembers, h]

/-- A sequence whose members are declared as members of a sequence of its length. -/
theorem Workspace.WellFormed.pushSequence (hw : w.WellFormed origin) (new : Sequence)
    (hnew : ∀ v ∈ new.members, ∃ d, w.findVariable v = some d ∧ d.IsMember new.members.length) :
    ({ w with sequences := w.sequences.push new } : Workspace α).WellFormed origin where
  fresh := hw.fresh
  named := hw.named
  definition := hw.definition
  constraint := hw.constraint
  objective := hw.objective
  declared := hw.declared
  member := hw.member
  sequence h := by
    obtain ⟨q, hq, hv⟩ := mem_sequenceMembers.mp h
    rw [sequenceMembers_eq hq]
    rcases findSequence_push hq with hold | rfl
    · have hm := hw.sequence (mem_sequenceMembers.mpr ⟨q, hold, hv⟩)
      rw [sequenceMembers_eq hold] at hm
      exact hm
    · exact hnew _ hv

end DecisionModel
