import DecisionModel.Proofs.Builder.Names

/-!
# Members of sequences

The members of a sequence are entered together: a sequence of length `n` declares `n` integer variables
from one to `n`, none of which has a definition (`vars_addSequence`). No call changes a variable or a
sequence that is there, so this is what the members of every sequence look like after any calls
(`hasMembers_afterCalls`).
-/

namespace DecisionModel

open Build Workspace

variable {α : Type} [Scalar α] {w w' : Workspace α} {m : ModelId} {v : VarId}

/-- The declaration of a member of a sequence of length `n`. -/
def Variable.member (n : Nat) (name : String) : Variable α :=
  { kind := .integer, name, lower := Scalar.one, upper := Scalar.ofInt n }

/-- The members of sequences are declared as such. -/
def Workspace.HasMembers (w : Workspace α) : Prop :=
  ∀ q, ∀ v ∈ w.sequenceMembers q,
    ∃ name, w.findVariable v = some (.member (w.sequenceMembers q).length name)

omit [Scalar α] in
theorem declares_of_findVariable {d : Variable α} (h : w.findVariable v = some d) : w.Declares v :=
  (Array.getElem?_eq_some_iff.mp h).1

/-! ### Entering the members -/

omit [Scalar α] in
theorem vars_enterVariable (new : Variable α) :
    ((enterVariable m new).run.run w).2.vars = w.vars.push new := rfl

omit [Scalar α] in
theorem vars_enterVariables (new : String → Variable α) {names : List String} {vs : List VarId}
    (h : (names.mapM fun name => enterVariable m (new name)).run.run w = (.ok vs, w')) :
    w'.vars.toList = w.vars.toList ++ names.map new := by
  induction names generalizing w vs with
  | nil =>
    cases h
    simp
  | cons name names ih =>
    rw [List.mapM_cons] at h
    obtain ⟨v, w₁, hv, h⟩ := exists_of_run_bind h
    obtain ⟨vs, w₂, hvs, h⟩ := exists_of_run_bind h
    cases h
    have hw₁ : w₁.vars = w.vars.push (new name) := by
      rw [← vars_enterVariable (m := m) (new name), hv]
    rw [ih hvs, hw₁]
    simp

/-- A sequence that is added declares its members and nothing else. -/
theorem vars_addSequence {name : String} {n : Literal α} {q : SequenceId}
    (h : (addSequence m name n).run.run w = (.ok q, w')) :
    ∃ names : List String,
      w'.vars.toList = w.vars.toList ++ names.map (Variable.member names.length) := by
  unfold addSequence at h
  split at h
  · cases h
  rename_i k _
  obtain ⟨model, w₁, hmodel, hrest⟩ := exists_of_run_bind h
  obtain ⟨rfl, -⟩ := run_getModel hmodel
  dsimp only at hrest
  split at hrest
  · obtain ⟨_, _, hrefused, -⟩ := exists_of_run_bind hrest
    cases hrefused
  split at hrest
  · obtain ⟨_, _, hrefused, -⟩ := exists_of_run_bind hrest
    cases hrefused
  obtain ⟨vs, w₂, hmembers, hlast⟩ := exists_of_run_bind hrest
  cases hlast
  refine ⟨(List.range k).map fun i => name ++ "[" ++ toString i ++ "]", ?_⟩
  rw [List.length_map, List.length_range]
  have hvars : w₂.vars.toList = _ :=
    vars_enterVariables (fun name => (Variable.member k name : Variable α)) hmembers
  exact hvars

omit [Scalar α] in
/-- What is declared in addition is what was appended. -/
theorem findVariable_of_mem_newVariables {new : List (Variable α)}
    (h : w'.vars.toList = w.vars.toList ++ new) (hv : v ∈ w.newVariables w') :
    ∃ d ∈ new, w'.findVariable v = some d := by
  simp only [newVariables, List.mem_map, List.mem_range'_1] at hv
  obtain ⟨i, hi, rfl⟩ := hv
  have hsize : w'.vars.size = w.vars.size + new.length := by
    rw [← Array.length_toList, h, List.length_append, Array.length_toList]
  have hlt : i - w.vars.size < new.length := by omega
  refine ⟨new[i - w.vars.size], List.getElem_mem hlt, ?_⟩
  have hlist : w'.vars.toList[i]? = some new[i - w.vars.size] := by
    rw [h, List.getElem?_append_right (by simpa using hi.1), Array.length_toList,
      List.getElem?_eq_getElem hlt]
  rwa [Array.getElem?_toList] at hlist

/-! ### Histories -/

/-- The sequences are the same and the variables are kept. -/
theorem Workspace.HasMembers.frame (h : w.HasMembers) (hk : KeepsVariables w w')
    (hsequences : w'.sequences = w.sequences) : w'.HasMembers := by
  intro q v hv
  have hq : w'.sequenceMembers q = w.sequenceMembers q :=
    sequenceMembers_congr (findSequence_congr hsequences q)
  rw [hq] at hv ⊢
  obtain ⟨name, hname⟩ := h q v hv
  exact ⟨name, (hk.find (declares_of_findVariable hname)).trans hname⟩

theorem Workspace.HasMembers.same (h : w.HasMembers) (hvars : w'.vars = w.vars)
    (hsequences : w'.sequences = w.sequences) : w'.HasMembers :=
  h.frame ⟨by rw [hvars], fun _ => by simp [findVariable, hvars]⟩ hsequences

theorem Workspace.HasMembers.addSequence {name : String} {n : Literal α} {q : SequenceId}
    (h : w.HasMembers) (hrun : (addSequence m name n).run.run w = (.ok q, w')) : w'.HasMembers := by
  obtain ⟨names, hvars⟩ := vars_addSequence hrun
  obtain ⟨k, -, he, -, hsequences⟩ := run_addSequence_ok hrun
  intro p v hv
  by_cases hp : p.index < w.sequences.size
  · have hsame : w'.sequenceMembers p = w.sequenceMembers p :=
      sequenceMembers_congr (findSequence_push_of_lt hsequences hp)
    rw [hsame] at hv ⊢
    obtain ⟨name, hname⟩ := h p v hv
    exact ⟨name, (he.find (declares_of_findVariable hname)).trans hname⟩
  · -- a sequence that was not there before is the one that is added
    have hnew : w'.sequenceMembers p = w.newVariables w' := by
      simp only [sequenceMembers, findSequence, hsequences, Array.getElem?_push] at hv ⊢
      split at hv
      · simp_all
      · simp [Array.getElem?_eq_none (Nat.le_of_not_lt hp)] at hv
    have hlength : (w.newVariables w').length = names.length := by
      simp [newVariables, ← Array.length_toList, hvars]
    rw [hnew] at hv ⊢
    obtain ⟨d, hd, hfind⟩ := findVariable_of_mem_newVariables hvars hv
    obtain ⟨memberName, -, rfl⟩ := List.mem_map.mp hd
    exact ⟨memberName, hlength ▸ hfind⟩

theorem Workspace.HasMembers.step (h : w.HasMembers) (call : Call α) : (call.effect w).HasMembers := by
  by_cases hadds : call.Adds
  · rcases hrun : call.run.run.run w with ⟨e | ts, w'⟩
    · rw [Call.effect, hrun]
      have hsame := Call.sameListings_of_refused hadds hrun
      exact h.same hsame.vars hsame.sequences
    · rw [Call.effect, hrun]
      cases call with
      | addVariable m kind name lower upper x =>
        obtain ⟨v, w₁, hadd, hrest⟩ := exists_of_run_bind hrun
        cases hrest
        obtain ⟨-, he, -, hsequences⟩ := run_addVariable_ok hadd
        exact h.frame he.keepsVariables hsequences
      | addFamily m kind name =>
        obtain ⟨f, w₁, hadd, hrest⟩ := exists_of_run_bind hrun
        cases hrest
        obtain ⟨-, he, -, hsequences⟩ := run_addFamily_ok hadd
        exact h.frame he.keepsVariables hsequences
      | addMember f lower upper x =>
        obtain ⟨v, w₁, hadd, hrest⟩ := exists_of_run_bind hrun
        cases hrest
        obtain ⟨family, -, -, he, -, hsequences⟩ := run_addMember_ok hadd
        exact h.frame he.keepsVariables hsequences
      | addSequence m name n =>
        obtain ⟨q, w₁, hadd, hrest⟩ := exists_of_run_bind hrun
        cases hrest
        exact h.addSequence hadd
      | _ => exact hadds.elim
  · by_cases hnew : ∃ sense, call = .newModel sense
    · obtain ⟨sense, rfl⟩ := hnew
      exact h.same rfl rfl
    · have hsame : SameListings w (call.effect w) :=
        Call.keeps_of_not_lists hadds (fun sense hcall => hnew ⟨sense, hcall⟩) w
      exact h.same hsame.vars hsame.sequences

/-- After any calls the members of sequences are declared as such. -/
theorem hasMembers_afterCalls (calls : List (Call α)) : (afterCalls {} calls : Workspace α).HasMembers := by
  have hrun : ∀ w : Workspace α, w.HasMembers → (w.afterCalls calls).HasMembers := by
    induction calls with
    | nil => exact fun w h => h
    | cons call calls ih => exact fun w h => ih _ (h.step call)
  exact hrun {} fun q v hv => by simp [sequenceMembers, findSequence] at hv

end DecisionModel
