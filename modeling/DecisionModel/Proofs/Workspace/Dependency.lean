import Mathlib.Data.Fintype.Card
import Mathlib.Data.List.Perm.Subperm
import Mathlib.Logic.Relation
import DecisionModel.Proofs.Builder.WellFormed

/-!
# Dependencies between variables

A variable depends on the variables that its definition mentions, as variables or as index variables,
and on all current members of the families that it selects from (`Workspace.DependsOn`). A workspace
is `Acyclic` if no variable reaches itself along dependencies.

The search that builders make before a member joins a family (`Workspace.selectsFrom`) finds exactly
the families that a term selects from, itself or through the definitions of variables it reaches
(`selectsFrom_iff`): each of its rounds adds a variable that was not there before, so that there are
at most as many rounds as variables.

In an acyclic workspace every chain of definitions is bounded by the `rank` of the variable it starts
from.
-/

namespace DecisionModel

variable {α : Type}

instance : LawfulBEq VarId where
  eq_of_beq {v u} h := by
    cases v
    cases u
    simpa [BEq.beq, instBEqVarId.beq] using h
  rfl {v} := by
    cases v
    simp [BEq.beq, instBEqVarId.beq]

namespace Term

theorem mem_mentionsAll {x : Mention} {ts : List (Term α)} :
    x ∈ mentionsAll ts ↔ ∃ t ∈ ts, x ∈ t.mentions := by
  induction ts with
  | nil => simp [mentionsAll]
  | cons t ts ih => simp [mentionsAll, ih]

theorem Within.mentions {s t : Term α} (h : Within s t) {x : Mention} (hx : x ∈ s.mentions) :
    x ∈ t.mentions := by
  induction h with
  | refl => exact hx
  | operand hm _ ih => exact mem_mentionsAll.mpr ⟨_, hm, ih⟩

end Term

namespace Workspace

/-- The definition of `v` mentions `u`, or it selects from a family that has `u` as a member. -/
def DependsOn (w : Workspace α) (v u : VarId) : Prop :=
  ∃ t, w.definition? v = some t ∧
    (.variable u ∈ t.mentions ∨ ∃ f, .family f ∈ t.mentions ∧ u ∈ w.members f)

/-- The variable depends on itself through at least one definition. -/
def OnCycle (w : Workspace α) (v : VarId) : Prop := Relation.TransGen w.DependsOn v v

def Acyclic (w : Workspace α) : Prop := ∀ v, ¬ w.OnCycle v

/-- The term reads the variable, itself or through definitions. -/
def Reaches (w : Workspace α) (t : Term α) (v : VarId) : Prop :=
  ∃ u ∈ w.reads t, Relation.ReflTransGen w.DependsOn u v

/-- The terms that the evaluation of a term looks at: itself, and the definitions of the variables
that it reaches. -/
def Involves (w : Workspace α) (t r : Term α) : Prop :=
  r = t ∨ ∃ v, w.Reaches t v ∧ w.definition? v = some r

/-- The variable is in the workspace. -/
def Declares (w : Workspace α) (v : VarId) : Prop := v.index < w.vars.size

/-- The variables of the term are in the workspace. -/
def DeclaresAll (w : Workspace α) (t : Term α) : Prop :=
  ∀ v, .variable v ∈ t.mentions → w.Declares v

/-- The term selects from the family, itself or in a definition that it reaches. -/
def Selects (w : Workspace α) (f : FamilyId) (t : Term α) : Prop :=
  .family f ∈ t.mentions ∨ ∃ v s, w.Reaches t v ∧ w.definition? v = some s ∧ .family f ∈ s.mentions

/-- What definitions mention and what families list is in the workspace. -/
structure Closed (w : Workspace α) : Prop where
  definition {v : VarId} {t : Term α} : w.definition? v = some t → w.DeclaresAll t
  member {f : FamilyId} {v : VarId} : v ∈ w.members f → w.Declares v

variable {w : Workspace α} {t : Term α} {u v : VarId}

theorem mem_reads : u ∈ w.reads t ↔
    .variable u ∈ t.mentions ∨ ∃ f, .family f ∈ t.mentions ∧ u ∈ w.members f := by
  unfold reads
  rw [List.mem_flatMap]
  constructor
  · rintro ⟨x | f, hx, hu⟩
    · obtain rfl : u = x := by simpa [mentioned] using hu
      exact .inl hx
    · exact .inr ⟨f, hx, hu⟩
  · rintro (h | ⟨f, hf, hu⟩)
    · exact ⟨_, h, List.mem_singleton_self u⟩
    · exact ⟨_, hf, hu⟩

theorem reads_of_within {s : Term α} (h : Term.Within s t) (hu : u ∈ w.reads s) : u ∈ w.reads t := by
  rw [mem_reads] at hu ⊢
  exact hu.imp h.mentions fun ⟨f, hf, hm⟩ => ⟨f, h.mentions hf, hm⟩

theorem dependsOn_iff_reads : w.DependsOn v u ↔ ∃ t, w.definition? v = some t ∧ u ∈ w.reads t :=
  exists_congr fun _ => and_congr_right fun _ => mem_reads.symm

theorem dependsOn_iff : w.DependsOn v u ↔ u ∈ w.dependencies v := by
  rw [dependsOn_iff_reads, dependencies]
  cases w.definition? v <;> simp

theorem Reaches.definition (h : w.Reaches t v) {s : Term α} (hs : w.definition? v = some s)
    (hu : u ∈ w.reads s) : w.Reaches t u := by
  obtain ⟨x, hx, hxv⟩ := h
  exact ⟨x, hx, hxv.tail (dependsOn_iff_reads.mpr ⟨s, hs, hu⟩)⟩

theorem reaches_of_reads (h : v ∈ w.reads t) : w.Reaches t v := ⟨v, h, .refl⟩

theorem Closed.declares_of_dependsOn (hw : w.Closed) (h : w.DependsOn v u) : w.Declares u := by
  obtain ⟨t, ht, hu | ⟨f, -, hu⟩⟩ := h
  · exact hw.definition ht u hu
  · exact hw.member hu

theorem Closed.declares_of_reads (hw : w.Closed) (ht : w.DeclaresAll t) (hv : v ∈ w.reads t) :
    w.Declares v := by
  obtain hv | ⟨f, -, hv⟩ := mem_reads.mp hv
  · exact ht v hv
  · exact hw.member hv

theorem Closed.declares_of_reaches (hw : w.Closed) (ht : w.DeclaresAll t) (hv : w.Reaches t v) :
    w.Declares v := by
  obtain ⟨u, hu, huv⟩ := hv
  induction huv with
  | refl => exact hw.declares_of_reads ht hu
  | tail _ hstep _ => exact hw.declares_of_dependsOn hstep

/-! ### The search -/

/-- A list without repetitions of variables of the workspace is no longer than its table. -/
theorem length_le_size {vs : List VarId} (hn : vs.Nodup) (hd : ∀ v ∈ vs, w.Declares v) :
    vs.length ≤ w.vars.size := by
  have hindex : (vs.map (·.index)).Nodup := hn.map fun v u h => by
    cases v
    cases u
    exact congrArg VarId.mk h
  have hsub : vs.map (·.index) ⊆ List.range w.vars.size := by
    intro i hi
    obtain ⟨v, hv, rfl⟩ := List.mem_map.mp hi
    exact List.mem_range.mpr (hd v hv)
  simpa using (hindex.subperm hsub).length_le

theorem nodup_eraseDups (vs : List VarId) : vs.eraseDups.Nodup := by
  induction h : vs.length using Nat.strong_induction_on generalizing vs with
  | _ n ih =>
    cases vs with
    | nil => simp
    | cons v vs =>
      rw [List.eraseDups_cons, List.nodup_cons]
      refine ⟨by simp, ih _ ?_ _ rfl⟩
      have hle := List.length_filter_le (fun u => !u == v) vs
      rw [List.length_cons] at h
      omega

/-- The search finds only what dependencies lead to. -/
theorem reaches_of_mem_reach {fuel : Nat} {visited frontier : List VarId}
    (hf : ∀ v ∈ frontier, w.Reaches t v) (hv : ∀ v ∈ visited, w.Reaches t v) :
    ∀ v ∈ w.reach fuel visited frontier, w.Reaches t v := by
  induction fuel generalizing visited frontier with
  | zero => exact hv
  | succ fuel ih =>
    cases frontier with
    | nil => exact hv
    | cons x frontier =>
      have hnext : ∀ v ∈ ((((x :: frontier).flatMap w.dependencies).eraseDups).filter
          (!visited.contains ·)), w.Reaches t v := by
        intro v hm
        rw [List.mem_filter, List.mem_eraseDups, List.mem_flatMap] at hm
        obtain ⟨⟨u, hu, hvu⟩, -⟩ := hm
        obtain ⟨y, hy, hyu⟩ := hf u hu
        exact ⟨y, hy, hyu.tail (dependsOn_iff.mpr hvu)⟩
      refine ih hnext fun v hm => ?_
      rcases List.mem_append.mp hm with hm | hm
      · exact hv v hm
      · exact hnext v hm

/-- What the rounds of the search keep: the frontier is the part of the visited variables whose
dependencies may not have been visited, and there are rounds left for all variables not visited. -/
structure Searching (w : Workspace α) (fuel : Nat) (visited frontier : List VarId) : Prop where
  nodup : visited.Nodup
  declared : ∀ v ∈ visited, w.Declares v
  followed : ∀ v ∈ visited, v ∉ frontier → ∀ u ∈ w.dependencies v, u ∈ visited
  rounds : frontier = [] ∨ w.vars.size < visited.length + fuel

theorem Searching.next (hw : w.Closed) {fuel : Nat} {visited frontier : List VarId}
    (h : w.Searching (fuel + 1) visited frontier) :
    w.Searching fuel (visited ++ ((frontier.flatMap w.dependencies).eraseDups).filter
        (!visited.contains ·))
      (((frontier.flatMap w.dependencies).eraseDups).filter (!visited.contains ·)) := by
  have hmem : ∀ {u}, u ∈ ((frontier.flatMap w.dependencies).eraseDups).filter
      (!visited.contains ·) ↔ (∃ v ∈ frontier, u ∈ w.dependencies v) ∧ u ∉ visited := by
    intro u
    simp [List.mem_filter, List.mem_flatMap]
  refine ⟨?_, fun v hv => ?_, fun v hv hf u hu => ?_, ?_⟩
  · refine h.nodup.append ((nodup_eraseDups _).filter _) fun v hv hn => ?_
    exact (hmem.mp hn).2 hv
  · rcases List.mem_append.mp hv with hv | hv
    · exact h.declared v hv
    · obtain ⟨⟨u, -, hu⟩, -⟩ := hmem.mp hv
      exact hw.declares_of_dependsOn (dependsOn_iff.mpr hu)
  · have hold : v ∈ visited := (List.mem_append.mp hv).resolve_right hf
    rw [List.mem_append]
    by_cases hfrontier : v ∈ frontier
    · by_cases huv : u ∈ visited
      · exact .inl huv
      · exact .inr (hmem.mpr ⟨⟨v, hfrontier, hu⟩, huv⟩)
    · exact .inl (h.followed v hold hfrontier u hu)
  · rcases hn : ((frontier.flatMap w.dependencies).eraseDups).filter (!visited.contains ·)
      with _ | ⟨u, us⟩
    · exact .inl rfl
    · rcases h.rounds with rfl | hlt
      · simp at hn
      · refine .inr ?_
        rw [List.length_append, List.length_cons]
        omega

/-- The search keeps what it visited, and ends when nothing new is found. -/
theorem closed_reach (hw : w.Closed) {fuel : Nat} {visited frontier : List VarId}
    (h : w.Searching fuel visited frontier) :
    (∀ v ∈ visited, v ∈ w.reach fuel visited frontier) ∧
      ∀ v ∈ w.reach fuel visited frontier, ∀ u ∈ w.dependencies v,
        u ∈ w.reach fuel visited frontier := by
  induction fuel generalizing visited frontier with
  | zero =>
    have hle := length_le_size h.nodup h.declared
    obtain rfl := h.rounds.resolve_right (by omega)
    exact ⟨fun _ hv => hv, fun v hv => h.followed v hv List.not_mem_nil⟩
  | succ fuel ih =>
    cases frontier with
    | nil => exact ⟨fun _ hv => hv, fun v hv => h.followed v hv List.not_mem_nil⟩
    | cons x frontier =>
      obtain ⟨hkeep, hclosed⟩ := ih (h.next hw)
      exact ⟨fun v hv => hkeep v (List.mem_append_left _ hv), hclosed⟩

/-- The search finds what the term reads, itself or through definitions. -/
theorem mem_reachable_iff (hw : w.Closed) (ht : w.DeclaresAll t) :
    v ∈ w.reachable t ↔ w.Reaches t v := by
  have hdirect : ∀ u, u ∈ (w.reads t).eraseDups ↔ u ∈ w.reads t := fun _ => List.mem_eraseDups
  have hsearch : w.Searching w.vars.size (w.reads t).eraseDups (w.reads t).eraseDups := by
    refine ⟨nodup_eraseDups _, fun u hu => hw.declares_of_reads ht ((hdirect u).mp hu),
      fun u hu hn => absurd hu hn, ?_⟩
    rcases (w.reads t).eraseDups with _ | ⟨x, xs⟩
    · exact .inl rfl
    · refine .inr ?_
      rw [List.length_cons]
      omega
  obtain ⟨hkeep, hclosed⟩ := closed_reach hw hsearch
  constructor
  · have hreads : ∀ u ∈ (w.reads t).eraseDups, w.Reaches t u := fun u hu =>
      reaches_of_reads ((hdirect u).mp hu)
    exact reaches_of_mem_reach hreads hreads v
  · rintro ⟨u, hu, huv⟩
    induction huv with
    | refl => exact hkeep u ((hdirect u).mpr hu)
    | tail _ hstep ih => exact hclosed _ ih _ (dependsOn_iff.mp hstep)

/-- The search tells whether the term selects from the family. -/
theorem selectsFrom_iff (hw : w.Closed) (ht : w.DeclaresAll t) {f : FamilyId} :
    w.selectsFrom f t = true ↔ w.Selects f t := by
  simp only [selectsFrom, Selects, Bool.or_eq_true, List.contains_iff_mem, List.any_eq_true,
    mem_reachable_iff hw ht, Option.any_eq_true, ← exists_and_left]

/-! ### Ranks -/

open Classical in
/-- The number of variables of the workspace that a variable depends on, itself or through others. -/
noncomputable def rank (w : Workspace α) (v : VarId) : Nat :=
  (Finset.univ.filter fun i : Fin w.vars.size => Relation.TransGen w.DependsOn v ⟨i⟩).card

open Classical in
theorem rank_le (w : Workspace α) (v : VarId) : w.rank v ≤ w.vars.size := by
  simpa [rank] using Finset.card_filter_le (Finset.univ : Finset (Fin w.vars.size)) _

open Classical in
/-- The rank drops along dependencies. -/
theorem rank_lt (hw : w.Closed) (ha : w.Acyclic) (h : w.DependsOn v u) : w.rank u < w.rank v := by
  have hu : w.Declares u := hw.declares_of_dependsOn h
  refine Finset.card_lt_card (Finset.ssubset_iff_of_subset ?_ |>.mpr ?_)
  · intro i hi
    rw [Finset.mem_filter] at hi ⊢
    exact ⟨hi.1, .head h hi.2⟩
  · refine ⟨⟨u.index, hu⟩, ?_, ?_⟩
    · rw [Finset.mem_filter]
      exact ⟨Finset.mem_univ _, .single h⟩
    · rw [Finset.mem_filter]
      exact fun hc => ha u hc.2

end Workspace

end DecisionModel
