import DecisionModel.Proofs.Workspace.Dependency

/-!
# Growing workspaces stay acyclic

Three changes concern dependencies: a variable is declared, a family is added, and a member joins a
family. The last one adds dependencies of old variables too, namely of all whose definitions select
from the family. So the new member is on a cycle exactly if its definition selects from the family,
itself or through other definitions (`onCycle_withMember_iff`), which is what builders search for. No
other variable gets on a cycle without the new one being on it.
-/

namespace DecisionModel.Workspace

variable {α : Type} {w w' : Workspace α} {new : Variable α} {f : FamilyId} {t : Term α}
  {u v x : VarId}

/-- Definitions and families refer to variables of the workspace, and no variable depends on itself. -/
structure Stratified (w : Workspace α) : Prop where
  closed : w.Closed
  acyclic : w.Acyclic

/-- The workspaces have the same variables and the same families. -/
structure SameTables (w w' : Workspace α) : Prop where
  vars : w'.vars = w.vars
  families : w'.families = w.families

instance : IsPreorder (Workspace α) SameTables where
  refl _ := ⟨rfl, rfl⟩
  trans _ _ _ h h' := ⟨h'.vars.trans h.vars, h'.families.trans h.families⟩

/-- The variable that is declared next. -/
def nextVariable (w : Workspace α) : VarId := ⟨w.vars.size⟩

/-- With a variable more. -/
def withVariable (w : Workspace α) (new : Variable α) : Workspace α :=
  { w with vars := w.vars.push new }

/-- With a family more that has no members. -/
def withFamily (w : Workspace α) (family : Family) : Workspace α :=
  { w with families := w.families.push family }

/-- With a variable more that is the last member of the family. -/
def withMember (w : Workspace α) (f : FamilyId) (new : Variable α) : Workspace α :=
  { w.withVariable new with families := w.families.modify f.index fun family =>
      { family with members := family.members ++ [w.nextVariable] } }

/-! ### The same tables -/

theorem SameTables.definition? (h : SameTables w w') : w'.definition? = w.definition? := by
  funext v
  simp [Workspace.definition?, findVariable, h.vars]

theorem SameTables.findFamily (h : SameTables w w') : w'.findFamily = w.findFamily := by
  funext f
  simp [Workspace.findFamily, h.families]

theorem SameTables.familyName (h : SameTables w w') : w'.familyName = w.familyName := by
  funext f
  simp [Workspace.familyName, h.findFamily]

theorem SameTables.members (h : SameTables w w') : w'.members = w.members := by
  funext f
  simp [Workspace.members, h.findFamily]

theorem SameTables.declares (h : SameTables w w') : w'.Declares v ↔ w.Declares v := by
  simp [Declares, h.vars]

theorem SameTables.declaresAll (h : SameTables w w') : w'.DeclaresAll t ↔ w.DeclaresAll t :=
  forall_congr' fun _ => imp_congr_right fun _ => h.declares

theorem SameTables.dependsOn (h : SameTables w w') : w'.DependsOn = w.DependsOn := by
  funext v u
  simp [DependsOn, h.definition?, h.members]

theorem SameTables.onCycle (h : SameTables w w') : w'.OnCycle = w.OnCycle := by
  funext v
  simp only [OnCycle, h.dependsOn]

theorem SameTables.selectsFrom (h : SameTables w w') : w'.selectsFrom f t = w.selectsFrom f t := by
  have hreads : w'.reads = w.reads := by
    funext t
    have hmentioned : w'.mentioned = w.mentioned := by
      funext x
      cases x <;> simp [mentioned, h.members]
    simp [reads, hmentioned]
  have hdeps : w'.dependencies = w.dependencies := by
    funext v
    simp [dependencies, h.definition?, hreads]
  have hreach : ∀ fuel visited frontier,
      w'.reach fuel visited frontier = w.reach fuel visited frontier := by
    intro fuel
    induction fuel with
    | zero => exact fun _ _ => rfl
    | succ fuel ih =>
      intro visited frontier
      cases frontier with
      | nil => rfl
      | cons x frontier => simp only [reach, hdeps, ih]
  simp only [Workspace.selectsFrom, reachable, hreads, hreach, h.vars, h.definition?]

theorem SameTables.nextVariable (h : SameTables w w') : w'.nextVariable = w.nextVariable := by
  simp [Workspace.nextVariable, h.vars]

theorem Stratified.same (hw : w.Stratified) (h : SameTables w w') : w'.Stratified where
  closed :=
    ⟨fun hd v hm => h.declares.mpr (hw.closed.definition (h.definition? ▸ hd) v hm),
      fun hm => h.declares.mpr (hw.closed.member (h.members ▸ hm))⟩
  acyclic v := h.onCycle ▸ hw.acyclic v

/-! ### A relation with one more vertex -/

/-- A relation gets a vertex `n` and edges into it and out of it. A chain that is not an old one passes
through `n`. -/
theorem transGen_of_vertex {β : Type} {r r' : β → β → Prop} {n : β}
    (hr : ∀ a b, r' a b → a ≠ n → r a b ∨ b = n) {a b : β} (ha : a ≠ n)
    (h : Relation.TransGen r' a b) :
    Relation.TransGen r a b ∨ Relation.TransGen r' a n ∧ Relation.ReflTransGen r' n b := by
  induction h with
  | single hab =>
    rcases hr _ _ hab ha with h | rfl
    · exact .inl (.single h)
    · exact .inr ⟨.single hab, .refl⟩
  | @tail b c hab hbc ih =>
    rcases ih with ih | ⟨han, hnb⟩
    · by_cases hb : b = n
      · subst hb
        exact .inr ⟨hab, .single hbc⟩
      · rcases hr _ _ hbc hb with h | rfl
        · exact .inl (ih.tail h)
        · exact .inr ⟨hab.tail hbc, .refl⟩
    · exact .inr ⟨han, hnb.tail hbc⟩

theorem acyclic_of_vertex {β : Type} {r r' : β → β → Prop} {n : β}
    (hr : ∀ a b, r' a b → a ≠ n → r a b ∨ b = n) (hold : ∀ a, ¬ Relation.TransGen r a a)
    (hn : ¬ Relation.TransGen r' n n) (a : β) : ¬ Relation.TransGen r' a a := by
  intro h
  by_cases ha : a = n
  · exact hn (ha ▸ h)
  · rcases transGen_of_vertex hr ha h with h | ⟨han, hna⟩
    · exact hold a h
    · exact hn (Relation.TransGen.trans_right hna han)

/-! ### A variable more -/

theorem declares_withVariable : (w.withVariable new).Declares v ↔ w.Declares v ∨ v = w.nextVariable := by
  rcases v with ⟨i⟩
  simp only [Declares, withVariable, Array.size_push, nextVariable, VarId.mk.injEq]
  omega

theorem not_declares_nextVariable : ¬ w.Declares w.nextVariable := Nat.lt_irrefl _

theorem ne_nextVariable (h : w.Declares v) : v ≠ w.nextVariable := by
  rintro rfl
  exact not_declares_nextVariable h

theorem definition?_withVariable : (w.withVariable new).definition? v =
    if v = w.nextVariable then new.definition else w.definition? v := by
  rcases v with ⟨i⟩
  simp only [Workspace.definition?, findVariable, withVariable, Array.getElem?_push, nextVariable,
    VarId.mk.injEq]
  split <;> rfl

theorem definition?_nextVariable : w.definition? w.nextVariable = none := by
  simp [Workspace.definition?, findVariable, nextVariable]

theorem Closed.withVariable (hw : w.Closed) (hnew : ∀ t, new.definition = some t → w.DeclaresAll t) :
    (w.withVariable new).Closed where
  definition {v t} hdef u hu := by
    rw [definition?_withVariable] at hdef
    refine declares_withVariable.mpr (.inl ?_)
    split at hdef
    · exact hnew t hdef u hu
    · exact hw.definition hdef u hu
  member hv := declares_withVariable.mpr (.inl (hw.member hv))

/-- A variable that is no member yet is not depended on. -/
theorem not_onCycle_withVariable (hw : w.Closed)
    (hnew : ∀ t, new.definition = some t → w.DeclaresAll t) :
    ¬ (w.withVariable new).OnCycle w.nextVariable := by
  intro h
  obtain ⟨v, -, t, hdef, hn⟩ := Relation.TransGen.tail'_iff.mp h
  rw [definition?_withVariable] at hdef
  have hdeclared : w.Declares w.nextVariable := by
    rcases hn with hn | ⟨g, -, hn⟩
    · split at hdef
      · exact hnew t hdef _ hn
      · exact hw.definition hdef _ hn
    · exact hw.member hn
  exact not_declares_nextVariable hdeclared

theorem Stratified.withVariable (hw : w.Stratified)
    (hnew : ∀ t, new.definition = some t → w.DeclaresAll t) : (w.withVariable new).Stratified where
  closed := hw.closed.withVariable hnew
  acyclic := by
    refine acyclic_of_vertex (n := w.nextVariable) (fun v u h hv => .inl ?_) hw.acyclic
      (not_onCycle_withVariable hw.closed hnew)
    obtain ⟨t, hdef, hu⟩ := h
    rw [definition?_withVariable, if_neg hv] at hdef
    exact ⟨t, hdef, hu⟩

/-! ### A family more -/

theorem members_withFamily {family : Family} (hf : family.members = []) :
    (w.withFamily family).members = w.members := by
  funext f
  simp only [Workspace.members, findFamily, withFamily, Array.getElem?_push]
  split
  · rename_i h
    simp [hf, h]
  · rfl

theorem Stratified.withFamily (hw : w.Stratified) {family : Family} (hf : family.members = []) :
    (w.withFamily family).Stratified where
  closed := ⟨hw.closed.definition, fun hm => hw.closed.member (members_withFamily hf ▸ hm)⟩
  acyclic v h := by
    have hdep : (w.withFamily family).DependsOn = w.DependsOn := by
      funext v u
      simp only [DependsOn, members_withFamily hf]
      rfl
    rw [OnCycle, hdep] at h
    exact hw.acyclic v h

/-! ### A member more -/

/-- There is the family, and the new variable is in it. -/
theorem mem_members_withMember {family : Family} (hf : w.findFamily f = some family) {g : FamilyId} :
    u ∈ (w.withMember f new).members g ↔ u ∈ w.members g ∨ g = f ∧ u = w.nextVariable := by
  rcases g with ⟨i⟩
  rcases f with ⟨j⟩
  simp only [findFamily] at hf
  by_cases hij : j = i
  · subst hij
    simp [Workspace.members, findFamily, withMember, withVariable, Array.getElem?_modify, hf]
  · have hne : (⟨i⟩ : FamilyId) ≠ ⟨j⟩ := fun h => hij (congrArg FamilyId.index h).symm
    simp [Workspace.members, findFamily, withMember, withVariable, Array.getElem?_modify, hij, hne]

theorem definition?_withMember : (w.withMember f new).definition? v =
    if v = w.nextVariable then new.definition else w.definition? v := definition?_withVariable

theorem declares_withMember : (w.withMember f new).Declares v ↔ w.Declares v ∨ v = w.nextVariable :=
  declares_withVariable

/-- What a definition depends on once the member has joined. -/
theorem dependsOn_withMember {family : Family} (hf : w.findFamily f = some family) :
    (w.withMember f new).DependsOn v u ↔
      ∃ t, (w.withMember f new).definition? v = some t ∧
        (u ∈ w.reads t ∨ .family f ∈ t.mentions ∧ u = w.nextVariable) := by
  refine exists_congr fun t => and_congr_right fun _ => ?_
  simp only [mem_members_withMember hf, mem_reads]
  constructor
  · rintro (hu | ⟨g, hg, hu | ⟨rfl, rfl⟩⟩)
    · exact .inl (.inl hu)
    · exact .inl (.inr ⟨g, hg, hu⟩)
    · exact .inr ⟨hg, rfl⟩
  · rintro ((hu | ⟨g, hg, hu⟩) | ⟨hg, rfl⟩)
    · exact .inl hu
    · exact .inr ⟨g, hg, .inl hu⟩
    · exact .inr ⟨f, hg, .inr ⟨rfl, rfl⟩⟩

theorem Closed.withMember (hw : w.Closed) {family : Family} (hf : w.findFamily f = some family)
    (hnew : ∀ t, new.definition = some t → w.DeclaresAll t) : (w.withMember f new).Closed where
  definition := (hw.withVariable hnew).definition
  member hv := by
    refine declares_withMember.mpr ?_
    rcases (mem_members_withMember hf).mp hv with hv | ⟨-, hv⟩
    · exact .inl (hw.member hv)
    · exact .inr hv

/-- What the new member depends on is what its definition reached before, unless that selects from the
family. -/
theorem reaches_of_withMember (hw : w.Closed) {family : Family} (hf : w.findFamily f = some family)
    (ht : new.definition = some t) (hdeclared : w.DeclaresAll t)
    (h : Relation.ReflTransGen (w.withMember f new).DependsOn w.nextVariable v) :
    v = w.nextVariable ∨ w.Reaches t v ∨ w.Selects f t := by
  induction h with
  | refl => exact .inl rfl
  | @tail v u _ hvu ih =>
    obtain ⟨s, hdef, hu⟩ := (dependsOn_withMember hf).mp hvu
    rw [definition?_withMember] at hdef
    rcases ih with rfl | hv | hs
    · rw [if_pos rfl, ht] at hdef
      obtain rfl := Option.some.inj hdef
      rcases hu with hu | ⟨hm, -⟩
      · exact .inr (.inl (reaches_of_reads hu))
      · exact .inr (.inr (.inl hm))
    · rw [if_neg (ne_nextVariable (hw.declares_of_reaches hdeclared hv))] at hdef
      rcases hu with hu | ⟨hm, -⟩
      · exact .inr (.inl (hv.definition hdef hu))
      · exact .inr (.inr (.inr ⟨v, s, hv, hdef, hm⟩))
    · exact .inr (.inr hs)

/-- What was depended on still is. -/
theorem dependsOn_withMember_of {family : Family} (hf : w.findFamily f = some family)
    (h : w.DependsOn v u) : (w.withMember f new).DependsOn v u := by
  obtain ⟨t, ht, hu⟩ := dependsOn_iff_reads.mp h
  refine (dependsOn_withMember hf).mpr ⟨t, ?_, .inl hu⟩
  rw [definition?_withMember, if_neg, ht]
  rintro rfl
  rw [definition?_nextVariable] at ht
  cases ht

/-- The new member is on a cycle exactly if its definition selects from the family it joins. -/
theorem onCycle_withMember_iff (hw : w.Closed) {family : Family} (hf : w.findFamily f = some family)
    (ht : new.definition = some t) (hdeclared : w.DeclaresAll t) :
    (w.withMember f new).OnCycle w.nextVariable ↔ w.Selects f t := by
  have hunread : ∀ {s}, w.DeclaresAll s → w.nextVariable ∉ w.reads s := fun hs hr =>
    not_declares_nextVariable (hw.declares_of_reads hs hr)
  have hdef : (w.withMember f new).definition? w.nextVariable = some t := by
    rw [definition?_withMember, if_pos rfl, ht]
  constructor
  · intro h
    obtain ⟨v, hv, hvn⟩ := Relation.TransGen.tail'_iff.mp h
    obtain ⟨s, hs, hn⟩ := (dependsOn_withMember hf).mp hvn
    rcases reaches_of_withMember hw hf ht hdeclared hv with rfl | hv | hsel
    · rw [hdef] at hs
      obtain rfl := Option.some.inj hs
      exact .inl (hn.resolve_left (hunread hdeclared)).1
    · rw [definition?_withMember,
        if_neg (ne_nextVariable (hw.declares_of_reaches hdeclared hv))] at hs
      exact .inr ⟨v, s, hv, hs, (hn.resolve_left (hunread (hw.definition hs))).1⟩
    · exact hsel
  · rintro (hm | ⟨v, s, ⟨u, hu, huv⟩, hs, hm⟩)
    · exact .single ((dependsOn_withMember hf).mpr ⟨t, hdef, .inr ⟨hm, rfl⟩⟩)
    · have hv : w.Declares v := hw.declares_of_reaches hdeclared ⟨u, hu, huv⟩
      have hfirst : (w.withMember f new).DependsOn w.nextVariable u :=
        (dependsOn_withMember hf).mpr ⟨t, hdef, .inl hu⟩
      have hmiddle : Relation.ReflTransGen (w.withMember f new).DependsOn u v :=
        huv.lift id fun _ _ => dependsOn_withMember_of hf
      have hlast : (w.withMember f new).DependsOn v w.nextVariable :=
        (dependsOn_withMember hf).mpr
          ⟨s, by rw [definition?_withMember, if_neg (ne_nextVariable hv), hs], .inr ⟨hm, rfl⟩⟩
      exact Relation.TransGen.tail' (.head hfirst hmiddle) hlast

/-- A member on a cycle has a definition. -/
theorem exists_of_onCycle_withMember (h : (w.withMember f new).OnCycle w.nextVariable) :
    ∃ t, new.definition = some t := by
  obtain ⟨v, ⟨t, hdef, -⟩, -⟩ := Relation.TransGen.head'_iff.mp h
  rw [definition?_withMember, if_pos rfl] at hdef
  exact ⟨t, hdef⟩

theorem Stratified.withMember (hw : w.Stratified) {family : Family}
    (hf : w.findFamily f = some family) (hnew : ∀ t, new.definition = some t → w.DeclaresAll t)
    (hn : ¬ (w.withMember f new).OnCycle w.nextVariable) : (w.withMember f new).Stratified where
  closed := hw.closed.withMember hf hnew
  acyclic := by
    refine acyclic_of_vertex (n := w.nextVariable) (fun v u h hv => ?_) hw.acyclic hn
    obtain ⟨t, hdef, hu⟩ := (dependsOn_withMember hf).mp h
    rw [definition?_withMember, if_neg hv] at hdef
    exact hu.imp (fun hu => dependsOn_iff_reads.mpr ⟨t, hdef, hu⟩) And.right

end DecisionModel.Workspace
