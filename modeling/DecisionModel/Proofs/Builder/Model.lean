import DecisionModel.Proofs.Builder.Expression

/-!
# Models are well formed

Each builder of models leaves the workspace well formed. What is entered in a model was declared just
before: `makes_enterVariable` declares a variable, and the builders of variables, members and
sequences enter what it returns.
-/

namespace DecisionModel.Build

variable {α β : Type} [Scalar α] {origin origin' : NodeId → Option (Term α)} {w w' : Workspace α}

theorem grown_modifyModel (hw : w.WellFormed origin) (m : ModelId) {f : Model α → Model α}
    (hconstraints : ∀ model : Model α, (∀ t ∈ model.constraints, t.WellBuilt origin) →
      ∀ t ∈ (f model).constraints, t.WellBuilt origin)
    (hobjective : ∀ model : Model α, model.objective.WellBuilt origin →
      (f model).objective.WellBuilt origin)
    (hvars : ∀ model : Model α, (∀ v ∈ model.vars, ∃ d, w.findVariable v = some d) →
      ∀ v ∈ (f model).vars, ∃ d, w.findVariable v = some d) :
    Grown origin w origin (w.modifyModel m f) :=
  ⟨fun h => h, fun h => h, hw.modifyModel m hconstraints hobjective hvars⟩

theorem makes_getModel (hw : w.WellFormed origin) (m : ModelId) :
    Makes origin w (getModel m) fun _ _ _ => True := by
  refine makes_get ?_
  split
  · exact makes_pure hw trivial
  · exact makes_refuse hw

theorem makes_newModel (hw : w.WellFormed origin) (sense : Sense) :
    Makes origin w (newModel sense) fun _ _ _ => True := by
  refine (makes_wrapTerm hw (.const Scalar.zero)).bind fun origin₁ w₁ t g ht => makes_get ?_
  have hw₁ := g.wellFormed
  have hmodel : ∀ {m : ModelId} {model : Model α}, ({ w₁ with
      models := w₁.models.push { sense, objective := t } } : Workspace α).findModel m = some model →
        w₁.findModel m = some model ∨ model = { sense, objective := t } := by
    intro m model h
    simp only [Workspace.findModel, Array.getElem?_push] at h
    split at h
    · exact .inr (Option.some.inj h).symm
    · exact .inl h
  have hpush : ({ w₁ with models := w₁.models.push { sense, objective := t } } :
      Workspace α).WellFormed origin₁ := by
    refine ⟨hw₁.fresh, hw₁.named, hw₁.definition, fun h hc => ?_, fun h => ?_, fun h hv => ?_, hw₁.member,
      hw₁.sequence⟩
    · rcases hmodel h with h | rfl
      · exact hw₁.constraint h hc
      · cases hc
    · rcases hmodel h with h | rfl
      · exact hw₁.objective h
      · exact ht
    · rcases hmodel h with h | rfl
      · exact hw₁.declared h hv
      · cases hv
  exact makes_set ⟨fun h => h, fun h => h, hpush⟩ (makes_pure hpush trivial)

/-! ### Variables -/

theorem makes_definitionOf (hw : w.WellFormed origin) {x : Input α} (hx : x.Known origin) :
    Makes origin w (definitionOf x) fun origin' _ o => ∀ t, o = some t → t.WellBuilt origin' := by
  unfold definitionOf
  split
  · exact makes_pure hw (by simp)
  · rw [← bind_pure_comp]
    refine (makes_wrap hw hx).bind fun _ _ t g ht => makes_pure g.wellFormed fun t' h => ?_
    cases h
    exact ht

theorem makes_boundOr (hw : w.WellFormed origin) (default : α) (given : Literal α) :
    Makes origin w (boundOr default given) fun _ _ _ => True :=
  (makes_lift (Q := fun _ _ _ => True) hw fun _ _ => trivial).bind fun _ _ _ g _ =>
    makes_pure g.wellFormed trivial

/-- A new variable has the definition that was given, which is well built. -/
theorem makes_checkVariable (hw : w.WellFormed origin) (m : ModelId) (kind : VariableKind)
    (name : String) (lower upper : Literal α) {definition : Input α} (owner : Option FamilyId)
    (hx : definition.Known origin) :
    Makes origin w (checkVariable m kind name lower upper definition owner) fun origin' _ d =>
      ∀ t, d.definition = some t → t.WellBuilt origin' := by
  refine (makes_getModel hw m).bind fun _ _ model g₁ _ => makes_check g₁.wellFormed fun _ => ?_
  refine (makes_definitionOf g₁.wellFormed (g₁.known hx)).bind fun _ _ o g₂ ho => ?_
  refine (makes_boundOr g₂.wellFormed _ lower).bind fun _ _ l g₃ _ => ?_
  refine (makes_boundOr g₃.wellFormed _ upper).bind fun _ _ u g₄ _ => ?_
  have hnew : ∀ t, o = some t → t.WellBuilt _ := fun t ht => g₄.wellBuilt (g₃.wellBuilt (ho t ht))
  refine makes_check g₄.wellFormed fun _ => ?_
  dsimp only
  split
  · split
    · exact makes_get (makes_check g₄.wellFormed fun _ => makes_pure g₄.wellFormed hnew)
    · exact makes_pure g₄.wellFormed hnew
  · exact makes_pure g₄.wellFormed hnew

/-- A variable that is entered is declared as it was given. -/
theorem makes_enterVariable (hw : w.WellFormed origin) (m : ModelId) {new : Variable α}
    (hnew : ∀ t, new.definition = some t → t.WellBuilt origin) :
    Makes origin w (enterVariable m new) fun _ w' v => w'.findVariable v = some new := by
  have hmodify := (hw.pushVariable hnew).modifyModel m (f := fun model =>
    { model with variableNames := new.name :: model.variableNames }) (fun _ h => h) (fun _ h => h)
    fun _ h => h
  refine ⟨origin, ⟨fun h => h, fun h => findVariable_push h, hmodify⟩, fun v hv => ?_⟩
  cases hv
  exact Array.getElem?_push_size

theorem makes_addVariable (hw : w.WellFormed origin) (m : ModelId) (kind : VariableKind)
    (name : String) (lower upper : Literal α) {definition : Input α}
    (hx : definition.Known origin) :
    Makes origin w (addVariable m kind name lower upper definition) fun _ _ _ => True := by
  refine (makes_checkVariable hw m kind name lower upper none hx).bind fun _ _ new g₁ hnew => ?_
  refine (makes_enterVariable g₁.wellFormed m hnew).bind fun _ w₂ id g₂ hid => ?_
  have g₃ := grown_modifyModel g₂.wellFormed m (f := fun model =>
    { model with vars := model.vars ++ [id] }) (fun _ h => h) (fun _ h => h) fun model h v hv => ?_
  · exact makes_modify g₃ (makes_pure g₃.wellFormed trivial)
  · rcases List.mem_append.mp hv with hv | hv
    · exact h v hv
    · obtain rfl := List.mem_singleton.mp hv
      exact ⟨new, hid⟩

/-! ### Families -/

theorem makes_addFamily (hw : w.WellFormed origin) (m : ModelId) (kind : VariableKind)
    (name : String) : Makes origin w (addFamily m kind name) fun _ _ _ => True := by
  refine (makes_getModel hw m).bind fun origin₁ w₁ model g₁ _ => makes_check g₁.wellFormed fun _ =>
    makes_get ?_
  have hw₁ := g₁.wellFormed
  have hpush : ({ w₁ with families := w₁.families.push { model := m, kind, name } } :
      Workspace α).WellFormed origin₁ := by
    refine hw₁.changeFamilies fun id v h => ?_
    obtain ⟨f, hf, hv⟩ := mem_members.mp h
    rcases findFamily_push hf with hf | rfl
    · exact hw₁.member (mem_members.mpr ⟨f, hf, hv⟩)
    · exact nomatch hv
  have hmodify := hpush.modifyModel m (f := fun model => { model with
    familyNames := name :: model.familyNames
    families := model.families ++ [⟨w₁.families.size⟩] }) (fun _ h => h) (fun _ h => h) fun _ h => h
  exact makes_set ⟨fun h => h, fun h => h, hmodify⟩ (makes_pure hmodify trivial)

theorem makes_addMember (hw : w.WellFormed origin) (family : FamilyId) (lower upper : Literal α)
    {definition : Input α} (hx : definition.Known origin) :
    Makes origin w (addMember family lower upper definition) fun _ _ _ => True := by
  refine makes_get ?_
  split
  · exact makes_refuse hw
  · rename_i f _
    refine (makes_checkVariable hw f.model f.kind _ lower upper (some family)
      hx).bind fun _ _ new g₁ hnew => ?_
    refine (makes_enterVariable g₁.wellFormed f.model hnew).bind fun origin₂ w₂ id g₂ hid => ?_
    have hw₂ := g₂.wellFormed
    have hmodify : ({ w₂ with families := w₂.families.modify family.index fun f =>
        { f with members := f.members ++ [id] } } : Workspace α).WellFormed origin₂ := by
      refine hw₂.changeFamilies fun fid v h => ?_
      obtain ⟨f', hf', hv⟩ := mem_members.mp h
      simp only [Workspace.findFamily, Array.getElem?_modify] at hf'
      split at hf'
      · obtain ⟨old, hold, rfl⟩ := Option.map_eq_some_iff.mp hf'
        rcases List.mem_append.mp hv with hv | hv
        · exact hw₂.member (mem_members.mpr ⟨old, hold, hv⟩)
        · obtain rfl := List.mem_singleton.mp hv
          exact ⟨new, hid⟩
      · exact hw₂.member (mem_members.mpr ⟨f', hf', hv⟩)
    exact makes_modify ⟨fun h => h, fun h => h, hmodify⟩ (makes_pure hmodify trivial)

/-! ### Sequences -/

theorem makes_addSequence (hw : w.WellFormed origin) (m : ModelId) (name : String)
    (n : Literal α) : Makes origin w (addSequence m name n) fun _ _ _ => True := by
  unfold addSequence
  split
  · exact makes_refuse hw
  · rename_i n _
    refine (makes_getModel hw m).bind fun origin₁ w₁ model g₁ _ => ?_
    have henter : Makes origin₁ w₁ (do
        if model.sequenceNames.contains name then refuse (.duplicateName .sequence name)
        let members ← ((List.range n).map fun i => name ++ "[" ++ toString i ++ "]").mapM
          fun memberName => enterVariable m
            { kind := .integer, name := memberName, lower := Scalar.one, upper := Scalar.ofInt n }
        let w ← get
        let id : SequenceId := ⟨w.sequences.size⟩
        let w := { w with sequences := w.sequences.push { name, members } }
        set (w.modifyModel m fun model => { model with
          sequenceNames := name :: model.sequenceNames, sequences := model.sequences ++ [id] })
        return id) fun _ _ _ => True := by
      refine makes_check g₁.wellFormed fun _ => ?_
      refine (makes_mapM (R := fun _ w v => ∃ d, w.findVariable v = some d ∧ d.IsMember n)
        g₁.wellFormed ?_ ?_).bind fun origin₂ w₂ vs g₂ ⟨hlen, hvs⟩ => makes_get ?_
      · rintro _ _ _ _ v g ⟨d, hd, hm⟩
        exact ⟨d, g.declared hd, hm⟩
      · intro memberName _ _ _ g
        refine (makes_enterVariable g.wellFormed m (by simp)).mono fun _ _ v _ hv => ?_
        exact ⟨_, hv, ⟨rfl, rfl, rfl⟩⟩
      · have hpush := g₂.wellFormed.pushSequence { name, members := vs } (by
          simpa [hlen] using hvs)
        have hmodify := hpush.modifyModel m (f := fun model => { model with
          sequenceNames := name :: model.sequenceNames
          sequences := model.sequences ++ [⟨w₂.sequences.size⟩] }) (fun _ h => h) (fun _ h => h)
          fun _ h => h
        exact makes_set ⟨fun h => h, fun h => h, hmodify⟩ (makes_pure hmodify trivial)
    dsimp only
    split
    · exact makes_refusal g₁.wellFormed
    · exact henter

/-! ### Positions, objectives, constraints and collections -/

theorem makes_itemAt {γ : Type} (hw : w.WellFormed origin) (items : List γ) (position : Int) :
    Makes origin w (itemAt items position) fun _ _ _ => True := by
  unfold itemAt
  extract_lets index
  split
  · exact makes_pure hw trivial
  · split <;> exact makes_refuse hw

theorem makes_select (hw : w.WellFormed origin) (f : FamilyId) (index : VarId) :
    Makes origin w (select f index) IsTerm := by
  have hg : Grown origin w _ { w with nextNode := w.nextNode + 1 } :=
    grown_enter hw (t := .selected ⟨w.nextNode⟩ f index) fun name h => by cases h
  refine ⟨_, hg, fun t ht => ?_⟩
  cases ht
  exact .selected (by simp)

theorem makes_familyEntry (hw : w.WellFormed origin) (f : FamilyId) (index : Input α) :
    Makes origin w (familyEntry f index) IsTerm := by
  refine makes_get ?_
  split
  · exact makes_select hw _ _
  · exact (makes_itemAt hw _ _).bind fun _ _ v g _ => makes_pure g.wellFormed (Term.WellBuilt.var v)
  · exact makes_refuse hw

theorem makes_sequenceEntry (hw : w.WellFormed origin) (q : SequenceId) (index : Input α) :
    Makes origin w (sequenceEntry q index) IsTerm := by
  refine makes_get ?_
  split
  · exact (makes_itemAt hw _ _).bind fun _ _ v g _ => makes_pure g.wellFormed (Term.WellBuilt.var v)
  · exact makes_refuse hw

theorem makes_setObjective (hw : w.WellFormed origin) (m : ModelId) (sense : Sense)
    {objective : Input α} (hx : objective.Known origin) :
    Makes origin w (setObjective m sense objective) IsTerm := by
  have g₁ := grown_modifyModel hw m (f := fun model => { model with sense }) (fun _ h => h)
    (fun _ h => h) fun _ h => h
  refine makes_modify g₁ ((makes_wrap g₁.wellFormed hx).bind fun _ _ t g₂ ht => ?_)
  have g₃ := grown_modifyModel g₂.wellFormed m (f := fun model => { model with objective := t })
    (fun _ h => h) (fun _ _ => ht) fun _ h => h
  exact makes_modify g₃ (makes_pure g₃.wellFormed ht)

theorem makes_addConstraint (hw : w.WellFormed origin) (m : ModelId) {given : Input α}
    (hx : given.Known origin) : Makes origin w (addConstraint m given) IsTerm := by
  cases given with
  | term t =>
    refine (makes_wrapTerm hw hx).bind fun origin₁ w₁ t g ht => makes_get ?_
    have hlast : Makes origin₁ w₁ (do
        modify (·.modifyModel m fun model => { model with constraints := model.constraints ++ [t] })
        return t) IsTerm := by
      have g' := grown_modifyModel g.wellFormed m (f := fun model =>
        { model with constraints := model.constraints ++ [t] }) (fun model h u hu => ?_)
        (fun _ h => h) fun _ h => h
      · exact makes_modify g' (makes_pure g'.wellFormed ht)
      · rcases List.mem_append.mp hu with hu | hu
        · exact h u hu
        · obtain rfl := List.mem_singleton.mp hu
          exact ht
    -- A text is made before either refusal.
    have hrefusal : ∀ (e : String → BuildError α) (f : PUnit → Build α (Term α)),
        Makes origin₁ w₁ (do let text ← lift (w₁.termText t); refuse (e text) >>= f) IsTerm :=
      fun e f => (makes_lift (Q := fun _ _ _ => True) g.wellFormed fun _ _ => trivial).bind
        fun _ _ _ g' _ => makes_refusal g'.wellFormed
    dsimp only
    split
    · exact hrefusal _ _
    · split
      · split
        · exact makes_refusal g.wellFormed
        · split
          · exact hrefusal _ _
          · exact hlast
      · exact hlast
  | literal l => exact makes_refusal hw
  | other kind description => exact makes_refusal hw

theorem makes_setCollections (hw : w.WellFormed origin) (m : ModelId) (lookup : Int → LookupAnswer α)
    (keyCount : Literal α) : Makes origin w (setCollections m lookup keyCount) fun _ _ _ => True := by
  unfold setCollections
  split
  · exact makes_refuse hw
  · refine makes_check hw fun _ => ?_
    have g₁ := grown_modifyModel hw m (f := fun model => { model with lookup := some lookup })
      (fun _ h => h) (fun _ h => h) fun _ h => h
    refine makes_modify g₁ ((makes_lift (Q := fun _ _ _ => True) g₁.wellFormed
      fun _ _ => trivial).bind fun _ _ count g₂ _ => ?_)
    have g₃ := grown_modifyModel g₂.wellFormed m (f := fun model =>
      { model with keyCount := count.toNat }) (fun _ h => h) (fun _ h => h) fun _ h => h
    exact ⟨_, g₃, fun _ _ => trivial⟩

end DecisionModel.Build
