import DecisionModel.Proofs.Builder.Model

/-!
# Histories of building

A `Call` is a use of one of the builders. A `History` is any order of calls from an empty workspace,
refused ones among them, where the terms handed in are constants, variables and terms that earlier
calls returned; nodes made by hand do not occur in it. `History.wellFormed` says that after any
history the workspace is well formed and all terms returned are well built.
-/

namespace DecisionModel

open Build

variable {α : Type} [Scalar α]

/-- A use of a builder. Functions that only apply a named operator to their operands are uses of
`custom`. -/
inductive Call (α : Type) where
  | wrap (x : Input α)
  | add (x y : Input α)
  | subtract (x y : Input α)
  | multiply (x y : Input α)
  | divide (x y : Input α)
  | negate (x : Input α)
  | magnitude (x : Input α)
  | relate (c : Comparison) (x y : Input α)
  | conjoin (x y : Input α)
  | disjoin (x y : Input α)
  | complement (x : Input α)
  | implies (x y : Input α)
  | implication (x : Input α)
  | copy (x : Input α)
  | custom (name : String) (operands : List (Input α))
  | operatorIndex (name : String)
  | aggregate (name : String) (operands : List (Input α))
  | collection (key : Input α)
  | elementOf (value : Input α) (values : List (Input α))
  | notElementOf (value : Input α) (values : List (Input α))
  | entryAt (index : Input α) (values : List (Input α))
  | familyEntry (family : FamilyId) (index : Input α)
  | sequenceEntry (q : SequenceId) (index : Input α)
  | newModel (sense : Sense)
  | addVariable (m : ModelId) (kind : VariableKind) (name : String) (lower upper : Literal α)
    (definition : Input α)
  | addFamily (m : ModelId) (kind : VariableKind) (name : String)
  | addMember (family : FamilyId) (lower upper : Literal α) (definition : Input α)
  | addSequence (m : ModelId) (name : String) (n : Literal α)
  | setObjective (m : ModelId) (sense : Sense) (objective : Input α)
  | addConstraint (m : ModelId) (given : Input α)
  | setCollections (m : ModelId) (lookup : Int → LookupAnswer α) (keyCount : Literal α)

/-- The term that is given, if it is one. -/
def Input.terms : Input α → List (Term α)
  | .term t => [t]
  | _ => []

namespace Call

/-- What the caller hands in where a term may stand. -/
def inputs : Call α → List (Input α)
  | wrap x | negate x | magnitude x | complement x | implication x | copy x | collection x => [x]
  | add x y | subtract x y | multiply x y | divide x y | relate _ x y | conjoin x y | disjoin x y
  | implies x y => [x, y]
  | custom _ xs | aggregate _ xs => xs
  | elementOf x xs | notElementOf x xs | entryAt x xs => x :: xs
  | familyEntry _ x | sequenceEntry _ x => [x]
  | addVariable _ _ _ _ _ x | addMember _ _ _ x | setObjective _ _ x | addConstraint _ x => [x]
  | operatorIndex _ | newModel _ | addFamily .. | addSequence .. | setCollections .. => []

/-- Makes the call; the terms that the caller gets are returned. -/
def run : Call α → Build α (List (Term α))
  | wrap x => return [← Build.wrap x]
  | add x y => return (← Build.add x y).terms
  | subtract x y => return (← Build.subtract x y).terms
  | multiply x y => return (← Build.multiply x y).terms
  | divide x y => return (← Build.divide x y).terms
  | negate x => return (← Build.negate x).terms
  | magnitude x => return (← Build.magnitude x).terms
  | relate c x y => return (← Build.relate c x y).terms
  | conjoin x y => return [← Build.conjoin x y]
  | disjoin x y => return [← Build.disjoin x y]
  | complement x => return [← Build.complement x]
  | implies x y => return [← Build.implies x y]
  | implication x => do
    match ← Build.implication? x with
    | some (condition, consequence) => return [condition, consequence]
    | none => return []
  | copy x => return (← Build.copy x).terms
  | custom name xs => return [← Build.custom name xs]
  | operatorIndex name => do
    let _ ← Build.operatorIndex name
    return []
  | aggregate name xs => return [← Build.aggregate name xs]
  | collection x => return [← Build.collection x]
  | elementOf x xs => return [← Build.elementOf x xs]
  | notElementOf x xs => return [← Build.notElementOf x xs]
  | entryAt x xs => return [← Build.entryAt x xs]
  | familyEntry f x => return [← Build.familyEntry f x]
  | sequenceEntry q x => return [← Build.sequenceEntry q x]
  | newModel sense => do
    let _ ← Build.newModel sense
    return []
  | addVariable m kind name lower upper x => do
    let v ← Build.addVariable m kind name lower upper x
    return [.var v]
  | addFamily m kind name => do
    let _ ← Build.addFamily m kind name
    return []
  | addMember f lower upper x => do
    let v ← Build.addMember f lower upper x
    return [.var v]
  | addSequence m name n => do
    let _ ← Build.addSequence m name n
    return []
  | setObjective m sense x => return [← Build.setObjective m sense x]
  | addConstraint m x => return [← Build.addConstraint m x]
  | setCollections m lookup keyCount => do
    Build.setCollections m lookup keyCount
    return []

end Call

/-- What may be handed in after the terms were returned: besides them, leaves and literals. -/
def Input.Available (known : List (Term α)) : Input α → Prop
  | .term (.const _) => True
  | .term (.var _) => True
  | .term t => t ∈ known
  | _ => True

/-- A workspace that calls of builders lead to, with the terms that they returned. -/
inductive History : Workspace α → List (Term α) → Prop
  | start : History {} []
  | returned {w w' : Workspace α} {known ts : List (Term α)} (call : Call α) : History w known →
    (∀ x ∈ call.inputs, x.Available known) → call.run.run.run w = (.ok ts, w') →
      History w' (known ++ ts)
  | refused {w w' : Workspace α} {known : List (Term α)} {e : BuildError α} (call : Call α) :
    History w known → (∀ x ∈ call.inputs, x.Available known) →
      call.run.run.run w = (.error e, w') → History w' known

variable {origin : NodeId → Option (Term α)} {w : Workspace α}

omit [Scalar α] in
theorem Input.Available.known {known : List (Term α)} (hk : ∀ t ∈ known, t.WellBuilt origin)
    {x : Input α} (hx : x.Available known) : x.Known origin := by
  cases x with
  | term t =>
    cases t with
    | const x => exact .const x
    | var v => exact .var v
    | selected id f i => exact hk _ hx
    | node id op ts => exact hk _ hx
  | _ => trivial

/-- What is returned are well-built terms. -/
abbrev AreTerms : (NodeId → Option (Term α)) → Workspace α → List (Term α) → Prop :=
  fun origin _ ts => ∀ t ∈ ts, t.WellBuilt origin

theorem makes_terms {m : Build α (Input α)} (h : Makes origin w m IsKnown) :
    Makes origin w (do return (← m).terms) AreTerms :=
  h.bind fun _ _ x g hx => makes_pure g.wellFormed fun t ht => by
    cases x with
    | term s =>
      obtain rfl := List.mem_singleton.mp ht
      exact hx
    | _ => exact nomatch ht

theorem makes_term {m : Build α (Term α)} (h : Makes origin w m IsTerm) :
    Makes origin w (do return [← m]) AreTerms :=
  h.bind fun _ _ s g hs => makes_pure g.wellFormed fun t ht => by
    obtain rfl := List.mem_singleton.mp ht
    exact hs

theorem makes_none {β : Type} {m : Build α β} (h : Makes origin w m fun _ _ _ => True) :
    Makes origin w (do let _ ← m; return []) AreTerms :=
  h.bind fun _ _ _ g _ => makes_pure g.wellFormed fun _ ht => nomatch ht

theorem makes_variable {m : Build α VarId} (h : Makes origin w m fun _ _ _ => True) :
    Makes origin w (do let v ← m; return [.var v]) AreTerms :=
  h.bind fun _ _ v g _ => makes_pure g.wellFormed fun t ht => by
    obtain rfl := List.mem_singleton.mp ht
    exact .var v

/-- Every call keeps the workspace well formed. -/
theorem Call.makes (call : Call α) (hw : w.WellFormed origin)
    (hx : ∀ x ∈ call.inputs, x.Known origin) : Makes origin w call.run AreTerms := by
  cases call with
  | wrap x => exact makes_term (makes_wrap hw (hx x (by simp [inputs])))
  | add x y | multiply x y =>
    exact makes_terms (makes_calculate hw (fun _ _ => trivial) (hx x (by simp [inputs]))
      (hx y (by simp [inputs])))
  | subtract x y | divide x y =>
    exact makes_terms (makes_calculate hw (fun _ hne => hne) (hx x (by simp [inputs]))
      (hx y (by simp [inputs])))
  | negate x => exact makes_terms (makes_negate hw (hx x (by simp [inputs])))
  | magnitude x => exact makes_terms (makes_magnitude hw (hx x (by simp [inputs])))
  | relate c x y =>
    exact makes_terms (makes_relate hw c (hx x (by simp [inputs])) (hx y (by simp [inputs])))
  | conjoin x y | disjoin x y =>
    exact makes_term (makes_connect hw (fun _ => trivial) (hx x (by simp [inputs]))
      (hx y (by simp [inputs])))
  | complement x => exact makes_term (makes_complement hw (hx x (by simp [inputs])))
  | implies x y =>
    exact makes_term (makes_implies hw (hx x (by simp [inputs])) (hx y (by simp [inputs])))
  | implication x =>
    refine (makes_implication hw (hx x (by simp [inputs]))).bind fun _ _ p g hp => ?_
    split
    · rename_i s t
      obtain ⟨hs, ht⟩ := hp s t rfl
      refine makes_pure g.wellFormed fun u hu => ?_
      rcases List.mem_cons.mp hu with rfl | hu
      · exact hs
      · exact List.mem_singleton.mp hu ▸ ht
    · exact makes_pure g.wellFormed fun _ ht => nomatch ht
  | copy x => exact makes_terms (makes_copy hw (hx x (by simp [inputs])))
  | custom name xs => exact makes_term (makes_custom hw hx)
  | operatorIndex name =>
    have g := grown_registerOperator hw name
    exact makes_none (makes_modify g (makes_get (makes_pure g.wellFormed trivial)))
  | aggregate name xs => exact makes_term (makes_aggregate hw name hx)
  | collection x => exact makes_term (makes_collection hw (hx x (by simp [inputs])))
  | elementOf x xs | notElementOf x xs =>
    exact makes_term (makes_checkedCustom hw _ (hx x (by simp [inputs]))
      fun y hy => hx y (List.mem_cons_of_mem _ hy))
  | entryAt x xs =>
    exact makes_term (makes_entryAt hw (hx x (by simp [inputs]))
      fun y hy => hx y (List.mem_cons_of_mem _ hy))
  | familyEntry f x => exact makes_term (makes_familyEntry hw f x)
  | sequenceEntry q x => exact makes_term (makes_sequenceEntry hw q x)
  | newModel sense => exact makes_none (makes_newModel hw sense)
  | addVariable m kind name lower upper x =>
    exact makes_variable (makes_addVariable hw m kind name lower upper (hx x (by simp [inputs])))
  | addFamily m kind name => exact makes_none (makes_addFamily hw m kind name)
  | addMember f lower upper x =>
    exact makes_variable (makes_addMember hw f lower upper (hx x (by simp [inputs])))
  | addSequence m name n => exact makes_none (makes_addSequence hw m name n)
  | setObjective m sense x =>
    exact makes_term (makes_setObjective hw m sense (hx x (by simp [inputs])))
  | addConstraint m x => exact makes_term (makes_addConstraint hw m (hx x (by simp [inputs])))
  | setCollections m lookup keyCount =>
    exact makes_none (makes_setCollections hw m lookup keyCount)

/-- An empty workspace is well formed over an empty register. -/
theorem wellFormed_empty : ({} : Workspace α).WellFormed fun _ => none where
  fresh h := nomatch h
  named _ _ h := nomatch h
  definition h := by simp [Workspace.definition?, Workspace.findVariable] at h
  constraint h := by simp [Workspace.findModel] at h
  objective h := by simp [Workspace.findModel] at h
  declared h := by simp [Workspace.findModel] at h
  member h := by simp [Workspace.members, Workspace.findFamily] at h
  sequence h := by simp [Workspace.sequenceMembers, Workspace.findSequence] at h

/-- After any history the workspace is well formed, and the terms returned are well built. -/
theorem History.wellFormed {w : Workspace α} {known : List (Term α)} (h : History w known) :
    ∃ origin, w.WellFormed origin ∧ ∀ t ∈ known, t.WellBuilt origin := by
  induction h with
  | start => exact ⟨_, wellFormed_empty, by simp⟩
  | @returned w w' known ts call _ hx hrun ih =>
    obtain ⟨origin, hw, hk⟩ := ih
    obtain ⟨origin', g, hts⟩ := call.makes hw fun x hm => (hx x hm).known hk
    rw [hrun] at g hts
    refine ⟨origin', g.wellFormed, fun t ht => ?_⟩
    rcases List.mem_append.mp ht with ht | ht
    · exact g.wellBuilt (hk t ht)
    · exact hts ts rfl t ht
  | @refused w w' known e call _ hx hrun ih =>
    obtain ⟨origin, hw, hk⟩ := ih
    obtain ⟨origin', g, -⟩ := call.makes hw fun x hm => (hx x hm).known hk
    rw [hrun] at g
    exact ⟨origin', g.wellFormed, fun t ht => g.wellBuilt (hk t ht)⟩

/-! ### A small model -/

namespace Small

/-- A variable from one to five, another that is one more, and the constraint that the other is three
or more. -/
def workspace : Workspace Exact := ((do
  let m ← newModel .feasible
  let x ← addVariable m .integer "x" (.int 1) (.int 5) (.literal .absent)
  let y ← addVariable m .integer "y" .absent .absent (← Build.add (.term (.var x)) (.literal (.int 1)))
  let _ ← addConstraint m (← Build.relate .ge (.term (.var y)) (.literal (.int 3))) :
    Build Exact Unit).run.run {}).2

/-- One more than the first variable. -/
def successor : Term Exact := .node ⟨1⟩ .sum [.var ⟨0⟩, .const (.finite 1)]

/-- The other variable is three or more. -/
def constraint : Term Exact := .node ⟨2⟩ (.comparison .ge) [.var ⟨1⟩, .const (.finite 3)]

/-- The terms that the calls returned. -/
def known : List (Term Exact) := [.var ⟨0⟩, successor, .var ⟨1⟩, constraint, constraint]

theorem history : History workspace known := by
  refine (.returned (.addConstraint ⟨0⟩ (.term constraint))
    (.returned (.relate .ge (.term (.var ⟨1⟩)) (.literal (.int 3)))
      (.returned (.addVariable ⟨0⟩ .integer "y" .absent .absent (.term successor))
        (.returned (.add (.term (.var ⟨0⟩)) (.literal (.int 1)))
          (.returned (.addVariable ⟨0⟩ .integer "x" (.int 1) (.int 5) (.literal .absent))
            (.returned (.newModel .feasible) .start ?_ rfl) ?_ rfl) ?_ rfl) ?_ rfl) ?_ rfl) ?_ rfl :
    History workspace ([] ++ [] ++ [.var ⟨0⟩] ++ [successor] ++ [.var ⟨1⟩] ++ [constraint] ++
      [constraint]))
  all_goals simp [Call.inputs, Input.Available, successor, constraint]

end Small

end DecisionModel
