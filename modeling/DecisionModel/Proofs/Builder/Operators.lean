import DecisionModel.Proofs.Builder.Names
import DecisionModel.Proofs.Workspace.Operators
import DecisionModel.Solution.Basic

/-!
# Operators over a history

The table of operators is shared by all models. Building a node of a named operator enters the name, and
so does adding an evaluator to a solution. `Desk.operators_stable` is about any order of these and of all
other calls of builders, refused ones among them: each name is in the table once, it keeps its position,
and a call that is refused enters nothing. So a node that is stored with the position of its name keeps
its name and its text, and it is evaluated by the evaluator that was added last under this name.
-/

namespace DecisionModel

open Build Workspace

variable {α : Type} {w w' : Workspace α} {name : String} {i : Nat}

/-! ### Every call continues the workspace -/

instance : Abiding (@Continues α) where
  refl := .refl
  trans _ _ _ := .trans
  nextNode _ _ := ⟨List.prefix_refl _, id, id, fun h => ⟨_, h, rfl⟩⟩
  registerOperator w name :=
    ⟨operators_registerOperator w name, fun h => nodup_registerOperator h name,
      fun h => by simpa [findVariable] using h, fun h => ⟨_, by simpa [findFamily] using h, rfl⟩⟩
  modifyModel _ := ⟨List.prefix_refl _, id, id, fun h => ⟨_, h, rfl⟩⟩

namespace Build

theorem continues_enterVariable (m : ModelId) (new : Variable α) :
    Keeps Continues (enterVariable m new) :=
  fun _ => ⟨List.prefix_refl _, id, findVariable_push, fun h => ⟨_, h, rfl⟩⟩

theorem continues_modifyModel (m : ModelId) (f : Model α → Model α) :
    Keeps Continues (modify (·.modifyModel m f) : Build α PUnit) :=
  keeps_modify fun _ => ⟨List.prefix_refl _, id, id, fun h => ⟨_, h, rfl⟩⟩

theorem continues_addFamily (m : ModelId) (kind : VariableKind) (name : String) :
    Keeps Continues (addFamily m kind name : Build α FamilyId) := by
  refine keeps_bind (keeps_getModel m) fun model => keeps_when (keeps_refuse _) (keeps_get fun w => ?_)
  refine ⟨List.prefix_refl _, id, id, fun {f d} h => ⟨d, ?_, rfl⟩⟩
  change (w.families.push _)[f.index]? = some d
  rw [Array.getElem?_push_lt (Array.getElem?_eq_some_iff.mp h).1]
  simpa using (Array.getElem?_eq_some_iff.mp h).2

variable [Scalar α]

theorem continues_newModel (sense : Sense) : Keeps Continues (newModel sense : Build α ModelId) :=
  keeps_bind (keeps_wrapTerm _) fun _ => keeps_get fun _ =>
    ⟨List.prefix_refl _, id, id, fun h => ⟨_, h, rfl⟩⟩

theorem continues_addVariable (m : ModelId) (kind : VariableKind) (name : String)
    (lower upper : Literal α) (x : Input α) :
    Keeps Continues (addVariable m kind name lower upper x) := by
  refine keeps_bind (keeps_checkVariable m kind name lower upper x) fun new => ?_
  refine keeps_bind (continues_enterVariable m new) fun id => ?_
  exact keeps_bind (continues_modifyModel m _) fun _ => keeps_pure _

/-- A member that joins a family leaves its name. -/
theorem continues_addMember (f : FamilyId) (lower upper : Literal α) (x : Input α) :
    Keeps Continues (addMember f lower upper x) := by
  refine keeps_look fun w => ?_
  split
  · exact keeps_refuse _
  · dsimp only
    rw [checkVariable_some]
    refine keeps_bind (keeps_bind (keeps_checkVariable _ _ _ _ _ _) fun _ => keeps_checkOwner _ _)
      fun new => keeps_bind (continues_enterVariable _ new) fun id => ?_
    refine keeps_bind (keeps_modify fun w => ⟨List.prefix_refl _, fun h => h, fun h => h, ?_⟩) fun _ =>
      keeps_pure _
    intro g d hd
    have hd : w.families[g.index]? = some d := hd
    by_cases hg : f.index = g.index
    · exact ⟨{ d with members := d.members ++ [id] },
        by simp [findFamily, Array.getElem?_modify, hg, hd], rfl⟩
    · exact ⟨d, by simp [findFamily, Array.getElem?_modify, hg, hd], rfl⟩

theorem continues_addSequence (m : ModelId) (name : String) (n : Literal α) :
    Keeps Continues (addSequence m name n) := by
  unfold addSequence
  split
  · exact keeps_refuse _
  · refine keeps_bind (keeps_getModel m) fun model => ?_
    have hlast : ∀ (k : Nat) (names : List String), Keeps Continues (do
        let members ← names.mapM fun memberName => enterVariable m
          { kind := .integer, name := memberName, lower := Scalar.one, upper := Scalar.ofInt k }
        let w ← get
        let id : SequenceId := ⟨w.sequences.size⟩
        let w := { w with sequences := w.sequences.push { name, members } }
        set (w.modifyModel m fun model =>
          { model with
            sequenceNames := name :: model.sequenceNames
            sequences := model.sequences ++ [id] })
        return id : Build α SequenceId) := fun k names =>
      keeps_bind (keeps_mapM fun _ _ => continues_enterVariable m _) fun _ =>
        keeps_get fun w => ⟨List.prefix_refl _, id, id, fun h => ⟨_, h, rfl⟩⟩
    dsimp only
    split
    · exact keeps_refusal _ _
    · exact keeps_when (keeps_refuse _) (hlast _ _)

end Build

theorem Call.continues [Scalar α] (call : Call α) : Keeps Continues call.run := by
  by_cases h : call.Adds
  · cases call with
    | addVariable m kind name lower upper x =>
      exact keeps_bind (continues_addVariable m kind name lower upper x) fun _ => keeps_pure _
    | addFamily m kind name => exact keeps_bind (continues_addFamily m kind name) fun _ => keeps_pure _
    | addMember f lower upper x =>
      exact keeps_bind (continues_addMember f lower upper x) fun _ => keeps_pure _
    | addSequence m name n => exact keeps_bind (continues_addSequence m name n) fun _ => keeps_pure _
    | _ => exact h.elim
  · by_cases hnew : ∃ sense, call = .newModel sense
    · obtain ⟨sense, rfl⟩ := hnew
      exact keeps_bind (continues_newModel sense) fun _ => keeps_pure _
    · exact keeps_of_not_lists h fun sense hcall => hnew ⟨sense, hcall⟩

/-! ### Reading the table -/

namespace Build

theorem run_operatorName (h : w.operators[i]? = some name) :
    (operatorName i : Build α String).run.run w = (.ok name, w) := by
  have hi : ¬ (i : Int) < 0 := by omega
  unfold operatorName
  rw [run_get_bind]
  simp [itemAt, hi, h]
  rfl

/-- A name that is in the table is found at its position, and the table stays as it is. -/
theorem run_operatorIndex_of_getElem? (hw : w.operators.Nodup) (h : w.operators[i]? = some name) :
    (operatorIndex name : Build α Nat).run.run w = (.ok i, w) := by
  have hsame : w.registerOperator name = w := by
    simp [registerOperator, List.mem_of_getElem? h]
  have hrun : (operatorIndex name : Build α Nat).run.run w =
      (.ok (((w.registerOperator name).operatorIndex? name).getD 0), w.registerOperator name) := rfl
  rw [hrun, hsame, operatorIndex?_eq hw h]
  rfl

/-- Asking for the position of a name enters it if it is new. -/
theorem run_operatorIndex (hw : w.operators.Nodup) (name : String) :
    ∃ i, (operatorIndex name : Build α Nat).run.run w = (.ok i, w.registerOperator name) ∧
      (w.registerOperator name).operators[i]? = some name := by
  obtain ⟨i, hi⟩ := List.mem_iff_getElem?.mp (mem_registerOperator w name)
  refine ⟨i, ?_, hi⟩
  have hrun : (operatorIndex name : Build α Nat).run.run w =
      (.ok (((w.registerOperator name).operatorIndex? name).getD 0), w.registerOperator name) := rfl
  rw [hrun, operatorIndex?_eq (nodup_registerOperator hw name) hi]
  rfl

variable [Scalar α]

/-- Converting an operand changes nothing. -/
theorem keeps_operand_eq (x : Input α) : Keeps Eq (operand x) := by
  cases x with
  | term t => exact keeps_pure t
  | literal l =>
    have hlift : Keeps Eq (lift l.toScalar? : Build α (Option α)) := by
      cases l.toScalar? with
      | ok o => exact keeps_pure o
      | error f => exact keeps_throw _
    refine keeps_bind hlift fun o => ?_
    cases o with
    | some x => exact keeps_pure _
    | none => exact keeps_throw _
  | other kind description => exact keeps_throw _

/-- What is refused has changed nothing. -/
def Traceless {β : Type} (m : Build α β) : Prop := ∀ ⦃w e w'⦄, m.run.run w = (.error e, w') → w' = w

omit [Scalar α] in
theorem traceless_check {β : Type} {p : Prop} [Decidable p] {e : BuildError α} {f : PUnit → Build α β}
    (hf : Traceless (f ⟨⟩)) : Traceless (if p then refuse e >>= f else f ⟨⟩) := by
  split
  · rintro w e w' h
    cases h
    rfl
  · exact hf

/-- A node of a named operator that is refused enters nothing: the name is entered after all checks. -/
theorem traceless_custom (name : String) (xs : List (Input α)) : Traceless (custom name xs) := by
  have hoperands : Keeps Eq (xs.mapM operand) := keeps_mapM fun x _ => keeps_operand_eq x
  have hchecks : ∀ ts : List (Term α), Traceless (do
      if name = "n_ary_if" ∧ (ts.length < 3 ∨ ts.length % 2 = 0) then
        refuse (.conditionalShape ts.length)
      if name ∈ ["min", "max", "avg", "element_of", "not_element_of", "at"] ∧ ts.length = 0 then
        refuse (.needsOperand name)
      modify (·.registerOperator name)
      node (.custom name) ts) := fun ts => by
    refine traceless_check (traceless_check ?_)
    rintro w e w' h
    cases h
  intro w e w' h
  rcases failed_bind h with h | ⟨ts, w₁, hts, h⟩
  · have hsame := hoperands w
    rw [h] at hsame
    exact hsame.symm
  · have hsame := hoperands w
    rw [hts] at hsame
    obtain rfl : w = w₁ := hsame
    refine traceless_check ?_ h
    dsimp only
    split
    · exact traceless_check (hchecks ts)
    · exact hchecks ts

end Build

/-! ### Nodes and evaluators -/

/-- What uses the table of operators, among all other calls of builders. -/
inductive Desk.Action (α : Type) where
  | call (call : Call α)
  /-- A new solution of a model. -/
  | solution (m : ModelId)
  /-- An evaluator is added to one of the solutions. -/
  | evaluator (k : Nat) (name : String) (f : CustomEvaluator α)

/-- A workspace with the solutions of its models, and the terms that calls have returned. -/
structure Desk (α : Type) where
  workspace : Workspace α := {}
  solutions : List (Solution α) := []
  known : List (Term α) := []

variable [Scalar α]

/-- The terms that a call returns, which are none if it is refused. -/
def Call.returned (call : Call α) (w : Workspace α) : List (Term α) :=
  ((call.run.run.run w).1.toOption).getD []

namespace Desk

variable {d : Desk α} {k : Nat} {s : Solution α}

def act (d : Desk α) : Action α → Desk α
  | .call call =>
    { d with workspace := call.effect d.workspace, known := d.known ++ call.returned d.workspace }
  | .solution m => { d with solutions := d.solutions ++ [{ model := m }] }
  | .evaluator k name f =>
    { d with
      workspace := ((operatorIndex name : Build α Nat).run.run d.workspace).2
      solutions := d.solutions.modify k (·.addEvaluator name f) }

def after (d : Desk α) (actions : List (Action α)) : Desk α := actions.foldl act d

/-- Calls are handed only what is available to them. -/
def Admits (d : Desk α) : List (Action α) → Prop
  | [] => True
  | .call call :: rest => (∀ x ∈ call.inputs, x.Available d.known) ∧ (d.act (.call call)).Admits rest
  | action :: rest => (d.act action).Admits rest

/-- Without its solutions a desk has a history of calls. -/
theorem history_after {actions : List (Action α)} (h : History d.workspace d.known)
    (ha : d.Admits actions) : History (d.after actions).workspace (d.after actions).known := by
  induction actions generalizing d with
  | nil => exact h
  | cons action rest ih =>
    cases action with
    | call call =>
      refine ih (d := d.act (.call call)) ?_ ha.2
      rcases hrun : call.run.run.run d.workspace with ⟨e | ts, w'⟩
      · have hrefused := History.refused call h ha.1 hrun
        simpa [act, Call.effect, Call.returned, hrun, Except.toOption] using hrefused
      · have hreturned := History.returned call h ha.1 hrun
        simpa [act, Call.effect, Call.returned, hrun, Except.toOption] using hreturned
    | solution m => exact ih (d := d.act (.solution m)) h ha
    | evaluator k name f =>
      refine ih (d := d.act (.evaluator k name f)) ?_ ha
      have hindex := History.returned (.operatorIndex name) h (by simp [Call.inputs]) rfl
      rwa [List.append_nil] at hindex

theorem continues_act (d : Desk α) (action : Action α) :
    d.workspace.Continues (d.act action).workspace := by
  cases action with
  | call call => exact call.continues d.workspace
  | solution m => exact .refl _
  | evaluator k name f => exact keeps_operatorIndex name d.workspace

theorem continues_after (d : Desk α) (actions : List (Action α)) :
    d.workspace.Continues (d.after actions).workspace := by
  induction actions generalizing d with
  | nil => exact .refl _
  | cons action rest ih => exact (d.continues_act action).trans (ih (d.act action))

/-- The evaluator that the action adds to a solution under a name. -/
def added? (k : Nat) (name : String) : Action α → Option (CustomEvaluator α)
  | .evaluator k' name' f => if k' = k ∧ name' = name then some f else none
  | _ => none

/-- The evaluator that is added last to a solution under a name. -/
def lastAdded? (k : Nat) (name : String) : List (Action α) → Option (CustomEvaluator α)
  | [] => none
  | action :: rest => (lastAdded? k name rest).or (added? k name action)

theorem custom_addEvaluator (s : Solution α) (name other : String) (f : CustomEvaluator α) :
    (s.addEvaluator name f).assignment.custom other =
      if other = name then some f else s.assignment.custom other := by
  have hget : (s.addEvaluator name f).assignment.evaluators other =
      if other = name then some f else s.assignment.evaluators other :=
    Table.get?_put s.evaluators name other f
  unfold Assignment.custom
  rw [hget]
  split <;> rfl

theorem solutions_act (hs : d.solutions[k]? = some s) (action : Action α) :
    ∃ s', (d.act action).solutions[k]? = some s' ∧
      ∀ name, s'.assignment.custom name = (added? k name action).or (s.assignment.custom name) := by
  cases action with
  | call call => exact ⟨s, hs, fun _ => rfl⟩
  | solution m =>
    refine ⟨s, ?_, fun _ => rfl⟩
    simp [act, List.getElem?_append_left (List.getElem?_eq_some_iff.mp hs).1, hs]
  | evaluator k' name f =>
    by_cases hk : k' = k
    · refine ⟨s.addEvaluator name f, by simp [act, hk, hs], fun other => ?_⟩
      rw [custom_addEvaluator]
      by_cases hname : other = name <;> simp [added?, hk, hname, Ne.symm]
    · exact ⟨s, by simp [act, hk, hs], fun _ => by simp [added?, hk]⟩

theorem solutions_after (hs : d.solutions[k]? = some s) (actions : List (Action α)) :
    ∃ s', (d.after actions).solutions[k]? = some s' ∧
      ∀ name, s'.assignment.custom name =
        (lastAdded? k name actions).or (s.assignment.custom name) := by
  induction actions generalizing d s with
  | nil => exact ⟨s, hs, fun _ => rfl⟩
  | cons action rest ih =>
    obtain ⟨s₁, hs₁, hcustom₁⟩ := solutions_act hs action
    obtain ⟨s', hs', hcustom'⟩ := ih hs₁
    refine ⟨s', hs', fun name => ?_⟩
    rw [hcustom', hcustom₁, lastAdded?, Option.or_assoc]

/-- After any actions the table has each name once and only grows at its end. The position of a name is
that of the name that stands there, and both stay as they are whatever happens later; asking for the
position of a new name enters it. A node that is refused enters nothing. Every term that was returned keeps
its stored form, which is read as the same term later, and its text if what it mentions is there. A named
operator is evaluated in a solution by the evaluator that was added last under its name, and as before if
none was added. -/
theorem operators_stable {earlier : List (Action α)} (h : ({} : Desk α).Admits earlier)
    (later : List (Action α)) :
    let d := ({} : Desk α).after earlier
    let w := d.workspace
    let w' := (d.after later).workspace
    (w.operators.Nodup ∧ w.operators <+: w'.operators) ∧
    (∀ name, ∃ i, (operatorIndex name).run.run w = (.ok i, w.registerOperator name) ∧
      (operatorName i).run.run (w.registerOperator name) = (.ok name, w.registerOperator name)) ∧
    (∀ i < w.operators.length, ∃ name,
      ((operatorName i).run.run w = (.ok name, w) ∧ (operatorIndex name).run.run w = (.ok i, w)) ∧
      (operatorName i).run.run w' = (.ok name, w') ∧ (operatorIndex name).run.run w' = (.ok i, w')) ∧
    (∀ name xs e w₁, (custom name xs).run.run w = (.error e, w₁) → w₁ = w) ∧
    (∀ t ∈ d.known, w'.decode (w.encode t) = some t ∧ w'.encode t = w.encode t ∧
      ((∀ m ∈ t.mentions, w.Finds m) → w'.termText t = w.termText t)) ∧
    ∀ k s, d.solutions[k]? = some s → ∃ s', (d.after later).solutions[k]? = some s' ∧
      ∀ name, s'.assignment.custom name =
        (lastAdded? k name later).or (s.assignment.custom name) := by
  intro d w w'
  have hnodup : w.operators.Nodup :=
    (continues_after ({} : Desk α) earlier).distinct List.nodup_nil
  have hc : w.Continues w' := continues_after d later
  obtain ⟨origin, hw, hknown⟩ := (history_after (d := {}) .start h).wellFormed
  refine ⟨⟨hnodup, hc.operators⟩, fun name => ?_, fun i hi => ?_, fun name xs e w₁ => ?_,
    fun t ht => ?_, fun k s hs => solutions_after hs later⟩
  · obtain ⟨i, hrun, hi⟩ := run_operatorIndex hnodup name
    exact ⟨i, hrun, run_operatorName hi⟩
  · have hname : w.operators[i]? = some w.operators[i] := List.getElem?_eq_getElem hi
    exact ⟨_, ⟨run_operatorName hname, run_operatorIndex_of_getElem? hnodup hname⟩,
      run_operatorName (hc.getElem? hname),
      run_operatorIndex_of_getElem? (hc.distinct hnodup) (hc.getElem? hname)⟩
  · exact fun hrun => traceless_custom name xs hrun
  · have hbuilt := hknown t ht
    have hnames : w.NamesAll t := fun id name ts hwithin =>
      hw.named (hbuilt.registered hwithin rfl) name rfl
    exact ⟨hc.decode_encode hnodup hnames, hc.encode hnodup hnames,
      fun hfinds => hc.termText (fun id op ts hwithin => hbuilt.shape hwithin) hfinds⟩

end Desk

/-! ### Two names -/

namespace Named

/-- A node of an operator by name, with one operand. -/
def node : Term Exact := .node ⟨1⟩ (.custom "weight") [.const (.finite 5)]

/-- A node of another operator is refused, and one of this operator is made. -/
def earlier : List (Desk.Action Exact) :=
  [.call (.newModel .feasible), .solution ⟨0⟩, .call (.custom "abs" []),
    .evaluator 0 "weight" Operator.evaluateSum, .call (.custom "weight" [.literal (.int 5)])]

/-- The other operator is used, and this one gets another evaluator. -/
def later : List (Desk.Action Exact) :=
  [.call (.custom "abs" [.term node]), .call (.operatorIndex "weight"),
    .evaluator 0 "weight" Operator.evaluateCount]

def desk : Desk Exact := ({} : Desk Exact).after earlier

theorem admits : ({} : Desk Exact).Admits earlier := by
  simp [earlier, Desk.Admits, Call.inputs, Input.Available]

theorem operators : desk.workspace.operators = ["weight"] ∧
    (desk.after later).workspace.operators = ["weight", "abs"] := by decide +kernel

/-- The refused name is not in the table, and the other one keeps its place when it comes. -/
theorem weight_stable : ({} : Desk Exact).Admits earlier ∧
    desk.workspace.operators = ["weight"] ∧
    (desk.after later).workspace.operators = ["weight", "abs"] ∧
    (operatorName 0).run.run (desk.after later).workspace =
      (.ok "weight", (desk.after later).workspace) ∧
    desk.workspace.encode node = .node ⟨1⟩ (.named 0) [.const (.finite 5)] ∧
    (desk.after later).workspace.decode (desk.workspace.encode node) = some node ∧
    (desk.after later).workspace.termText node = desk.workspace.termText node ∧
    ∃ s, (desk.after later).solutions[0]? = some s ∧
      s.assignment.custom "weight" = some Operator.evaluateCount := by
  have hknown : desk.known = [node] := rfl
  have hencode : desk.workspace.encode node = .node ⟨1⟩ (.named 0) [.const (.finite 5)] := rfl
  obtain ⟨-, -, hpositions, -, hterms, hsolutions⟩ := Desk.operators_stable admits later
  obtain ⟨hdecode, -, htext⟩ := hterms node (hknown ▸ List.mem_singleton_self node)
  obtain ⟨name, ⟨hearlier, -⟩, hlater, -⟩ := hpositions 0 (by decide +kernel)
  have hfirst : desk.workspace.operators[0]? = some "weight" := by rw [operators.1]; rfl
  obtain rfl : name = "weight" := by
    cases hearlier.symm.trans (run_operatorName hfirst)
    rfl
  obtain ⟨s, hs, hcustom⟩ := hsolutions 0 _ rfl
  exact ⟨admits, operators.1, operators.2, hlater, hencode, hdecode,
    htext (by simp [node, Term.mentions, Term.mentionsAll]), s, hs, hcustom "weight"⟩

end Named

end DecisionModel
