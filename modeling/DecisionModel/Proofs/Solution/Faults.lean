import DecisionModel.Proofs.Builder.Assembly
import DecisionModel.Proofs.Evaluation.Reading
import DecisionModel.Proofs.Fault
import DecisionModel.Proofs.Workspace.Text
import DecisionModel.Solution.Diagnostics

/-!
# What stops a report

The reports on a solution take an undefined value for what it is: a constraint without a value is
listed, and a variable or an objective without one has the mark that there is none. A fault stops them.
In a model that builders made the only faults of evaluation are those of arithmetic
(`evaluate_faults`): a sum of infinities of both signs or one beyond the finite range, an infinite or
undefined index or key, and an integer that is no scalar. So the reports are made whenever evaluation
meets none of these (`History.reports`).
-/

namespace DecisionModel

open Outcome Workspace Build

variable {α : Type} [Scalar α] {w : Workspace α}
  {origin : NodeId → Option (Term α)} {s : Solution α} {t : Term α} {F : Fault → Prop}

/-- All entries of the model's collections are numbers. -/
def Workspace.AnswersNumbers (w : Workspace α) (m : ModelId) : Prop :=
  ∀ n xs, w.literalsAt m (.int n) = .ok xs → .absent ∉ xs

/-! ### Faults of evaluation -/

namespace Assignment

variable {a : Assignment α}

/-- Missing values, undefined ones, and the faults of arithmetic. -/
def Numeric (α : Type) : Allowed α := ⟨True, fun e => ∀ f, e = .fault f → f.isNumeric = true⟩

omit [Scalar α] in
theorem regular_numeric : (Numeric α).Regular where
  undefined h _ he := by
    subst he
    cases h
  rounding h _ he := by
    cases he
    exact Fault.isNumeric_of_isRounding h

theorem comparable_numeric (h : w.AnswersNumbers a.model) : Comparable (Numeric α) w a a where
  regular := regular_numeric
  model := rfl
  lookup {n f} hf g hg := by
    cases hg
    unfold Workspace.collection collectionAt at hf
    rcases hxs : w.literalsAt a.model (.int n) with e | xs
    · rw [hxs] at hf
      cases hf
    · rw [hxs] at hf
      have hscalar : ∀ l ∈ xs, FaultsIn (·.isNumeric = true) l.toScalar := fun l hl =>
        faultsIn_toScalar l rfl fun he => absurd (he ▸ hl) (h n xs hxs)
      exact faultsIn_mapM hscalar _ (Except.ok.inj hf)

theorem termAllowed_numeric (ht : t.WellBuilt origin) (hb : ∀ id name ts,
    Term.Within (.node id (.custom name) ts) t → a.evaluators name = none) :
    TermAllowed (Numeric α) w a a t := by
  intro id op ts hwithin
  refine ⟨.inl (ht.shape hwithin).served, fun hop => ?_, fun hf => ?_, fun _ => .inl rfl⟩
  · subst hop
    exact ⟨hb _ _ _ hwithin, hb _ _ _ hwithin⟩
  · obtain ⟨text, htext⟩ := termText_ok (w := w) (ht.within hwithin)
    cases hf.symm.trans htext

/-- All faults of a well-built term are those of arithmetic. -/
theorem evaluate_faults (hw : w.WellFormed origin) (hs : w.Stratified)
    (hn : w.AnswersNumbers a.model) (ht : t.WellBuilt origin) (hb : a.UsesBuiltin w t) {f : Fault}
    (hf : a.evaluate w t = .error (.fault f)) : f.isNumeric = true := by
  have hext : Extends (Numeric α) (a.evaluate w t) (a.evaluate w t) := by
    refine evaluate_allowed (comparable_numeric hn) (fun r hr => ?_) (fun _ _ _ => .inr trivial)
      (.inr ⟨hs.closed, hs.acyclic⟩)
    have hbuilt : r.WellBuilt origin := by
      rcases hr with rfl | ⟨v, -, hdef⟩
      · exact ht
      · exact hw.definition hdef
    exact termAllowed_numeric hbuilt fun id name ts => hb r hr id name ts
  exact (extends_self_iff.mp hext).2 _ hf f rfl

end Assignment

/-! ### Faults of reports -/

namespace Solution

/-- The terms whose values the reports on a solution ask for. -/
inductive LooksAt (s : Solution α) (w : Workspace α) : Term α → Prop
  | constraint {model : Model α} {t : Term α} : w.findModel s.model = some model →
    t ∈ model.constraints → LooksAt s w t
  | objective {model : Model α} : w.findModel s.model = some model → LooksAt s w model.objective
  | definition {v : VarId} {t : Term α} : v ∈ w.allVariables s.model → w.definition? v = some t →
    LooksAt s w t
  | entry {v : VarId} : v ∈ w.allVariables s.model → LooksAt s w (.var v)

theorem LooksAt.wellBuilt (hw : w.WellFormed origin) (h : s.LooksAt w t) : t.WellBuilt origin := by
  cases h with
  | constraint hm ht => exact hw.constraint hm ht
  | objective hm => exact hw.objective hm
  | definition _ hdef => exact hw.definition hdef
  | entry hv => exact .var _

omit [Scalar α] in
theorem faultsIn_ignoringUndefined {o : Outcome α} (h : ∀ f, o = .error (.fault f) → F f) :
    FaultsIn F o.ignoringUndefined := by
  rcases o with e | x
  · cases e with
    | fault f => exact faultsIn_error (h f rfl)
    | _ => exact faultsIn_ok _
  · exact faultsIn_ok _

theorem faultsIn_checkConstraint (ht : t.WellBuilt origin)
    (h : ∀ f, s.evaluate w t = .error (.fault f) → F f) : FaultsIn F (s.checkConstraint w t) := by
  obtain ⟨text, htext⟩ := termText_ok (w := w) ht
  unfold checkConstraint
  rw [htext]
  rcases ho : s.evaluate w t with e | _ | x
  · cases e with
    | fault f => exact faultsIn_error (h f ho)
    | _ => exact faultsIn_ok _
  · exact faultsIn_ok _
  · exact faultsIn_ok _

theorem faultsIn_checkVariable {v : VarId} (hw : w.WellFormed origin)
    (h : ∀ t, w.definition? v = some t → ∀ f, s.evaluate w t = .error (.fault f) → F f) :
    FaultsIn F (s.checkVariable w v) := by
  unfold checkVariable
  split
  · rename_i t stored hdef _
    refine faultsIn_bind (faultsIn_ignoringUndefined (h t hdef)) fun o => ?_
    obtain ⟨text, htext⟩ := termText_ok (w := w) (hw.definition hdef)
    cases o with
    | none => exact faultsIn_ok _
    | some expected =>
      dsimp only
      split
      · exact faultsIn_ok _
      · rw [htext]
        exact faultsIn_ok _
  · exact faultsIn_ok _

variable (hw : w.WellFormed origin)
  (h : ∀ t, s.LooksAt w t → ∀ f, s.evaluate w t = .error (.fault f) → F f)

include hw h in
theorem faultsIn_errors : FaultsIn F (s.errors w) := by
  refine faultsIn_bind ?_ fun _ => faultsIn_ok _
  refine faultsIn_bind (faultsIn_mapM fun t ht => ?_) fun _ => ?_
  · rcases hm : w.findModel s.model with _ | model
    · simp [hm] at ht
    · have hlooks : s.LooksAt w t := .constraint hm (by simpa [hm] using ht)
      exact faultsIn_checkConstraint (hlooks.wellBuilt hw) (h t hlooks)
  · refine faultsIn_bind (faultsIn_mapM fun v hv => ?_) fun _ => faultsIn_ok _
    exact faultsIn_checkVariable hw fun t hdef => h t (.definition hv hdef)

include h in
theorem faultsIn_evaluatedObjective : FaultsIn F (s.evaluatedObjective w) := by
  unfold evaluatedObjective
  rcases hm : w.findModel s.model with _ | model
  · exact faultsIn_ok _
  · exact faultsIn_ignoringUndefined (h _ (.objective hm))

include h in
theorem faultsIn_objectiveValue : FaultsIn F (s.objectiveValue w) := by
  unfold objectiveValue
  split
  · exact faultsIn_ok _
  · rcases s.reported with _ | x
    · exact faultsIn_evaluatedObjective h
    · exact faultsIn_ok _

include hw h in
theorem faultsIn_validate {expected : Literal α} (hexpected : FaultsIn F expected.toScalar?) :
    FaultsIn F (s.validate w expected) := by
  refine faultsIn_bind (faultsIn_errors hw h) fun lines => ?_
  refine faultsIn_bind hexpected fun o => ?_
  cases o with
  | some x => exact faultsIn_ok _
  | none => exact faultsIn_bind (faultsIn_evaluatedObjective h) fun _ => faultsIn_ok _

include h in
theorem faultsIn_text : FaultsIn F (s.text w) := by
  refine faultsIn_bind (faultsIn_mapM fun v hv => ?_) fun lines => ?_
  · exact faultsIn_bind (faultsIn_ignoringUndefined (h _ (.entry hv))) fun _ => faultsIn_ok _
  · exact faultsIn_bind (faultsIn_objectiveValue h) fun _ => faultsIn_ok _

/-! ### Undefined values in reports -/

/-- A constraint without a value is listed with the error. -/
theorem mem_errors_of_undefined {lines : List String} (hlines : s.errors w = .ok lines)
    {model : Model α} (hm : w.findModel s.model = some model) (ht : t ∈ model.constraints)
    {e : EvaluationError α} (he : s.evaluate w t = .error e) :
    ∃ text, w.termText t = .ok text ∧ "undefined: " ++ text ++ " (" ++ e.message ++ ")" ∈ lines := by
  obtain ⟨ds, hds, hlines⟩ := exists_of_bind hlines
  obtain ⟨first, hfirst, hds⟩ := exists_of_bind hds
  obtain ⟨second, -, hds⟩ := exists_of_bind hds
  obtain rfl := Except.ok.inj hlines
  obtain rfl := Except.ok.inj hds
  obtain ⟨o, ho, hcheck⟩ := exists_mem_of_mapM hfirst (by simpa [hm] using ht : t ∈ _)
  obtain ⟨text, htext, hcheck⟩ := exists_of_bind hcheck
  have hundefined : o = some (.undefined text e) := by
    rw [he] at hcheck
    cases e <;> cases hcheck <;> rfl
  refine ⟨text, htext, List.mem_map.mpr ⟨.undefined text e, ?_, rfl⟩⟩
  exact List.mem_filterMap.mpr ⟨_, List.mem_append_left _ ho, hundefined⟩

/-- An objective without a value is none. -/
theorem objectiveValue_of_undefined {model : Model α} (hm : w.findModel s.model = some model)
    (hs : s.reported = none) {e : EvaluationError α} (he : e.isUndefined = true)
    (hobjective : s.evaluate w model.objective = .error e) : s.objectiveValue w = .ok none := by
  unfold objectiveValue evaluatedObjective
  split
  · rfl
  · simp only [hs, hm, hobjective]
    cases e with
    | fault f => cases he
    | _ => rfl

/-- A variable without a value has the mark that there is none. -/
theorem mem_text_of_undefined {text : String} (htext : s.text w = .ok text) :
    ∃ lines, text = "\n".intercalate lines ∧ ∀ v ∈ w.allVariables s.model, ∀ e,
      s.get w v = .error e → w.variableName v ++ " = n/a" ∈ lines := by
  obtain ⟨lines, hlines, htext⟩ := exists_of_bind htext
  obtain ⟨objective, -, htext⟩ := exists_of_bind htext
  refine ⟨_, (Except.ok.inj htext).symm, fun v hv e he => List.mem_append_left _ ?_⟩
  obtain ⟨line, hline, hv⟩ := exists_mem_of_mapM hlines hv
  rw [he] at hv
  have hnone : line = w.variableName v ++ " = " ++ "n/a" := by
    cases e <;> cases hv <;> rfl
  rw [hnone, String.append_assoc] at hline
  exact hline

end Solution

/-- In a model that builders made, whose collections are of numbers and whose operators have their fixed
meaning, only a fault of arithmetic stops a report. Where evaluation meets none the reports are made:
each constraint without a value is listed as undefined, and variables and an objective without one have
the mark that there is none. -/
theorem History.reports {known : List (Term α)} (h : History w known) (ha : Assembled w)
    (hn : w.AnswersNumbers s.model) (hb : ∀ t, s.LooksAt w t → s.assignment.UsesBuiltin w t) :
    (FaultsIn (·.isNumeric = true) (s.errors w) ∧
      FaultsIn (·.isNumeric = true) (s.objectiveValue w) ∧
      (∀ expected, FaultsIn (·.isNumeric = true) (s.validate w expected)) ∧
      FaultsIn (·.isNumeric = true) (s.text w)) ∧
    ((∀ t, s.LooksAt w t → ∀ f, s.evaluate w t ≠ .error (.fault f)) →
      (∃ lines, s.errors w = .ok lines ∧
        ∀ model t e, w.findModel s.model = some model → t ∈ model.constraints →
          s.evaluate w t = .error e → ∃ text, w.termText t = .ok text ∧
            "undefined: " ++ text ++ " (" ++ e.message ++ ")" ∈ lines) ∧
      (∃ x, s.objectiveValue w = .ok x ∧
        ∀ model e, w.findModel s.model = some model → s.reported = none →
          s.evaluate w model.objective = .error e → x = none) ∧
      (∀ expected o, expected.toScalar? = .ok o → ∃ report, s.validate w expected = .ok report) ∧
      ∃ lines, s.text w = .ok ("\n".intercalate lines) ∧
        ∀ v ∈ w.allVariables s.model, ∀ e, s.get w v = .error e →
          w.variableName v ++ " = n/a" ∈ lines) := by
  obtain ⟨origin, hw, -⟩ := h.wellFormed
  have hnumeric : ∀ t, s.LooksAt w t → ∀ f, s.evaluate w t = .error (.fault f) →
      f.isNumeric = true := fun t ht f =>
    Assignment.evaluate_faults hw ha.stratified hn (ht.wellBuilt hw) (hb t ht)
  refine ⟨⟨Solution.faultsIn_errors hw hnumeric, Solution.faultsIn_objectiveValue hnumeric,
    fun expected => Solution.faultsIn_validate hw hnumeric (faultsIn_toScalar? expected rfl),
    Solution.faultsIn_text hnumeric⟩, fun hnone => ?_⟩
  have hnever : ∀ t, s.LooksAt w t → ∀ f, s.evaluate w t = .error (.fault f) → False := hnone
  obtain ⟨lines, hlines⟩ := exists_ok (Solution.faultsIn_errors hw hnever)
  obtain ⟨x, hx⟩ := exists_ok (Solution.faultsIn_objectiveValue hnever)
  obtain ⟨text, htext⟩ := exists_ok (Solution.faultsIn_text hnever)
  refine ⟨⟨lines, hlines, fun model t e hm ht => Solution.mem_errors_of_undefined hlines hm ht⟩,
    ⟨x, hx, fun model e hm hs he => ?_⟩, fun expected o ho => ?_, ?_⟩
  · have hundefined : e.isUndefined = true := by
      cases e with
      | fault f => exact absurd he (hnone _ (.objective hm) f)
      | _ => rfl
    exact Except.ok.inj (hx.symm.trans (Solution.objectiveValue_of_undefined hm hs hundefined he))
  · refine exists_ok (Solution.faultsIn_validate hw hnever fun f hf => ?_)
    cases ho.symm.trans hf
  · obtain ⟨textLines, rfl, hmark⟩ := Solution.mem_text_of_undefined htext
    exact ⟨textLines, htext, hmark⟩

/-! ### An index that is no integer -/

namespace Position

/-- The entry at position `x` among one value. -/
def entry : Term Exact := .node ⟨1⟩ (.custom "at") [.var ⟨0⟩, .var ⟨1⟩]

/-- The entry is not negative. -/
def constraint : Term Exact := .node ⟨2⟩ (.comparison .ge) [entry, .const (.finite 0)]

def calls : List (Call Exact) :=
  [.newModel .feasible, .addVariable ⟨0⟩ .real "x" .absent .absent (.literal .absent),
    .addVariable ⟨0⟩ .real "y" .absent .absent (.literal .absent),
    .entryAt (.term (.var ⟨0⟩)) [.term (.var ⟨1⟩)], .relate .ge (.term entry) (.literal (.int 0)),
    .addConstraint ⟨0⟩ (.term constraint)]

/-- Two real variables, an index and the only value, and the constraint. -/
def workspace : Workspace Exact := calls.foldl (fun w call => (call.run.run.run w).2) {}

/-- The terms that the calls returned. -/
def known : List (Term Exact) := [.var ⟨0⟩, .var ⟨1⟩, entry, constraint, constraint]

theorem history : History workspace known := by
  refine (.returned (.addConstraint ⟨0⟩ (.term constraint))
    (.returned (.relate .ge (.term entry) (.literal (.int 0)))
      (.returned (.entryAt (.term (.var ⟨0⟩)) [.term (.var ⟨1⟩)])
        (.returned (.addVariable ⟨0⟩ .real "y" .absent .absent (.literal .absent))
          (.returned (.addVariable ⟨0⟩ .real "x" .absent .absent (.literal .absent))
            (.returned (.newModel .feasible) .start ?_ rfl) ?_ rfl) ?_ rfl) ?_ rfl) ?_ rfl) ?_ rfl :
    History workspace ([] ++ [] ++ [.var ⟨0⟩] ++ [.var ⟨1⟩] ++ [entry] ++ [constraint] ++
      [constraint]))
  all_goals simp [Call.inputs, Input.Available, entry, constraint]

theorem assembled : Assembled workspace := by
  refine .step _ (.step _ (.step _ (.step _ (.step _ (.step _ .start ?_) ?_) ?_) ?_) ?_) ?_
  all_goals
    simp [Call.inputs, Input.Declared, DeclaresAll, Term.mentions, Term.mentionsAll, entry, constraint]
  all_goals exact ⟨Nat.zero_lt_succ 1, Nat.lt_succ_self 1⟩

theorem answersNumbers : workspace.AnswersNumbers ⟨0⟩ := fun n xs h => by cases h

/-- The index has a value, and the entry is zero. -/
def solution (x : Exact) : Solution Exact :=
  { model := ⟨0⟩, values := [(⟨0⟩, x), (⟨1⟩, .finite 0)] }

theorem usesBuiltin (x : Exact) (t : Term Exact) :
    (solution x).assignment.UsesBuiltin workspace t := fun _ _ _ _ _ _ => rfl

theorem infinite_evaluate :
    (solution .posInf).evaluate workspace constraint = .error (.fault .infinityToInteger) := by
  decide +kernel

theorem five_evaluate :
    (solution (.finite 5)).evaluate workspace constraint = .error (.badIndex 5 "at()" 1 1) := by
  decide +kernel

/-- An infinite index is no position, and no errors are reported: the fault comes through. -/
theorem infinite_escapes : History workspace known ∧ Assembled workspace ∧
    workspace.AnswersNumbers ⟨0⟩ ∧ (∀ t, (solution .posInf).LooksAt workspace t →
      (solution .posInf).assignment.UsesBuiltin workspace t) ∧
    (solution .posInf).errors workspace = .error .infinityToInteger := by
  refine ⟨history, assembled, answersNumbers, fun t _ => usesBuiltin _ t, ?_⟩
  obtain ⟨origin, -, hknown⟩ := history.wellFormed
  obtain ⟨text, htext⟩ := termText_ok (w := workspace) (hknown constraint (by simp [known]))
  have hcheck : (solution .posInf).checkConstraint workspace constraint =
      .error .infinityToInteger := by
    simp [Solution.checkConstraint, htext, infinite_evaluate, bind, Except.bind, throw, throwThe,
      MonadExceptOf.throw]
  have hfirst : [constraint].mapM ((solution .posInf).checkConstraint workspace) =
      .error .infinityToInteger := by
    rw [List.mapM_cons, hcheck]
    rfl
  have hdiagnostics : (solution .posInf).diagnostics workspace =
      ([constraint].mapM ((solution .posInf).checkConstraint workspace) >>= fun first =>
        (workspace.allVariables ⟨0⟩).mapM ((solution .posInf).checkVariable workspace) >>=
          fun second => .ok ((first ++ second).filterMap id)) := rfl
  rw [Solution.errors, hdiagnostics, hfirst]
  rfl

theorem mem_variables {v : VarId} (h : v ∈ workspace.allVariables ⟨0⟩) : v = ⟨0⟩ ∨ v = ⟨1⟩ := by
  have hv : v ∈ [(⟨0⟩ : VarId), ⟨1⟩] := h
  simpa using hv

/-- With the index five no evaluation meets a fault. -/
theorem five_meets_none (t : Term Exact) (ht : (solution (.finite 5)).LooksAt workspace t)
    (f : Fault) : (solution (.finite 5)).evaluate workspace t ≠ .error (.fault f) := by
  intro hf
  cases ht with
  | constraint hm hc =>
    cases hm
    obtain rfl := List.mem_singleton.mp hc
    cases five_evaluate.symm.trans hf
  | objective hm =>
    cases hm
    cases hf
  | definition hv hdef =>
    rcases mem_variables hv with rfl | rfl <;> cases hdef
  | entry hv =>
    rcases mem_variables hv with rfl | rfl <;> cases hf

/-- An index beyond the values is reported. -/
theorem five_reported : History workspace known ∧ Assembled workspace ∧
    workspace.AnswersNumbers ⟨0⟩ ∧ (∀ t, (solution (.finite 5)).LooksAt workspace t →
      (solution (.finite 5)).assignment.UsesBuiltin workspace t) ∧
    ∃ lines text, (solution (.finite 5)).errors workspace = .ok lines ∧
      workspace.termText constraint = .ok text ∧
      "undefined: " ++ text ++ " (" ++
        (EvaluationError.badIndex 5 "at()" 1 1 : EvaluationError Exact).message ++ ")" ∈ lines := by
  have hb : ∀ t, (solution (.finite 5)).LooksAt workspace t →
      (solution (.finite 5)).assignment.UsesBuiltin workspace t := fun t _ => usesBuiltin _ t
  refine ⟨history, assembled, answersNumbers, hb, ?_⟩
  obtain ⟨⟨lines, hlines, hundefined⟩, -⟩ :=
    (history.reports assembled answersNumbers hb).2 five_meets_none
  obtain ⟨text, htext, hmem⟩ := hundefined _ constraint _ rfl (List.mem_singleton_self _) five_evaluate
  exact ⟨lines, text, hlines, htext, hmem⟩

end Position

end DecisionModel
