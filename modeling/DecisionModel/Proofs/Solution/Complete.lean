import DecisionModel.Proofs.Evaluation.Termination
import DecisionModel.Proofs.Fault
import DecisionModel.Proofs.Workspace.Text
import DecisionModel.Solution.Diagnostics

/-!
# Complete solutions

A solution is complete if it stores a value for each variable of its model that is neither defined nor
fixed. That is enough for all others: evaluation follows their definitions, which come to an end, and
finds a value wherever no error stops it (`Assembled.nothing_missing`).
-/

namespace DecisionModel

open Outcome Workspace

variable {α : Type} [Scalar α] {w : Workspace α} {s : Solution α} {t : Term α} {v : VarId}

/-- All variables that the constraints of a model and the definitions of its variables refer to, by
themselves or as members of a family, are the model's own. -/
structure Workspace.SelfContained (w : Workspace α) (m : ModelId) : Prop where
  constraint {model : Model α} {t : Term α} {v : VarId} : w.findModel m = some model →
    t ∈ model.constraints → v ∈ w.reads t → v ∈ w.allVariables m
  definition {u : VarId} {t : Term α} {v : VarId} : u ∈ w.allVariables m →
    w.definition? u = some t → v ∈ w.reads t → v ∈ w.allVariables m

omit [Scalar α] in
/-- Then a term that refers to its variables reaches no others. -/
theorem Workspace.SelfContained.reaches {m : ModelId} (h : w.SelfContained m)
    (ht : ∀ v ∈ w.reads t, v ∈ w.allVariables m) (hv : w.Reaches t v) : v ∈ w.allVariables m := by
  obtain ⟨u, hu, hv⟩ := hv
  induction hv with
  | refl => exact ht _ hu
  | tail _ hdep ih =>
    obtain ⟨t, hdef, hv⟩ := dependsOn_iff_reads.mp hdep
    exact h.definition ih hdef hv

namespace Solution

/-- A variable of the model is stored, defined or fixed. -/
theorem exists_of_isComplete (h : s.isComplete w = true) (hv : v ∈ w.allVariables s.model)
    (hs : s.stored? v = none) : ∃ d, w.findVariable v = some d ∧ (d.isDefined ∨ d.isFixed) := by
  have hall := List.all_eq_true.mp h v hv
  simpa [hs, Option.any_eq_true] using hall

/-- Evaluation gives a value or an error of the operators. -/
theorem evaluate_of_isComplete (hw : w.Stratified) (h : s.isComplete w = true)
    (hb : s.assignment.UsesBuiltin w t) (hv : ∀ v, w.Reaches t v → v ∈ w.allVariables s.model) :
    (∃ x, s.evaluate w t = .ok (some x)) ∨
      ∃ e, s.evaluate w t = .error e ∧ e ≠ .fault .circularDefinition := by
  have hext : Extends (Assignment.Uncircled α False) (s.evaluate w t) (s.evaluate w t) :=
    Assignment.evaluate_followed hw hb fun v hreached hnone =>
      .inl (exists_of_isComplete h (hv v hreached) hnone)
  obtain ⟨hmissing, herror⟩ := extends_self_iff.mp hext
  rcases ho : s.evaluate w t with e | _ | x
  · exact .inr ⟨e, rfl, herror e ho⟩
  · exact (hmissing ho).elim
  · exact .inl ⟨x, rfl⟩

omit [Scalar α] in
theorem usesBuiltin_of_evaluators (h : s.evaluators = []) : s.assignment.UsesBuiltin w t :=
  fun _ _ _ _ _ _ => by simp [assignment, h]

theorem missing_of_checkConstraint {c : String}
    (h : s.checkConstraint w t = .ok (some (.missingValue c))) : s.evaluate w t = .ok none := by
  obtain ⟨text, -, h⟩ := exists_of_bind h
  rcases ho : s.evaluate w t with e | _ | x
  · rw [ho] at h
    cases e <;> cases h
  · rfl
  · rw [ho] at h
    dsimp only at h
    split at h <;> cases h

/-- Values that definitions do not give are inconsistent, and nothing else is said of them. -/
theorem checkVariable_ne_missing {c : String} :
    s.checkVariable w v ≠ .ok (some (.missingValue c)) := by
  intro h
  unfold checkVariable at h
  split at h
  · obtain ⟨o, -, h⟩ := exists_of_bind h
    cases o with
    | none => cases h
    | some x =>
      dsimp only at h
      split at h
      · cases h
      · obtain ⟨text, -, h⟩ := exists_of_bind h
        cases h
  · cases h

/-- A missing value is that of a constraint of the model. -/
theorem exists_missing {ds : List (Diagnostic α)} {c : String} (h : s.diagnostics w = .ok ds)
    (hc : .missingValue c ∈ ds) : ∃ model t, w.findModel s.model = some model ∧
      t ∈ model.constraints ∧ s.evaluate w t = .ok none := by
  obtain ⟨first, hfirst, h⟩ := exists_of_bind h
  obtain ⟨second, hsecond, h⟩ := exists_of_bind h
  obtain rfl := Except.ok.inj h
  obtain ⟨o, ho, rfl⟩ := List.mem_filterMap.mp hc
  rcases List.mem_append.mp ho with ho | ho
  · obtain ⟨t, ht, hcheck⟩ := exists_of_mem_mapM hfirst ho
    rcases hmodel : w.findModel s.model with _ | model
    · simp [hmodel] at ht
    · exact ⟨model, t, rfl, by simpa [hmodel] using ht, missing_of_checkConstraint hcheck⟩
  · obtain ⟨v, -, hcheck⟩ := exists_of_mem_mapM hsecond ho
    exact absurd hcheck checkVariable_ne_missing

omit [Scalar α] in
/-- A text begins as its first part does. -/
theorem head?_append {p : String} {a : Char} (x : String) (h : p.toList.head? = some a) :
    (p ++ x).toList.head? = some a := by
  simp [String.toList_append, List.head?_append, h]

/-- Only a missing value has a message that begins so. -/
theorem eq_missing_of_message {d : Diagnostic α} {c : String}
    (h : d.message = "missing value: " ++ c) : ∃ c, d = .missingValue c := by
  have hm : d.message.toList.head? = some 'm' := h ▸ head?_append c (by decide)
  cases d with
  | missingValue c => exact ⟨c, rfl⟩
  | undefined c e =>
    have hu : (Diagnostic.undefined c e).message.toList.head? = some 'u' :=
      head?_append _ (head?_append _ (head?_append _ (head?_append _ (by decide))))
    cases hu.symm.trans hm
  | infeasible c =>
    have hi : (Diagnostic.infeasible c : Diagnostic α).message.toList.head? = some 'i' :=
      head?_append _ (by decide)
    cases hi.symm.trans hm
  | inconsistent name text x y =>
    have hi : (Diagnostic.inconsistent name text x y).message.toList.head? = some 'i' := by
      iterate 7 refine head?_append _ ?_
      decide
    cases hi.symm.trans hm

end Solution

/-- In a workspace that builders lead to, a complete solution leaves nothing missing: a term that
reaches only variables of the model has a value, or its evaluation raises an error of the operators. So
no line of the errors of a model that refers only to its own variables tells of a missing value. -/
theorem Assembled.nothing_missing (hw : Assembled w) (h : s.isComplete w = true) :
    (∀ t, s.assignment.UsesBuiltin w t → (∀ v, w.Reaches t v → v ∈ w.allVariables s.model) →
      (∃ x, s.evaluate w t = .ok (some x)) ∨
        ∃ e, s.evaluate w t = .error e ∧ e ≠ .fault .circularDefinition) ∧
    (s.evaluators = [] → w.SelfContained s.model → ∀ lines, s.errors w = .ok lines →
      ∀ line ∈ lines, ∀ c, line ≠ "missing value: " ++ c) := by
  have hvalue := fun t => Solution.evaluate_of_isComplete (t := t) hw.stratified h
  refine ⟨hvalue, fun hs hself lines hlines line hline c hc => ?_⟩
  obtain ⟨ds, hds, hlines⟩ := exists_of_bind hlines
  obtain rfl := Except.ok.inj hlines
  obtain ⟨d, hd, rfl⟩ := List.mem_map.mp hline
  obtain ⟨c, rfl⟩ := Solution.eq_missing_of_message hc
  obtain ⟨model, t, hmodel, ht, hnone⟩ := Solution.exists_missing hds hd
  have hreach : ∀ v, w.Reaches t v → v ∈ w.allVariables s.model := fun v =>
    hself.reaches fun u hu => hself.constraint hmodel ht hu
  rcases hvalue t (Solution.usesBuiltin_of_evaluators hs) hreach with ⟨x, hx⟩ | ⟨e, he, -⟩
  · cases hx.symm.trans hnone
  · cases he.symm.trans hnone

/-! ### A complete solution -/

namespace Small

/-- The first variable is one, and nothing is stored for the defined one. -/
def one : Solution Exact := { model := ⟨0⟩, values := [(⟨0⟩, .finite 1)] }

/-- The constraint refers to the defined variable, and its definition to the other one. -/
theorem selfContained : workspace.SelfContained ⟨0⟩ where
  constraint hmodel ht hv := by
    cases hmodel
    obtain rfl := List.mem_singleton.mp ht
    obtain rfl : _ = (⟨1⟩ : VarId) := List.mem_singleton.mp hv
    decide
  definition {u} _ _ hu hdef hv := by
    have hvars : u ∈ [(⟨0⟩ : VarId), ⟨1⟩] := hu
    obtain rfl | rfl : u = ⟨0⟩ ∨ u = ⟨1⟩ := by simpa using hvars
    · cases hdef
    · obtain rfl := Option.some.inj hdef
      obtain rfl : _ = (⟨0⟩ : VarId) := List.mem_singleton.mp hv
      decide

theorem one_evaluate : one.evaluate workspace constraint = .ok (some (.finite 0)) := by
  decide +kernel

/-- The constraint does not hold, and that is all that is wrong. -/
theorem one_errors : ∃ text, workspace.termText constraint = .ok text ∧
    one.errors workspace = .ok ["infeasible: " ++ text] := by
  obtain ⟨origin, -, hknown⟩ := history.wellFormed
  obtain ⟨text, htext⟩ := termText_ok (w := workspace) (hknown constraint (by simp [known]))
  have hcheck : one.checkConstraint workspace constraint = .ok (some (.infeasible text)) := by
    have hzero : Scalar.isZero (.finite 0 : Exact) = true := rfl
    simp [Solution.checkConstraint, htext, one_evaluate, hzero, bind, Except.bind, pure, Except.pure]
  have hfirst : [constraint].mapM (one.checkConstraint workspace) =
      .ok [some (.infeasible text)] := by
    rw [List.mapM_cons, hcheck]
    rfl
  have hdiagnostics : one.diagnostics workspace =
      ([constraint].mapM (one.checkConstraint workspace) >>= fun first =>
        (workspace.allVariables one.model).mapM (one.checkVariable workspace) >>= fun second =>
          .ok ((first ++ second).filterMap id)) := rfl
  refine ⟨text, htext, ?_⟩
  rw [Solution.errors, hdiagnostics, hfirst]
  rfl

/-- The defined variable is two although no value is stored for it, so the constraint is violated and
nothing is missing. -/
theorem one_nothing_missing : Assembled workspace ∧ one.isComplete workspace = true ∧
    workspace.SelfContained one.model ∧ one.assignment.UsesBuiltin workspace constraint ∧
    (∀ v, workspace.Reaches constraint v → v ∈ workspace.allVariables one.model) ∧
    (∃ x, one.evaluate workspace constraint = .ok (some x)) ∧
    ∃ text, one.errors workspace = .ok ["infeasible: " ++ text] ∧
      ∀ line ∈ ["infeasible: " ++ text], ∀ c, line ≠ "missing value: " ++ c := by
  have hcomplete : one.isComplete workspace = true := by decide
  have hb : one.assignment.UsesBuiltin workspace constraint := fun _ _ _ _ _ _ => rfl
  have hreaches : ∀ v, workspace.Reaches constraint v → v ∈ workspace.allVariables one.model := fun v =>
    selfContained.reaches fun u hu => selfContained.constraint rfl (List.mem_singleton_self _) hu
  obtain ⟨text, -, herrors⟩ := one_errors
  obtain ⟨hvalue, hlines⟩ := assembled.nothing_missing hcomplete
  refine ⟨assembled, hcomplete, selfContained, hb, hreaches, ?_, text, herrors,
    hlines rfl selfContained _ herrors⟩
  exact (hvalue constraint hb hreaches).resolve_right fun ⟨e, he, _⟩ => by
    cases he.symm.trans one_evaluate

end Small

end DecisionModel
