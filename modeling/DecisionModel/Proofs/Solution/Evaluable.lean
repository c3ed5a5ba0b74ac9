import DecisionModel.Number.DoubleScalar
import DecisionModel.Proofs.Solution.Faults

/-!
# Terms that evaluation can take apart

Every operator reads certain of its operands, and evaluation stops with a fault where one is not there.
The nodes that builders make have the operands that their operators read, so this fault does not occur in
the evaluation of a term that builders made, nor in its text. `History.evaluable` says what remains:
errors of the modelling language, faults of rounding, and a collection with an integer that is beyond the
range of scalars.
-/

namespace DecisionModel

open Outcome Workspace Build Term

variable {α : Type} [Scalar α] {w : Workspace α} {m : ModelId} {origin : NodeId → Option (Term α)}
  {s : Solution α} {a : Assignment α} {t : Term α}

/-- What evaluation of a well-built term may raise. -/
inductive Workspace.MayRaise (w : Workspace α) (m : ModelId) : EvaluationError α → Prop
  | undefined {e : EvaluationError α} : e.isUndefined = true → MayRaise w m e
  | rounding {f : Fault} : f.isRounding = true → MayRaise w m (.fault f)
  | tooLarge {n k : Int} {xs : List (Literal α)} : w.literalsAt m (.int n) = .ok xs → .int k ∈ xs →
    (Scalar.ofInt? k : Except Fault α) = .error .integerTooLarge → MayRaise w m (.fault .integerTooLarge)

namespace Assignment

/-- Missing values, and what evaluation may raise. -/
def Raisable (w : Workspace α) (m : ModelId) : Allowed α := ⟨True, w.MayRaise m⟩

theorem regular_raisable : (Raisable w m).Regular := ⟨.undefined, .rounding⟩

/-- A collection of numbers cannot be read only if one of them is too large. -/
theorem mayRaise_of_collection (hn : w.AnswersNumbers m) {n : Int} {f : Fault}
    (h : w.collection m n = .ok (.error f)) : w.MayRaise m (.fault f) := by
  unfold Workspace.collection collectionAt at h
  rcases hxs : w.literalsAt m (.int n) with e | xs
  · rw [hxs] at h
    cases h
  · rw [hxs] at h
    have hscalar : ∀ l ∈ xs, FaultsIn (fun f => w.MayRaise m (.fault f)) l.toScalar := by
      intro l hl g hg
      cases l with
      | absent => exact absurd hl (hn n xs hxs)
      | int k =>
        rcases hk : (Scalar.ofInt? k : Except Fault α) with f' | x
        · have hlarge : FaultsIn (· = .integerTooLarge) (Scalar.ofInt? k : Except Fault α) :=
            faultsIn_ofInt? k rfl
          obtain rfl := hlarge f' hk
          obtain rfl : Fault.integerTooLarge = g := by
            simpa [Literal.toScalar, Literal.toScalar?, hk, bind, Except.bind] using hg
          exact .tooLarge hxs hl hk
        · simp [Literal.toScalar, Literal.toScalar?, hk, bind, Except.bind, pure, Except.pure] at hg
      | real x => cases hg
      | truth b => cases hg
    exact faultsIn_mapM hscalar _ (Except.ok.inj h)

theorem comparable_raisable (hn : w.AnswersNumbers a.model) :
    Comparable (Raisable w a.model) w a a where
  regular := regular_raisable
  model := rfl
  lookup := mayRaise_of_collection hn

/-- The nodes of a well-built term have the operands that are read, and texts. -/
theorem termAllowed_raisable (ht : t.WellBuilt origin) (hb : ∀ id name ts,
    Term.Within (.node id (.custom name) ts) t → a.evaluators name = none) :
    TermAllowed (Raisable w m) w a a t := by
  intro id op ts hwithin
  obtain ⟨text, htext⟩ := termText_ok (w := w) (ht.within hwithin)
  refine ⟨.inl (ht.shape hwithin).served, fun hop => ?_, fun hf => ?_, fun _ => .inl rfl⟩
  · subst hop
    exact ⟨hb _ _ _ hwithin, hb _ _ _ hwithin⟩
  · cases hf.symm.trans htext

/-- Evaluation of a well-built term raises nothing else. -/
theorem mayRaise_of_evaluate (hw : w.WellFormed origin) (hs : w.Stratified)
    (hn : w.AnswersNumbers a.model) (ht : t.WellBuilt origin) (hb : a.UsesBuiltin w t)
    {e : EvaluationError α} (he : a.evaluate w t = .error e) : w.MayRaise a.model e := by
  have hbuilt : ∀ r, w.Involves t r → r.WellBuilt origin := by
    rintro r (rfl | ⟨v, -, hdef⟩)
    · exact ht
    · exact hw.definition hdef
  have hext : Extends (Raisable w a.model) (a.evaluate w t) (a.evaluate w t) :=
    evaluate_allowed (comparable_raisable hn)
      (fun r hr => termAllowed_raisable (hbuilt r hr) fun id name ts => hb r hr id name ts)
      (fun _ _ _ => .inr trivial) (.inr ⟨hs.closed, hs.acyclic⟩)
  exact (extends_self_iff.mp hext).2 e he

end Assignment

/-- A term that builders made has at each node operands of the number and form that the operator calls
for, and so have the definitions that it involves. It has a text. If the operators have their fixed
meaning and collections are of numbers, then evaluation gives a value or a missing one, or raises an
error of the modelling language, a fault of rounding, or the fault of an integer beyond the range of
scalars, and that only if a collection has such an integer. -/
theorem History.evaluable {known : List (Term α)} (h : History w known) (ha : Assembled w)
    (hn : w.AnswersNumbers s.model) (ht : (Input.term t).Available known)
    (hb : s.assignment.UsesBuiltin w t) :
    (∀ r, w.Involves t r → ∀ id op ts, Within (.node id op ts) r → op.Shape ts) ∧
    (∃ text, w.termText t = .ok text) ∧
    ((∃ x, s.evaluate w t = .ok x) ∨ ∃ e, s.evaluate w t = .error e ∧ w.MayRaise s.model e) := by
  obtain ⟨origin, hw, hknown⟩ := h.wellFormed
  have hbuilt : t.WellBuilt origin := ht.known hknown
  refine ⟨fun r hr id op ts hwithin => ?_, termText_ok hbuilt, ?_⟩
  · rcases hr with rfl | ⟨v, -, hdef⟩
    · exact hbuilt.shape hwithin
    · exact (hw.definition hdef).shape hwithin
  · rcases he : s.evaluate w t with e | x
    · exact .inr ⟨e, rfl, Assignment.mayRaise_of_evaluate hw ha.stratified hn hbuilt hb he⟩
    · exact .inl ⟨x, rfl⟩

/-! ### An integer beyond the range of doubles -/

namespace Oversized

/-- The first collection has an integer beyond the range, and the second is empty. -/
def lookup (n : Int) : LookupAnswer Float :=
  .values (if n = 0 then [.int 1, .int (Int.pow 2 1024)] else [])

/-- The greatest value in the first collection. -/
def first : Term Float := .node ⟨2⟩ (.custom "max") [.node ⟨1⟩ .collection [.const (Scalar.ofInt 0)]]

/-- The first value in the second collection. -/
def second : Term Float :=
  .node ⟨4⟩ .entry [.node ⟨3⟩ .collection [.const (Scalar.ofInt 1)], .const (Scalar.ofInt 1)]

def calls : List (Call Float) :=
  [.newModel .feasible, .setCollections ⟨0⟩ lookup (.int 2), .collection (.literal (.real (Scalar.ofInt 0))),
    .aggregate "max" [.term (.node ⟨1⟩ .collection [.const (Scalar.ofInt 0)])],
    .collection (.literal (.real (Scalar.ofInt 1))),
    .entryAt (.literal (.real (Scalar.ofInt 1)))
      [.term (.node ⟨3⟩ .collection [.const (Scalar.ofInt 1)])]]

def workspace : Workspace Float := calls.foldl (fun w call => (call.run.run.run w).2) {}

/-- The terms that the calls returned. -/
def known : List (Term Float) :=
  [.node ⟨1⟩ .collection [.const (Scalar.ofInt 0)], first,
    .node ⟨3⟩ .collection [.const (Scalar.ofInt 1)], second]

theorem history : History workspace known := by
  refine (.returned (.entryAt (.literal (.real (Scalar.ofInt 1)))
      [.term (.node ⟨3⟩ .collection [.const (Scalar.ofInt 1)])])
    (.returned (.collection (.literal (.real (Scalar.ofInt 1))))
      (.returned (.aggregate "max" [.term (.node ⟨1⟩ .collection [.const (Scalar.ofInt 0)])])
        (.returned (.collection (.literal (.real (Scalar.ofInt 0))))
          (.returned (.setCollections ⟨0⟩ lookup (.int 2))
            (.returned (.newModel .feasible) .start ?_ rfl) ?_ rfl) ?_ rfl) ?_ rfl) ?_ rfl) ?_ rfl :
    History workspace ([] ++ [] ++ [.node ⟨1⟩ .collection [.const (Scalar.ofInt 0)]] ++ [first] ++
      [.node ⟨3⟩ .collection [.const (Scalar.ofInt 1)]] ++ [second]))
  all_goals simp [Call.inputs, Input.Available]

theorem assembled : Assembled workspace := by
  refine .step _ (.step _ (.step _ (.step _ (.step _ (.step _ .start ?_) ?_) ?_) ?_) ?_) ?_
  all_goals
    simp [Call.inputs, Input.Declared, DeclaresAll, Term.mentions, Term.mentionsAll]

/-- Nothing is stored. -/
def empty : Solution Float := { model := ⟨0⟩ }

theorem answersNumbers : workspace.AnswersNumbers ⟨0⟩ := by
  intro n xs hxs
  have hlookup : (workspace.findModel ⟨0⟩).bind (·.lookup) = some lookup := rfl
  unfold literalsAt at hxs
  simp only [hlookup, integralKey, keyPosition?] at hxs
  split at hxs
  · obtain rfl := Except.ok.inj hxs
    split <;> simp
  · cases hxs

theorem usesBuiltin (t : Term Float) : empty.assignment.UsesBuiltin workspace t :=
  fun _ _ _ _ _ _ => rfl

/-- The integer in the first collection stops evaluation, by a fault that is neither an error of the
modelling language nor one of rounding. -/
theorem first_stopped : History workspace known ∧ Assembled workspace ∧
    workspace.AnswersNumbers ⟨0⟩ ∧ (Input.term first).Available known ∧
    empty.assignment.UsesBuiltin workspace first ∧
    empty.evaluate workspace first = .error (.fault .integerTooLarge) ∧
    (EvaluationError.fault .integerTooLarge : EvaluationError Float).isUndefined = false ∧
    Fault.integerTooLarge.isRounding = false :=
  ⟨history, assembled, answersNumbers, by simp [Input.Available, known, first], usesBuiltin _,
    by decide +kernel, rfl, rfl⟩

/-- There is no first value in the empty collection. -/
theorem second_evaluable : History workspace known ∧ Assembled workspace ∧
    workspace.AnswersNumbers ⟨0⟩ ∧ (Input.term second).Available known ∧
    empty.assignment.UsesBuiltin workspace second ∧
    (∀ id op ts, Within (.node id op ts) second → op.Shape ts) ∧
    (∃ text, workspace.termText second = .ok text) ∧
    ∃ e, e = .badIndex 1 "collection( 1.00 )" 1 0 ∧ empty.evaluate workspace second = .error e ∧
      workspace.MayRaise ⟨0⟩ e := by
  have ht : (Input.term second).Available known := by simp [Input.Available, known, second]
  have hbad : empty.evaluate workspace second = .error (.badIndex 1 "collection( 1.00 )" 1 0) := by
    decide +kernel
  obtain ⟨hshape, htext, hvalue | ⟨e, he, hraise⟩⟩ :=
    history.evaluable assembled answersNumbers ht (usesBuiltin second)
  · obtain ⟨x, hx⟩ := hvalue
    cases hbad.symm.trans hx
  · exact ⟨history, assembled, answersNumbers, ht, usesBuiltin _, hshape _ (.inl rfl), htext, e,
      Except.error.inj (he.symm.trans hbad), he, hraise⟩

end Oversized

end DecisionModel
