import DecisionModel.Proofs.Builder.History
import DecisionModel.Proofs.Evaluation.Reading
import DecisionModel.Proofs.Workspace.Text
import DecisionModel.Solution.Basic

/-!
# More stored values

A solution that stores more values gives every value and every error that it gave before, as long as
the new values are those of variables that are neither defined nor fixed
(`evaluate_of_enlarges`). Only a missing value can become something else.

The law needs that collection references have a text, as they have in all terms that builders make. An
aggregate makes the text of its collection even if the key is missing; a reference made by hand that
cannot be written then stops the evaluation with a fault, and the same evaluation may fail in another
way, or give a value, as soon as the key is there (`Misshapen.not_monotone`).
-/

namespace DecisionModel

open Outcome

variable {α : Type}

/-- The second solution keeps the values of the first one, and the values that it adds are those of
variables that are neither defined nor fixed. -/
structure Solution.Enlarges [Scalar α] (w : Workspace α) (s s' : Solution α) : Prop where
  model : s'.model = s.model
  kept {v : VarId} {x : α} : s.stored? v = some x → s'.stored? v = some x
  added {v : VarId} {d : Variable α} : s.stored? v = none → w.findVariable v = some d →
    d.isDefined ∨ d.isFixed → s'.stored? v = none

/-- Every collection reference that the term involves has a text. -/
def Workspace.WritesCollections [Scalar α] (w : Workspace α) (t : Term α) : Prop :=
  ∀ r, w.Involves t r → ∀ id ts, Term.Within (.node id .collection ts) r →
    ∃ s, w.termText (.node id .collection ts) = .ok s

/-- Missing values and all errors. -/
def Allowed.all (α : Type) : Allowed α := ⟨True, fun _ => True⟩

namespace Solution

variable [Scalar α] {w : Workspace α} {s s' : Solution α} {t r : Term α}

omit [Scalar α] in
theorem regular_all : (Allowed.all α).Regular := ⟨fun _ => trivial, fun _ => trivial⟩

theorem comparable_of_enlarges (h : s.Enlarges w s') :
    Assignment.Comparable (.all α) w s.assignment s'.assignment :=
  ⟨regular_all, h.model, fun _ => trivial⟩

theorem termAllowed_of_involves (hs : s.assignment.UsesBuiltin w t) (hs' : s'.assignment.UsesBuiltin w t)
    (hw : w.WritesCollections t) (hr : w.Involves t r) :
    Assignment.TermAllowed (.all α) w s.assignment s'.assignment r := by
  intro id op ts hwithin
  refine ⟨.inr ⟨trivial, fun _ _ => trivial⟩, fun hop => ?_, fun _ => trivial, fun hop => .inr ?_⟩
  · subst hop
    exact ⟨hs r hr _ _ _ hwithin, hs' r hr _ _ _ hwithin⟩
  · subst hop
    exact hw r hr _ _ hwithin

theorem variableAllowed_of_enlarges (h : s.Enlarges w s') (hs : s.assignment.UsesBuiltin w t)
    (hs' : s'.assignment.UsesBuiltin w t) (hw : w.WritesCollections t) {v : VarId} (hv : w.Reaches t v) :
    Assignment.VariableAllowed (.all α) w s.assignment s'.assignment v where
  stored := h.kept
  undeclared _ _ := trivial
  defined hnone hdef := by
    refine ⟨?_, termAllowed_of_involves hs hs' hw (.inr ⟨v, hv, hdef⟩)⟩
    obtain ⟨d, hd, ht⟩ := Workspace.definition?_eq.mp hdef
    exact h.added hnone hd (.inl (by simp [Variable.isDefined, ht]))
  fixed hnone hd _ hfixed := h.added hnone hd (.inr hfixed)
  free _ _ _ _ := trivial

/-- More stored values change no value and no error. -/
theorem evaluate_of_enlarges (h : s.Enlarges w s') (hs : s.assignment.UsesBuiltin w t)
    (hs' : s'.assignment.UsesBuiltin w t) (hw : w.WritesCollections t) :
    (∀ x, s.evaluate w t = .ok (some x) → s'.evaluate w t = .ok (some x)) ∧
      ∀ e, s.evaluate w t = .error e → s'.evaluate w t = .error e := by
  have hext : Extends (.all α) (s.evaluate w t) (s'.evaluate w t) :=
    Assignment.evaluate_extends (comparable_of_enlarges h)
      (termAllowed_of_involves hs hs' hw (.inl rfl))
      (fun v hv => variableAllowed_of_enlarges h hs hs' hw hv) (.inl trivial)
  constructor
  · intro x hx
    rw [hx] at hext
    exact hext
  · intro e he
    rw [he] at hext
    exact hext.2

/-- Collection references have a text where all terms are as builders make them. -/
theorem writesCollections_of_wellBuilt {origin : NodeId → Option (Term α)} (hw : w.WellFormed origin)
    (ht : t.WellBuilt origin) : w.WritesCollections t := by
  intro r hr id ts hwithin
  have hbuilt : r.WellBuilt origin := by
    rcases hr with rfl | ⟨v, -, hdef⟩
    · exact ht
    · exact hw.definition hdef
  exact Workspace.termText_ok (hbuilt.within hwithin)

omit [Scalar α] in
theorem stored?_set (s : Solution α) (u v : VarId) (x : α) :
    (s.set u x).stored? v = if v = u then some x else s.stored? v := Table.get?_put s.values u v x

/-- A value is added for a variable that has none, is not defined and not fixed. -/
theorem enlarges_set {u : VarId} (x : α) (hnone : s.stored? u = none)
    (hfree : ∀ d, w.findVariable u = some d → d.isDefined = false ∧ d.isFixed = false) :
    s.Enlarges w (s.set u x) where
  model := rfl
  kept {v y} h := by
    have hne : v ≠ u := by
      rintro rfl
      rw [hnone] at h
      cases h
    rw [stored?_set, if_neg hne, h]
  added {v d} h hd hdef := by
    have hne : v ≠ u := by
      rintro rfl
      obtain ⟨hdefined, hfixed⟩ := hfree d hd
      simp [hdefined, hfixed] at hdef
    rw [stored?_set, if_neg hne, h]

/-! ### A small solution -/

/-- Only the variable that is one more than the other has a value. -/
def partlySmall : Solution Exact := { model := ⟨0⟩, values := [(⟨1⟩, .finite 4)] }

/-- The same, and the other variable is one. -/
def whollySmall : Solution Exact := partlySmall.set ⟨0⟩ (.finite 1)

theorem enlarges_partlySmall : partlySmall.Enlarges Small.workspace whollySmall := by
  refine enlarges_set _ rfl fun d hd => ?_
  cases hd
  exact ⟨rfl, by decide⟩

/-- A defined variable keeps the value that is stored for it when the variable that its definition
reads gets one. -/
theorem small_evaluate_of_enlarges : partlySmall.Enlarges Small.workspace whollySmall ∧
    partlySmall.assignment.UsesBuiltin Small.workspace Small.constraint ∧
    whollySmall.assignment.UsesBuiltin Small.workspace Small.constraint ∧
    Small.workspace.WritesCollections Small.constraint ∧
    partlySmall.evaluate Small.workspace Small.constraint = .ok (some (.finite 1)) ∧
    whollySmall.evaluate Small.workspace Small.constraint = .ok (some (.finite 1)) := by
  obtain ⟨origin, hw, hknown⟩ := Small.history.wellFormed
  have hwrites := writesCollections_of_wellBuilt hw (hknown Small.constraint (by simp [Small.known]))
  have hbefore : partlySmall.assignment.UsesBuiltin Small.workspace Small.constraint :=
    fun _ _ _ _ _ _ => rfl
  have hafter : whollySmall.assignment.UsesBuiltin Small.workspace Small.constraint :=
    fun _ _ _ _ _ _ => rfl
  have hvalue : partlySmall.evaluate Small.workspace Small.constraint = .ok (some (.finite 1)) := by
    decide +kernel
  exact ⟨enlarges_partlySmall, hbefore, hafter, hwrites, hvalue,
    (evaluate_of_enlarges enlarges_partlySmall hbefore hafter hwrites).1 _ hvalue⟩

end Solution

/-! ### A collection reference that cannot be written -/

namespace Misshapen

/-- A model with one variable. -/
def workspace : Workspace Exact := ((do
  let m ← Build.newModel .feasible
  let _ ← Build.addVariable m .integer "x" .absent .absent (.literal .absent) :
    Build Exact Unit).run.run {}).2

/-- The sum of the collection under an entry that has an index but no container. -/
def term : Term Exact :=
  .node ⟨3⟩ (.custom "sum") [.node ⟨2⟩ .collection [.node ⟨1⟩ .entry [.var ⟨0⟩]]]

/-- No value is stored. -/
def before : Solution Exact := { model := ⟨0⟩ }

/-- The value of the variable is one. -/
def after : Solution Exact := before.set ⟨0⟩ (.finite 1)

theorem enlarges : before.Enlarges workspace after := by
  refine Solution.enlarges_set _ rfl fun d hd => ?_
  cases hd
  exact ⟨rfl, by decide⟩

/-- Without the value the text of the collection cannot be made, and with it the entry has no
container to read from. -/
theorem not_monotone : before.Enlarges workspace after ∧ before.assignment.UsesBuiltin workspace term ∧
    after.assignment.UsesBuiltin workspace term ∧
    before.evaluate workspace term = .error (.fault (.operandCount 2 1)) ∧
    after.evaluate workspace term = .error (.badIndex 1 "at()" 1 0) := by
  refine ⟨enlarges, fun _ _ _ _ _ _ => rfl, fun _ _ _ _ _ _ => rfl, ?_, ?_⟩
  · rfl
  · decide +kernel

end Misshapen

end DecisionModel
