import DecisionModel.Workspace.Text
import DecisionModel.Proofs.Term.WellBuilt

/-!
# Texts of well-built terms

A text fails only over a node whose operands do not have the form that its operator calls for. So a
well-built term has a text (`termTextWith_ok`), whatever the declarations of variables are.
-/

namespace DecisionModel.Workspace

variable {α : Type} [Scalar α] {w : Workspace α} {declared : VarId → Except Fault String}

theorem mapM_ok {β : Type} {f : β → Except Fault String} {xs : List β}
    (h : ∀ x ∈ xs, ∃ s, f x = .ok s) : ∃ ss, xs.mapM f = .ok ss := by
  induction xs with
  | nil => exact ⟨[], rfl⟩
  | cons x xs ih =>
    obtain ⟨s, hs⟩ := h x (by simp)
    obtain ⟨ss, hss⟩ := ih fun y hy => h y (by simp [hy])
    exact ⟨s :: ss, by simp [List.mapM_cons, hs, hss, bind, Except.bind, pure, Except.pure]⟩

theorem guarded_ok {p : Piece} (h : ∃ s, p.text = .ok s) : ∃ s, p.guarded = .ok s := by
  obtain ⟨s, hs⟩ := h
  unfold Piece.guarded
  split
  · exact ⟨_, by rw [hs]; rfl⟩
  · exact ⟨s, hs⟩

/-- A joined text can be made if the texts of the pieces can. -/
theorem join_ok {f : Piece → Except Fault String} {pieces : List Piece} (separator : String)
    (h : ∀ p ∈ pieces, ∃ s, f p = .ok s) :
    ∃ s, (separator.intercalate <$> pieces.mapM f : Except Fault String) = .ok s := by
  obtain ⟨ss, hss⟩ := mapM_ok h
  exact ⟨_, by rw [hss]; rfl⟩

theorem text_of_mem_piecesWith {ts : List (Term α)}
    (h : ∀ t ∈ ts, ∃ s, w.termTextWith declared t = .ok s) :
    ∀ p ∈ w.piecesWith declared ts, ∃ s, p.text = .ok s := by
  induction ts with
  | nil => simp [piecesWith]
  | cons t ts ih =>
    intro p hp
    rw [piecesWith] at hp
    rcases List.mem_cons.mp hp with rfl | hp
    · exact h t (by simp)
    · exact ih (fun t ht => h t (by simp [ht])) p hp

theorem write_ok {op : Operator} {ts : List (Term α)} (hs : op.Shape ts)
    (h : ∀ t ∈ ts, ∃ s, w.termTextWith declared t = .ok s) :
    ∃ s, op.write (w.piecesWith declared ts) = .ok s := by
  have htext := text_of_mem_piecesWith h
  have hguarded := fun p hp => guarded_ok (htext p hp)
  have hone : (∃ t, ts = [t]) → ∃ p rest, w.piecesWith declared ts = p :: rest ∧
      (∃ s, p.text = .ok s) ∧ ∃ s, p.guarded = .ok s := by
    rintro ⟨t, rfl⟩
    rw [piecesWith] at htext hguarded ⊢
    exact ⟨_, _, rfl, htext _ (by simp), hguarded _ (by simp)⟩
  cases op with
  | wrapper | negation | complement =>
    obtain ⟨p, rest, hp, -, s, hs⟩ := hone hs
    exact ⟨_, by simp only [Operator.write, hp, hs]; rfl⟩
  | collection =>
    obtain ⟨p, rest, hp, ⟨s, hs⟩, -⟩ := hone hs
    exact ⟨_, by simp only [Operator.write, hp, hs]; rfl⟩
  | custom name =>
    obtain ⟨ss, hss⟩ := mapM_ok htext
    unfold Operator.write
    simp only [hss, bind, Except.bind]
    exact ⟨_, rfl⟩
  | entry =>
    obtain ⟨container, index, rfl, hc⟩ := hs
    obtain ⟨id, ts, rfl⟩ := Term.isCollection_iff.mp hc
    obtain ⟨s, hs⟩ := h (.node id .collection ts) (by simp)
    obtain ⟨i, hi⟩ := h index (by simp)
    exact ⟨s ++ "[" ++ i ++ "]", by simp [Operator.write, piecesWith, aloneText, hs, hi, bind,
      Except.bind, pure, Except.pure]⟩
  | comparison c => exact join_ok _ htext
  | conjunction | disjunction | sum | difference | product | quotient => exact join_ok _ hguarded

theorem termTextWith_ok {origin : NodeId → Option (Term α)} {t : Term α} (ht : t.WellBuilt origin) :
    ∃ s, w.termTextWith declared t = .ok s := by
  induction t using Term.induction with
  | const x => exact ⟨_, rfl⟩
  | var v => exact ⟨_, rfl⟩
  | selected id f i => exact ⟨_, rfl⟩
  | node id op ts ih =>
    rw [termTextWith]
    exact write_ok (ht.shape (.refl _)) fun t hm => ih t hm (ht.operand hm)

theorem termText_ok {origin : NodeId → Option (Term α)} {t : Term α} (ht : t.WellBuilt origin) :
    ∃ s, w.termText t = .ok s := termTextWith_ok ht

end DecisionModel.Workspace
