import DecisionModel.Proofs.Fault
import DecisionModel.Proofs.Workspace.Growth

/-!
# Texts without circular definitions

The declaration of a variable is written with that of others only where its definition reads them as
if they were collections. In a stratified workspace such a chain is no longer than the rank of the
variable, so the text of no term and of no variable meets the bound (`uncircular_variableText`).
-/

namespace DecisionModel

variable {α β : Type}

/-- The result is not the fault of a circular definition. -/
abbrev Uncircular (r : Except Fault β) : Prop := FaultsIn (· ≠ .circularDefinition) r

/-! ### Terms -/

theorem uncircular_guarded {p : Piece} (h : Uncircular p.text) : Uncircular p.guarded := by
  unfold Piece.guarded
  split
  · exact faultsIn_map h
  · exact h

theorem uncircular_write {op : Operator} {pieces : List Piece}
    (h : ∀ p ∈ pieces, Uncircular p.text ∧ Uncircular (p.alone ())) :
    Uncircular (op.write pieces) := by
  have htext := fun p hp => (h p hp).1
  have hguarded := fun p hp => uncircular_guarded (htext p hp)
  unfold Operator.write
  split
  · exact hguarded _ List.mem_cons_self
  · exact faultsIn_map (hguarded _ List.mem_cons_self)
  · exact faultsIn_map (hguarded _ List.mem_cons_self)
  · exact faultsIn_map (htext _ List.mem_cons_self)
  · exact faultsIn_error (by decide)
  · exact faultsIn_error (by decide)
  · exact faultsIn_error (by decide)
  · exact faultsIn_error (by decide)
  · exact faultsIn_bind (faultsIn_mapM htext) fun _ => faultsIn_ok _
  · rename_i container index
    refine faultsIn_bind (h container (by simp)).2 fun _ => ?_
    exact faultsIn_bind (htext index (by simp)) fun _ => faultsIn_ok _
  · exact faultsIn_error (by simp)
  · exact faultsIn_map (faultsIn_mapM htext)
  · exact faultsIn_map (faultsIn_mapM hguarded)

namespace Workspace

variable [Scalar α] {w : Workspace α} {declared : VarId → Except Fault String} {t : Term α}

theorem exists_of_mem_piecesWith {ts : List (Term α)} {p : Piece}
    (h : p ∈ w.piecesWith declared ts) : ∃ t ∈ ts, p.text = w.termTextWith declared t ∧
      p.alone () = aloneText declared t (w.termTextWith declared t) := by
  induction ts with
  | nil => simp [piecesWith] at h
  | cons t ts ih =>
    rw [piecesWith] at h
    rcases List.mem_cons.mp h with rfl | h
    · exact ⟨t, List.mem_cons_self, rfl, rfl⟩
    · obtain ⟨u, hu, hp⟩ := ih h
      exact ⟨u, List.mem_cons_of_mem t hu, hp⟩

theorem uncircular_pieces {ts : List (Term α)}
    (hd : ∀ v, .variable v ∈ Term.mentionsAll ts → Uncircular (declared v))
    (hts : ∀ t ∈ ts, Uncircular (w.termTextWith declared t)) :
    ∀ p ∈ w.piecesWith declared ts, Uncircular p.text ∧ Uncircular (p.alone ()) := by
  intro p hp
  obtain ⟨t, ht, htext, halone⟩ := exists_of_mem_piecesWith hp
  rw [htext, halone]
  refine ⟨hts t ht, ?_⟩
  unfold aloneText
  split
  · exact hd _ (Term.mem_mentionsAll.mpr ⟨_, ht, by simp [Term.mentions]⟩)
  · exact faultsIn_error (by simp)
  · exact hts t ht

theorem uncircular_termTextWith (hd : ∀ v, .variable v ∈ t.mentions → Uncircular (declared v)) :
    Uncircular (w.termTextWith declared t) := by
  induction t using Term.induction with
  | const x => exact faultsIn_ok _
  | var v => exact faultsIn_ok _
  | selected id f i => exact faultsIn_ok _
  | node id op ts ih =>
    rw [termTextWith]
    refine uncircular_write (uncircular_pieces hd fun t ht => ih t ht fun v hv => hd v ?_)
    exact Term.mem_mentionsAll.mpr ⟨t, ht, hv⟩

/-! ### Variables -/

theorem uncircular_integerText (x : α) : Uncircular (integerText x) := by
  unfold integerText
  cases hx : Scalar.exact x with
  | finite q => exact faultsIn_ok _
  | _ => exact faultsIn_error (by decide)

theorem uncircular_lowerText {write : α → Except Fault String} (h : ∀ x, Uncircular (write x)) (x : α) :
    Uncircular (lowerText write x) := by
  unfold lowerText
  split
  · exact faultsIn_ok _
  · exact h x

theorem uncircular_upperText {write : α → Except Fault String} (h : ∀ x, Uncircular (write x)) (x : α) :
    Uncircular (upperText write x) := by
  unfold upperText
  split
  · exact faultsIn_ok _
  · exact h x

theorem uncircular_declarationWith {d : Variable α}
    (h : ∀ t, d.definition = some t → Uncircular (w.termTextWith declared t)) :
    Uncircular (w.declarationWith declared d) := by
  unfold declarationWith
  split
  · exact faultsIn_map (h _ ‹_›)
  · split
    · exact faultsIn_ok _
    · split
      · exact faultsIn_bind (uncircular_integerText _) fun _ => faultsIn_ok _
      · refine faultsIn_bind (uncircular_lowerText uncircular_integerText _) fun _ => ?_
        exact faultsIn_bind (uncircular_upperText uncircular_integerText _) fun _ => faultsIn_ok _
    · have hwrite : ∀ x : α, Uncircular (Except.ok (Scalar.fixedText 2 x)) := fun _ => faultsIn_ok _
      dsimp only
      split
      · exact faultsIn_bind (hwrite _) fun _ => faultsIn_ok _
      · refine faultsIn_bind (uncircular_lowerText hwrite _) fun _ => ?_
        exact faultsIn_bind (uncircular_upperText hwrite _) fun _ => faultsIn_ok _

theorem uncircular_declaredText (hw : w.Stratified) {depth : Nat} {v : VarId} (hd : w.rank v < depth) :
    Uncircular (w.declaredText depth v) := by
  induction depth generalizing v with
  | zero => exact absurd hd (Nat.not_lt_zero _)
  | succ depth ih =>
    unfold declaredText
    split
    · rename_i d hfind
      refine uncircular_declarationWith fun t ht => uncircular_termTextWith fun u hu => ih ?_
      have hdep : w.DependsOn v u :=
        ⟨t, Workspace.definition?_eq.mpr ⟨d, hfind, ht⟩, .inl hu⟩
      have hrank := rank_lt hw.closed hw.acyclic hdep
      omega
    · exact faultsIn_ok _

theorem uncircular_variableText (hw : w.Stratified) (v : VarId) : Uncircular (w.variableText v) :=
  uncircular_declaredText hw (Nat.lt_succ_of_le (w.rank_le v))

/-- The text of a node is not circular, whatever its operands are. -/
theorem uncircular_nodeText (hw : w.Stratified) (op : Operator) (ts : List (Term α)) :
    Uncircular (op.write (w.pieces ts)) :=
  uncircular_write (uncircular_pieces (fun v _ => uncircular_variableText hw v) fun _ _ =>
    uncircular_termTextWith fun v _ => uncircular_variableText hw v)

end Workspace

end DecisionModel
