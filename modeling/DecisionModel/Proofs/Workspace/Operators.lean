import DecisionModel.Proofs.Workspace.Dependency
import DecisionModel.Proofs.Workspace.Text

/-!
# The table of operators

A node of a named operator can be stored with the position of the name in the table of operators in place
of the name. `Workspace.encode` brings a term into this form and `Workspace.decode` reads it. The table has
each name once and is only ever extended at its end (`Workspace.Continues`), so that what is stored keeps
its meaning: any later table reads the same term (`Continues.decode_encode`), and its text is the same
(`Continues.termText`).
-/

namespace DecisionModel

open Term

variable {α : Type} {w w' : Workspace α} {name : String} {i : Nat} {t : Term α}

/-! ### Names and positions -/

namespace Workspace

theorem operators_registerOperator (w : Workspace α) (name : String) :
    w.operators <+: (w.registerOperator name).operators := by
  rw [registerOperator_operators]
  split
  · exact List.prefix_refl _
  · exact List.prefix_append _ _

theorem nodup_registerOperator (h : w.operators.Nodup) (name : String) :
    (w.registerOperator name).operators.Nodup := by
  rw [registerOperator_operators]
  split
  · exact h
  · rename_i hnew
    exact List.concat_eq_append ▸ h.concat hnew

/-- Where the table has each name once, a name is found at the position where it stands. -/
theorem operatorIndex?_eq (hw : w.operators.Nodup) (h : w.operators[i]? = some name) :
    w.operatorIndex? name = some i := by
  obtain ⟨hi, hname⟩ := List.getElem?_eq_some_iff.mp h
  refine List.idxOf?_eq_some_iff.mpr ⟨hi, hname, fun j hj hsame => ?_⟩
  have hij : j = i := (hw.getElem_inj_iff).mp (hsame.trans hname.symm)
  omega

/-- Variables, families and operators of the first workspace are there in the second one under the same
names and positions, and no operator gets a second position. -/
structure Continues (w w' : Workspace α) : Prop where
  operators : w.operators <+: w'.operators
  distinct : w.operators.Nodup → w'.operators.Nodup
  declared {v : VarId} {d : Variable α} : w.findVariable v = some d → w'.findVariable v = some d
  family {f : FamilyId} {d : Family} : w.findFamily f = some d →
    ∃ d', w'.findFamily f = some d' ∧ d'.name = d.name

namespace Continues

theorem refl (w : Workspace α) : w.Continues w :=
  ⟨List.prefix_refl _, id, id, fun h => ⟨_, h, rfl⟩⟩

theorem trans {w₁ w₂ : Workspace α} (h₁ : w.Continues w₁) (h₂ : w₁.Continues w₂) :
    w.Continues w₂ where
  operators := h₁.operators.trans h₂.operators
  distinct := h₂.distinct ∘ h₁.distinct
  declared := h₂.declared ∘ h₁.declared
  family h := by
    obtain ⟨d₁, hd₁, hname₁⟩ := h₁.family h
    obtain ⟨d₂, hd₂, hname₂⟩ := h₂.family hd₁
    exact ⟨d₂, hd₂, hname₂.trans hname₁⟩

theorem getElem? (h : w.Continues w') (hi : w.operators[i]? = some name) :
    w'.operators[i]? = some name := by
  obtain ⟨hlt, hname⟩ := List.getElem?_eq_some_iff.mp hi
  rw [List.prefix_iff_getElem?.mp h.operators i hlt, hname]

/-- A name keeps its position. -/
theorem operatorIndex? (h : w.Continues w') (hw : w.operators.Nodup) (hname : name ∈ w.operators) :
    w'.operatorIndex? name = w.operatorIndex? name := by
  obtain ⟨i, hi⟩ := List.mem_iff_getElem?.mp hname
  rw [operatorIndex?_eq hw hi, operatorIndex?_eq (h.distinct hw) (h.getElem? hi)]

end Continues

end Workspace

/-! ### Terms with positions for names -/

/-- An operator as it is stored. -/
inductive CodedOperator where
  | plain (op : Operator)
  | named (position : Nat)

/-- A term as it is stored. -/
inductive CodedTerm (α : Type) where
  | const (x : α)
  | var (v : VarId)
  | selected (id : NodeId) (family : FamilyId) (index : VarId)
  | node (id : NodeId) (op : CodedOperator) (operands : List (CodedTerm α))

namespace Workspace

/-- A named operator is stored by its position, if it has one. -/
def encodeOperator (w : Workspace α) : Operator → CodedOperator
  | .custom name => ((w.operatorIndex? name).map .named).getD (.plain (.custom name))
  | op => .plain op

def decodeOperator (w : Workspace α) : CodedOperator → Option Operator
  | .plain op => some op
  | .named position => (w.operators[position]?).map .custom

mutual

def encode (w : Workspace α) : Term α → CodedTerm α
  | .const x => .const x
  | .var v => .var v
  | .selected id f i => .selected id f i
  | .node id op ts => .node id (w.encodeOperator op) (encodeAll w ts)

def encodeAll (w : Workspace α) : List (Term α) → List (CodedTerm α)
  | [] => []
  | t :: ts => encode w t :: encodeAll w ts

end

mutual

/-- The term that is stored, if all positions in it are in the table. -/
def decode (w : Workspace α) : CodedTerm α → Option (Term α)
  | .const x => some (.const x)
  | .var v => some (.var v)
  | .selected id f i => some (.selected id f i)
  | .node id op ts => do return .node id (← w.decodeOperator op) (← decodeAll w ts)

def decodeAll (w : Workspace α) : List (CodedTerm α) → Option (List (Term α))
  | [] => some []
  | t :: ts => do return (← decode w t) :: (← decodeAll w ts)

end

/-- The names of all named operators in the term are in the table. -/
def NamesAll (w : Workspace α) (t : Term α) : Prop :=
  ∀ ⦃id name ts⦄, Within (.node id (.custom name) ts) t → name ∈ w.operators

theorem NamesAll.operand {id : NodeId} {op : Operator} {ts : List (Term α)}
    (h : w.NamesAll (.node id op ts)) (ht : t ∈ ts) : w.NamesAll t :=
  fun _ _ _ hw => h (.operand ht hw)

namespace Continues

theorem decodeOperator_encodeOperator (h : w.Continues w') (hw : w.operators.Nodup) {op : Operator}
    (hop : ∀ name, op = .custom name → name ∈ w.operators) :
    w'.decodeOperator (w.encodeOperator op) = some op := by
  cases op with
  | custom name =>
    obtain ⟨i, hi⟩ := List.mem_iff_getElem?.mp (hop name rfl)
    simp [encodeOperator, decodeOperator, operatorIndex?_eq hw hi, h.getElem? hi]
  | _ => rfl

/-- What is stored is read as the same term by any later table. -/
theorem decode_encode (h : w.Continues w') (hw : w.operators.Nodup) (ht : w.NamesAll t) :
    w'.decode (w.encode t) = some t := by
  induction t using Term.induction with
  | node id op ts ih =>
    have hall : ∀ us : List (Term α), (∀ u ∈ us, u ∈ ts) →
        w'.decodeAll (w.encodeAll us) = some us := by
      intro us hus
      induction us with
      | nil => rfl
      | cons u us ihs =>
        have hu := hus u List.mem_cons_self
        rw [encodeAll, decodeAll, ih u hu (ht.operand hu), ihs fun x hx =>
          hus x (List.mem_cons_of_mem u hx)]
        rfl
    have hop : w'.decodeOperator (w.encodeOperator op) = some op := by
      refine h.decodeOperator_encodeOperator hw fun name hname => ?_
      subst hname
      exact ht (.refl _)
    rw [encode, decode, hop, hall ts fun _ hu => hu]
    rfl
  | _ => rfl

/-- It would be stored in the same way later. -/
theorem encode (h : w.Continues w') (hw : w.operators.Nodup) (ht : w.NamesAll t) :
    w'.encode t = w.encode t := by
  induction t using Term.induction with
  | node id op ts ih =>
    have hall : ∀ us : List (Term α), (∀ u ∈ us, u ∈ ts) → w'.encodeAll us = w.encodeAll us := by
      intro us hus
      induction us with
      | nil => rfl
      | cons u us ihs =>
        have hu := hus u List.mem_cons_self
        rw [encodeAll, encodeAll, ih u hu (ht.operand hu), ihs fun x hx =>
          hus x (List.mem_cons_of_mem u hx)]
    have hop : w'.encodeOperator op = w.encodeOperator op := by
      cases op with
      | custom name => simp only [encodeOperator, h.operatorIndex? hw (ht (.refl _))]
      | _ => rfl
    rw [Workspace.encode, Workspace.encode, hop, hall ts fun _ hu => hu]
  | _ => rfl

end Continues

/-! ### Texts -/

/-- What is mentioned is there. -/
def Finds (w : Workspace α) : Term.Mention → Prop
  | .variable v => ∃ d, w.findVariable v = some d
  | .family f => ∃ d, w.findFamily f = some d

theorem Continues.variableName (h : w.Continues w') {v : VarId} (hv : w.Finds (.variable v)) :
    w'.variableName v = w.variableName v := by
  obtain ⟨d, hd⟩ := hv
  simp [Workspace.variableName, hd, h.declared hd]

theorem Continues.familyName (h : w.Continues w') {f : FamilyId} (hf : w.Finds (.family f)) :
    w'.familyName f = w.familyName f := by
  obtain ⟨d, hd⟩ := hf
  obtain ⟨d', hd', hname⟩ := h.family hd
  simp [Workspace.familyName, hd, hd', hname]

end Workspace

/-- Pieces that are the same among other operands. -/
structure Piece.Alike (p q : Piece) : Prop where
  bracketed : p.bracketed = q.bracketed
  text : p.text = q.text

theorem Piece.Alike.guarded {p q : Piece} (h : p.Alike q) : p.guarded = q.guarded := by
  simp [Piece.guarded, h.bracketed, h.text]

theorem mapM_eq_of_forall₂ {β γ : Type} {R : β → β → Prop} {f : β → Except Fault γ} {xs ys : List β}
    (h : List.Forall₂ R xs ys) (hf : ∀ x y, R x y → f x = f y) : xs.mapM f = ys.mapM f := by
  induction h with
  | nil => rfl
  | cons hxy _ ih => rw [List.mapM_cons, List.mapM_cons, hf _ _ hxy, ih]

/-- Only an entry is written with more than the texts of its operands among others. -/
theorem Operator.write_alike {op : Operator} (hop : op ≠ .entry) {ps qs : List Piece}
    (h : List.Forall₂ Piece.Alike ps qs) : op.write ps = op.write qs := by
  have htext : ps.mapM (·.text) = qs.mapM (·.text) := mapM_eq_of_forall₂ h fun _ _ h => h.text
  have hguarded : ps.mapM (·.guarded) = qs.mapM (·.guarded) :=
    mapM_eq_of_forall₂ h fun _ _ h => h.guarded
  cases op with
  | entry => exact absurd rfl hop
  | wrapper | negation | complement | collection =>
    cases h with
    | nil => rfl
    | cons hp _ => simp only [write, hp.guarded, hp.text]
  | custom name | comparison c => simp only [write, htext]
  | _ => simp only [write, hguarded]

variable [Scalar α]

namespace Workspace

variable {declared declared' : VarId → Except Fault String}

/-- A term whose nodes have the form that their operators call for is written by the names that it
mentions. -/
theorem Continues.termTextWith (h : w.Continues w')
    (hs : ∀ id op ts, Within (.node id op ts) t → op.Shape ts) (ht : ∀ m ∈ t.mentions, w.Finds m) :
    w'.termTextWith declared' t = w.termTextWith declared t := by
  induction t using Term.induction with
  | const x => rfl
  | var v =>
    have hv := h.variableName (ht (.variable v) (by simp [Term.mentions]))
    simp only [Workspace.termTextWith, hv]
  | selected id f i =>
    have hi := h.variableName (ht (.variable i) (by simp [Term.mentions]))
    have hf := h.familyName (ht (.family f) (by simp [Term.mentions]))
    simp only [Workspace.termTextWith, selectedName, hi, hf]
  | node id op ts ih =>
    have hsame : ∀ u ∈ ts, w'.termTextWith declared' u = w.termTextWith declared u := fun u hu =>
      ih u hu (fun id op us hw => hs id op us (.operand hu hw)) fun m hm =>
        ht m (Term.mem_mentionsAll.mpr ⟨u, hu, hm⟩)
    rw [Workspace.termTextWith, Workspace.termTextWith]
    by_cases hop : op = .entry
    · subst hop
      obtain ⟨container, index, rfl, hc⟩ := hs id .entry ts (.refl _)
      obtain ⟨cid, us, rfl⟩ := Term.isCollection_iff.mp hc
      simp only [piecesWith, Operator.write, aloneText, hsame _ List.mem_cons_self,
        hsame index (by simp)]
    · refine Operator.write_alike hop ?_
      clear ih hs ht
      induction ts with
      | nil => exact .nil
      | cons u us ihs =>
        refine .cons ⟨rfl, hsame u List.mem_cons_self⟩ (ihs fun x hx => ?_)
        exact hsame x (List.mem_cons_of_mem u hx)

theorem Continues.termText (h : w.Continues w')
    (hs : ∀ id op ts, Within (.node id op ts) t → op.Shape ts) (ht : ∀ m ∈ t.mentions, w.Finds m) :
    w'.termText t = w.termText t := h.termTextWith hs ht

end Workspace

end DecisionModel
