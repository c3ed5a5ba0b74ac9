import DecisionModel.Term.Basic

/-!
# Terms as builders make them

`Within` is the subterm relation. A term is `WellBuilt` over a register of identities if each of its
nodes has operands of the number and form that its operator calls for (`Operator.Shape`), and if
each of its identities is entered in the register for the subterm that carries it, so that two
subterms with one identity are the same term. The terms that builders make have both properties;
nodes made by hand need not.

`ReadsKey` lists the keys of those collections in a term that lowering looks at: all but the ones
among the operands of a count, which are not looked at.
-/

namespace DecisionModel

variable {α : Type}

namespace Term

/-- Induction over terms, with the operands of a node taken together. -/
theorem induction {P : Term α → Prop} (const : ∀ x, P (.const x)) (var : ∀ v, P (.var v))
    (selected : ∀ id f i, P (.selected id f i))
    (node : ∀ id op ts, (∀ t ∈ ts, P t) → P (.node id op ts)) (t : Term α) : P t :=
  @Term.rec α P (fun ts => ∀ t ∈ ts, P t) const var selected node
    (fun _ h => nomatch h) (fun _ _ ht hts _ h => by
      rcases List.mem_cons.mp h with rfl | h
      · exact ht
      · exact hts _ h) t

/-- The first term is the second one or occurs in it. -/
inductive Within : Term α → Term α → Prop
  | refl (t : Term α) : Within t t
  | operand {s t : Term α} {id : NodeId} {op : Operator} {ts : List (Term α)} :
    t ∈ ts → Within s t → Within s (.node id op ts)

theorem Within.of_mem {t : Term α} {id : NodeId} {op : Operator} {ts : List (Term α)} (h : t ∈ ts) :
    Within t (.node id op ts) := .operand h (.refl t)

theorem Within.trans {r s t : Term α} (h₁ : Within r s) (h₂ : Within s t) : Within r t := by
  induction h₂ with
  | refl => exact h₁
  | operand hm _ ih => exact .operand hm ih

theorem Within.sizeOf_le {s t : Term α} (h : Within s t) : sizeOf s ≤ sizeOf t := by
  induction h with
  | refl => exact Nat.le_refl _
  | operand hm _ ih =>
    have hlt := List.sizeOf_lt_of_mem hm
    simp only [Term.node.sizeOf_spec]
    omega

/-- An operand does not contain its node. -/
theorem Within.ne_node {s t : Term α} {id : NodeId} {op : Operator} {ts : List (Term α)} (ht : t ∈ ts)
    (h : Within s t) : s ≠ .node id op ts := by
  rintro rfl
  have hle := h.sizeOf_le
  have hlt := List.sizeOf_lt_of_mem ht
  simp only [Term.node.sizeOf_spec] at hle
  omega

theorem within_unwrapped (t : Term α) : Within t.unwrapped t := by
  unfold unwrapped
  split
  · exact .of_mem (by simp)
  · exact .refl _

/-- The identity of a node or of a selected member. -/
def id? : Term α → Option NodeId
  | .const _ => none
  | .var _ => none
  | .selected id _ _ => some id
  | .node id _ _ => some id

theorem isCollection_iff {t : Term α} :
    t.isCollection = true ↔ ∃ id ts, t = .node id .collection ts := by
  cases t <;> simp [isCollection, operator?]

end Term

/-- The least number of operands that a named operator reads. -/
def Operator.operandsRead : String → Nat
  | "abs" | "n_ary_if" | "element_of" | "not_element_of" | "at" => 1
  | "pow" => 2
  | "if_then_else" => 3
  | _ => 0

/-- The operands have the number and the form that the operator calls for. -/
def Operator.Shape (op : Operator) (ts : List (Term α)) : Prop :=
  match op with
  | wrapper | negation | complement | collection => ∃ t, ts = [t]
  | comparison _ => ∃ s t, ts = [s, t]
  | entry => ∃ container index, ts = [container, index] ∧ container.isCollection = true
  | difference | quotient => ts ≠ []
  | custom name => (∀ n, arity? name = some n → ts.length = n) ∧ operandsRead name ≤ ts.length
  | _ => True

/-- The nodes of the term have the form that their operators call for, and the register has each of
its identities entered for the subterm that carries it. -/
structure Term.WellBuilt (origin : NodeId → Option (Term α)) (t : Term α) : Prop where
  shape {id : NodeId} {op : Operator} {ts : List (Term α)} :
    Within (.node id op ts) t → op.Shape ts
  registered {s : Term α} {id : NodeId} : Within s t → s.id? = some id → origin id = some s

namespace Term

variable {origin : NodeId → Option (Term α)}

theorem WellBuilt.within {s t : Term α} (h : t.WellBuilt origin) (hs : Within s t) :
    s.WellBuilt origin where
  shape hw := h.shape (hw.trans hs)
  registered hw hid := h.registered (hw.trans hs) hid

theorem WellBuilt.operand {t : Term α} {id : NodeId} {op : Operator} {ts : List (Term α)}
    (h : (Term.node id op ts).WellBuilt origin) (ht : t ∈ ts) : t.WellBuilt origin :=
  h.within (.of_mem ht)

/-- What stands within an operand does not carry the identity of the node. -/
theorem WellBuilt.id_ne {t u : Term α} {id id' : NodeId} {op : Operator} {ts : List (Term α)}
    (h : (Term.node id op ts).WellBuilt origin) (ht : t ∈ ts) (hu : Within u t) (hid : u.id? = some id') :
    id' ≠ id := by
  rintro rfl
  have hsame : some u = some (.node id' op ts) :=
    (h.registered (.operand ht hu) hid).symm.trans (h.registered (.refl _) rfl)
  exact hu.ne_node ht (Option.some.inj hsame)

/-- A reference to a collection has one operand, its key. -/
theorem WellBuilt.exists_key {t : Term α} (h : t.WellBuilt origin) (ht : t.isCollection = true) :
    ∃ id key, t = .node id .collection [key] := by
  obtain ⟨id, ts, rfl⟩ := isCollection_iff.mp ht
  obtain ⟨key, rfl⟩ := h.shape (.refl _)
  exact ⟨id, key, rfl⟩

theorem WellBuilt.const (x : α) : (Term.const x).WellBuilt origin where
  shape hw := nomatch hw
  registered hw hid := by cases hw; cases hid

theorem WellBuilt.var (v : VarId) : (Term.var v : Term α).WellBuilt origin where
  shape hw := nomatch hw
  registered hw hid := by cases hw; cases hid

theorem WellBuilt.selected {id : NodeId} {f : FamilyId} {i : VarId}
    (h : origin id = some (.selected id f i)) : (Term.selected id f i : Term α).WellBuilt origin where
  shape hw := nomatch hw
  registered hw hid := by cases hw; cases hid; exact h

theorem WellBuilt.node {id : NodeId} {op : Operator} {ts : List (Term α)}
    (ho : origin id = some (.node id op ts)) (hs : op.Shape ts)
    (hts : ∀ t ∈ ts, t.WellBuilt origin) : (Term.node id op ts).WellBuilt origin where
  shape hw := by
    cases hw with
    | refl => exact hs
    | operand hm hw => exact (hts _ hm).shape hw
  registered hw hid := by
    cases hw with
    | refl => cases hid; exact ho
    | operand hm hw => exact (hts _ hm).registered hw hid

/-- A register with more entries serves as well. -/
theorem WellBuilt.mono {origin' : NodeId → Option (Term α)} {t : Term α}
    (h : t.WellBuilt origin) (ho : ∀ id s, origin id = some s → origin' id = some s) :
    t.WellBuilt origin' where
  shape := h.shape
  registered hw hid := ho _ _ (h.registered hw hid)

/-- Lowering the term looks at the collection under the key. -/
inductive ReadsKey : Term α → Term α → Prop
  | collection {id : NodeId} {key : Term α} {rest : List (Term α)} :
    ReadsKey (.node id .collection (key :: rest)) key
  | operand {t key : Term α} {id : NodeId} {op : Operator} {ts : List (Term α)} :
    t ∈ ts → op ≠ .collection → (op = .custom "count" → ts = [t] ∧ t.isCollection = true) →
      ReadsKey t key → ReadsKey (.node id op ts) key

theorem ReadsKey.eq_key {id : NodeId} {key key' : Term α} {ts : List (Term α)}
    (h : ReadsKey (.node id .collection (key :: ts)) key') : key' = key := by
  cases h with
  | collection => rfl
  | operand _ hop => exact absurd rfl hop

end Term

end DecisionModel
