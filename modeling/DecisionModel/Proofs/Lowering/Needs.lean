import DecisionModel.Lowering.Walk
import DecisionModel.Proofs.Lowering.Scope
import DecisionModel.Proofs.Workspace.Dependency

/-!
# The variables that lowering needs

`Workspace.Needs` lists the variables whose handles are looked up when a term is lowered: those in it,
the index and the members where it selects from a family, but not what stands among the inline operands
of a count. If a scope covers a term (`Scope.Covers`) and the operations of the back-end stay in it
(`Backend.InScope`), then so does lowering the term, and where it returns the scope has handles for all
that the term needs (`Backend.scoped_translate`). The cases are those of the walk.
-/

namespace DecisionModel

variable {α ν σ β : Type} {c : Context α} {S : Scope α} {w : Workspace α}

/-- Lowering the term looks up the handle of the variable. -/
inductive Workspace.Needs (w : Workspace α) : Term α → VarId → Prop
  | var (v : VarId) : Needs w (.var v) v
  | index {id : NodeId} {f : FamilyId} {i : VarId} : Needs w (.selected id f i) i
  | member {id : NodeId} {f : FamilyId} {i v : VarId} : v ∈ w.members f → Needs w (.selected id f i) v
  | operand {id : NodeId} {op : Operator} {ts : List (Term α)} {t : Term α} {v : VarId} :
    op.Shape ts → t ∈ ts → (op = .custom "count" → ts = [t] ∧ t.isCollection = true) → Needs w t v →
      Needs w (.node id op ts) v

/-- The scope has handles for all that lowering the term needs. -/
def Scope.Meets (S : Scope α) (w : Workspace α) (t : Term α) : Prop := ∀ v, w.Needs t v → S.handle v

/-- The identities in the term are looked up within the scope, and the handles of the members of its
families may be taken for granted there. -/
structure Scope.Covers (S : Scope α) (w : Workspace α) (t : Term α) : Prop where
  node {r : Term α} {id : NodeId} : Term.Within r t → r.id? = some id →
    S.node id ∧ (S.Meets w r ↔ S.lowered id)
  member {id : NodeId} {f : FamilyId} {i v : VarId} :
    Term.Within (.selected id f i) t → v ∈ w.members f → S.Takes v

namespace Scope

theorem Covers.within {s t : Term α} (h : S.Covers w t) (hs : Term.Within s t) : S.Covers w s where
  node hr hid := h.node (hr.trans hs) hid
  member hr hv := h.member (hr.trans hs) hv

theorem meets_const (x : α) : S.Meets w (.const x) := fun _ hv => by cases hv

theorem meets_var {v : VarId} (h : S.handle v) : S.Meets w (.var v) := by
  intro u hu
  cases hu
  exact h

theorem meets_selected {id : NodeId} {f : FamilyId} {i : VarId} (hi : S.handle i)
    (hf : ∀ v ∈ w.members f, S.handle v) : S.Meets w (.selected id f i) := by
  intro v hv
  cases hv with
  | index => exact hi
  | member hv => exact hf v hv

/-- What a node needs is what its operands need, if its operator has the operands that it calls for. -/
theorem meets_node {id : NodeId} {op : Operator} {ts : List (Term α)}
    (h : op.Shape ts → ∀ t ∈ ts, S.Meets w t) : S.Meets w (.node id op ts) := by
  intro v hv
  cases hv with
  | operand hs ht _ hv => exact h hs _ ht v hv

/-- A count of inline operands needs nothing. -/
theorem meets_count {id : NodeId} {ts : List (Term α)}
    (h : ∀ t, ts = [t] → t.isCollection = true → S.Meets w t) :
    S.Meets w (.node id (.custom "count") ts) := by
  intro v hv
  cases hv with
  | operand _ _ hcount hv => exact h _ (hcount rfl).1 (hcount rfl).2 v hv

/-- A wrapper needs what its operand needs. -/
theorem meets_of_unwrapped {t : Term α} (h : S.Meets w t.unwrapped) : S.Meets w t := by
  unfold Term.unwrapped at h
  split at h
  · rename_i u us
    refine meets_node fun hs t ht => ?_
    obtain ⟨s, hs⟩ := hs
    rw [hs] at ht
    rw [List.mem_singleton.mp ht, ← (List.cons.inj hs).1]
    exact h
  · exact h

/-- The scope has handles for all that the key of the container needs, if there is one. -/
def MeetsKey (S : Scope α) (w : Workspace α) : Term α → Prop
  | .node _ _ (key :: _) => S.Meets w key
  | _ => True

/-- A collection needs what its key needs. -/
theorem meets_collection {t : Term α} (ht : t.isCollection = true) (h : S.MeetsKey w t) :
    S.Meets w t := by
  obtain ⟨id, ts, rfl⟩ := Term.isCollection_iff.mp ht
  refine meets_node fun hs u hu => ?_
  obtain ⟨key, rfl⟩ := hs
  rw [List.mem_singleton.mp hu]
  exact h

end Scope

open LowerM Scope

/-- The operations of the back-end stay in the scope, and an encoding of its own for a membership looks
up the handle of the variable. -/
structure Backend.InScope [Scalar α] (B : Backend α ν σ) (c : Context α) (S : Scope α) : Prop where
  constant (x : α) : Plain c S (B.constant x)
  constant? (x : α) : Plain c S (B.constant? x)
  negate (h : Handle ν) : Plain c S (B.negate h)
  add (x y : Handle ν) : Plain c S (B.add x y)
  subtract (x y : Handle ν) : Plain c S (B.subtract x y)
  multiply (x y : Handle ν) : Plain c S (B.multiply x y)
  divide (x y : Handle ν) : Plain c S (B.divide x y)
  power (x y : Handle ν) : Plain c S (B.power x y)
  absolute (h : Handle ν) : Plain c S (B.absolute h)
  minimum (hs : List (Handle ν)) : Plain c S (B.minimum hs)
  maximum (hs : List (Handle ν)) : Plain c S (B.maximum hs)
  reify (r : Comparison) (x y : Handle ν) : Plain c S (B.reify r x y)
  complement (h : Handle ν) : Plain c S (B.complement h)
  conjoin (hs : List (Handle ν)) : Plain c S (B.conjoin hs)
  disjoin (hs : List (Handle ν)) : Plain c S (B.disjoin hs)
  conditional (x t e : Handle ν) : Plain c S (B.conditional x t e)
  firstMatch (cs vs : List (Handle ν)) (h : Handle ν) : Plain c S (B.firstMatch cs vs h)
  membership (h : Handle ν) (hs : List (Option (Handle ν))) : Plain c S (B.membership h hs)
  lookup (h : Handle ν) (entries : List (Int × Handle ν)) : Plain c S (B.lookup h entries)
  keyedMembership? {key : Handle ν} {keys : List Int} {v : VarId} {m : LowerM α ν σ (Handle ν)} :
    B.keyedMembership? c key keys v = some m → Scoped c S m (S.handle v)
  newInteger (lower upper : Int) (hint : String) : Plain c S (B.newInteger lower upper hint)
  postEqual (x y : Handle ν) : Plain c S (B.postEqual x y)
  postComparison (r : Comparison) (x y : Handle ν) : Plain c S (B.postComparison r x y)
  postTrue (h : Handle ν) : Plain c S (B.postTrue h)

/-- The scope covers the term of the operand, and has handles for what it needs once it is lowered. -/
structure Operand.InScope [Scalar α] (c : Context α) (S : Scope α) (o : Operand α ν σ) : Prop where
  covers : S.Covers c.workspace o.term
  lower : Scoped c S o.lower (S.Meets c.workspace o.term)

namespace Backend

variable [Scalar α]

/-! ### Keys and collected values -/

theorem plain_keysWithin (key : Term α) (lower upper : α) :
    Plain c S (keysWithin c key lower upper : LowerM α ν σ (Int × Int)) := by
  refine plain_bind (plain_lift _) fun first => plain_bind (plain_lift _) fun last => ?_
  dsimp only
  exact scoped_whenAfter (plain_lift _) (fun _ => scoped_fail trivial) (.pure _)

theorem plain_variableKeys (v : VarId) : Plain c S (variableKeys c v : LowerM α ν σ (Int × Int)) := by
  unfold variableKeys
  split
  · exact plain_keysWithin _ _ _
  · exact scoped_fail trivial

theorem plain_selectedKeys (id : NodeId) (f : FamilyId) (i : VarId) :
    Plain c S (selectedKeys c id f i : LowerM α ν σ (Int × Int)) := by
  unfold selectedKeys
  split
  · exact scoped_fail trivial
  · exact plain_keysWithin _ _ _

theorem plain_aggregateValue (name : String) (xs : List α) (key : Int) :
    Plain c S (aggregateValue name xs key : LowerM α ν σ α) := by
  unfold aggregateValue
  split
  · exact .pure _
  · exact plain_lift _
  · exact scoped_fail trivial
  · exact plain_bind (plain_lift _) fun _ => .pure _
  · exact .pure _
  · exact .pure _

theorem plain_postFolded (isTrue : Bool) (t : Term α) :
    Plain c S (postFolded c isTrue t : LowerM α ν σ Unit) := by
  refine scoped_ite ?_ (.pure _)
  exact plain_bind (plain_lift _) fun text =>
    plain_bind (.recordViolated _) fun _ => plain_log _ _ _

variable [Numeral ν] {B : Backend α ν σ}

theorem plain_element (hB : B.InScope c S) (index : Handle ν) (entries : List (Int × Handle ν)) :
    Plain c S (B.element index entries) := by
  unfold Backend.element
  split
  · refine plain_bind (plain_lift _) fun position => ?_
    split
    · exact .pure _
    · split
      · exact scoped_fail trivial
      · exact scoped_fail trivial
  · exact hB.lookup _ _

/-- The members are looked up first, and then the index. -/
theorem scoped_lowerSelected (hB : B.InScope c S) {id : NodeId} {f : FamilyId} {i : VarId}
    (hf : ∀ v ∈ c.workspace.members f, S.Takes v) :
    Scoped c S (lowerSelected B c f i) (S.Meets c.workspace (.selected id f i)) := by
  have hmembers := scoped_mapM (ν := ν) (σ := σ) fun v hv => Scoped.assumedHandle (c := c) (hf v hv)
  have hrest (members : List (Handle ν)) : Scoped c S (do
      if members.isEmpty then .fail (.emptyFamily (c.workspace.selectedName f i))
      let index ← variableHandle c i
      B.element index (members.mapIdx fun k h => ((k : Int), h))) (S.handle i) :=
    scoped_when (scoped_fail trivial) ((Scoped.variableHandle i).first fun _ => plain_element hB _ _)
  exact .weaken (fun h => meets_selected h.2 h.1) (.bind hmembers hrest)

theorem scoped_memoizedSelected (hB : B.InScope c S) {id : NodeId} {f : FamilyId} {i : VarId}
    (ht : S.Covers c.workspace (.selected id f i)) :
    Scoped c S (memoized id (lowerSelected B c f i)) (S.Meets c.workspace (.selected id f i)) :=
  .memoized (ht.node (.refl _) rfl).1 (ht.node (.refl _) rfl).2
    (scoped_lowerSelected hB fun _ hv => ht.member (.refl _) hv)

/-- A key that is no number is looked up. -/
theorem scoped_keyDomain (hB : B.InScope c S) {key : Term α} (hkey : S.Covers c.workspace key) :
    Scoped c S (keyDomain B c key) (S.Meets c.workspace key) := by
  refine .weaken meets_of_unwrapped ?_
  have hcovers := hkey.within (Term.within_unwrapped key)
  generalize hu : key.unwrapped = u at hcovers
  unfold keyDomain
  dsimp only
  rw [hu]
  refine scoped_whenAfter (plain_lift _) (fun _ => scoped_fail trivial) ?_
  cases u with
  | const x => exact (plain_lift _).second fun _ => scoped_fail trivial
  | node id op ts => exact (plain_lift _).second fun _ => scoped_fail trivial
  | var v =>
    refine (plain_variableKeys v).second fun keys => ?_
    exact .weaken meets_var ((Scoped.variableHandle v).first fun _ => .pure _)
  | selected id f i =>
    refine (plain_selectedKeys id f i).second fun keys => (hB.newInteger _ _ _).second fun h => ?_
    refine (scoped_memoizedSelected hB hcovers).first fun value => ?_
    exact plain_bind (hB.postEqual _ _) fun _ => .pure _

/-! ### Collections -/

omit [Numeral ν] in
/-- The key of a container, and what follows. -/
theorem scoped_withKey {t : Term α} (ht : S.Covers c.workspace t)
    {f : Except Fault (Term α) → LowerM α ν σ β} {P : Prop} (hname : ∀ e, Scoped c S (f (.error e)) P)
    (hkey : ∀ key, S.Covers c.workspace key →
      (S.Meets c.workspace key → S.MeetsKey c.workspace t) → Scoped c S (f (.ok key)) P) :
    Scoped c S (keyOf c t >>= f) P := by
  unfold keyOf
  split
  · exact hname _
  · exact hkey _ (ht.within (.of_mem List.mem_cons_self)) id
  · exact scoped_fail trivial
  · exact scoped_fail trivial

/-- An aggregate looks at nothing but the key. -/
theorem scoped_lowerAggregate (hB : B.InScope c S) (name : String) {t : Term α}
    (ht : S.Covers c.workspace t) :
    Scoped c S (lowerAggregate B c name t) (S.MeetsKey c.workspace t) := by
  refine scoped_withKey ht (fun e => scoped_fail trivial) fun key hcovers hmeets => .weaken hmeets ?_
  simp only [lift, pure_bind]
  split
  · refine .weaken (fun _ => meets_const _) (plain_bind (plain_lift _) fun n => ?_)
    exact plain_bind (plain_collection _) fun xs =>
      plain_bind (plain_aggregateValue _ _ _) fun _ => hB.constant _
  · refine (scoped_keyDomain hB hcovers).first fun domain => ?_
    refine plain_bind (plain_mapM fun n _ => ?_) fun entries => ?_
    · refine plain_bind (plain_collection _) fun xs => ?_
      refine plain_bind (plain_aggregateValue _ _ _) fun x => ?_
      exact plain_bind (hB.constant _) fun _ => .pure _
    · exact plain_bind (plain_log _ _ _) fun _ => plain_element hB _ _

/-- The value is looked up once, and tested under each key. -/
theorem scoped_membershipByKey (hB : B.InScope c S) (key : Handle ν) (keys : List Int)
    {value : LowerM α ν σ (Handle ν)} {P : Prop} (hvalue : Scoped c S value P) :
    Scoped c S (membershipByKey B c key keys value) P := by
  refine hvalue.first fun h => plain_bind (plain_mapM fun n _ => ?_) fun entries => ?_
  · refine plain_bind (plain_collection _) fun xs => ?_
    refine plain_bind (plain_mapM fun x _ => hB.constant? x) fun members => ?_
    exact plain_bind (hB.membership _ _) fun _ => .pure _
  · exact plain_element hB _ _

/-- Both the key and the value are looked at, however the membership is encoded. -/
theorem scoped_lowerMembership (hB : B.InScope c S) {value : Operand α ν σ}
    (hvalue : value.InScope c S) {t : Term α} (ht : S.Covers c.workspace t) :
    Scoped c S (lowerMembership B c value t)
      (S.MeetsKey c.workspace t ∧ S.Meets c.workspace value.term) := by
  refine scoped_withKey ht (fun e => scoped_fail trivial) fun key hcovers hmeets => ?_
  refine .weaken (And.imp_left hmeets) ?_
  simp only [lift, pure_bind]
  split
  · refine .weaken (And.intro (meets_const _)) ((plain_lift _).second fun n => ?_)
    refine (plain_collection _).second fun xs => ?_
    split
    · rename_i y hy
      rw [hy]
      exact .weaken (fun _ => meets_const y) (hB.constant _)
    · refine hvalue.lower.first fun h => ?_
      exact plain_bind (plain_mapM fun x _ => hB.constant? x) fun _ => hB.membership _ _
  · refine .bind (scoped_keyDomain hB hcovers) fun domain => ?_
    split
    · rename_i y hy
      rw [hy]
      refine .weaken (fun _ => meets_const y) (plain_bind (plain_mapM fun n _ => ?_) fun entries => ?_)
      · exact plain_bind (plain_collection _) fun xs => plain_bind (hB.constant _) fun _ => .pure _
      · exact plain_element hB _ _
    · rename_i v hv _
      split
      · rename_i encode hencode
        refine .weaken (fun h => meets_of_unwrapped ?_) (hB.keyedMembership? hencode)
        rw [hv]
        exact meets_var h
      · exact scoped_membershipByKey hB _ _ hvalue.lower
    · exact scoped_membershipByKey hB _ _ hvalue.lower

theorem plain_columnOf (hB : B.InScope c S) (width : Nat) (index : Handle ν) :
    Plain c S (columnOf B width index) := by
  unfold columnOf
  split
  · refine plain_bind (hB.newInteger _ _ _) fun column => ?_
    exact plain_bind (hB.postEqual _ _) fun _ => .pure _
  · exact plain_bind (plain_lift _) fun position => scoped_when (scoped_fail trivial) (.pure _)

theorem plain_flatIndex (hB : B.InScope c S) (count width : Nat) (firstKey : Int)
    (key column : Handle ν) : Plain c S (flatIndex B count width firstKey key column) := by
  refine plain_bind (hB.newInteger _ _ _) fun flat => plain_bind (plain_sub _ _) fun row => ?_
  refine plain_bind (plain_mul _ _) fun start => plain_bind (plain_add _ _) fun sum => ?_
  refine plain_bind (plain_sub _ _) fun position => ?_
  exact plain_bind (hB.postEqual _ _) fun _ => .pure _

theorem plain_entryByKey (hB : B.InScope c S) (key : Handle ν) (keys : List Int)
    (index : Handle ν) : Plain c S (entryByKey B c key keys index) := by
  refine plain_bind (plain_mapM fun n _ => plain_collection n) fun tables => scoped_when ?_ ?_
  · exact scoped_fail trivial
  · refine plain_bind (plain_columnOf hB _ _) fun column => ?_
    refine plain_bind (plain_flatIndex hB _ _ _ _ _) fun flat => ?_
    refine plain_bind (plain_mapM fun table _ => ?_) fun tables => hB.lookup _ _
    exact plain_mapM fun x _ => hB.constant x

/-- The index is lowered before the key is. -/
theorem scoped_lowerEntry (hB : B.InScope c S) {t : Term α} (ht : S.Covers c.workspace t)
    {index : LowerM α ν σ (Handle ν)} {P : Prop} (hindex : Scoped c S index P) :
    Scoped c S (lowerEntry B c t index) (P ∧ S.MeetsKey c.workspace t) := by
  refine scoped_withKey ht (fun e => ?_) fun key hcovers hmeets => ?_
  · exact .weaken (fun h => h.2.elim) (.bind hindex fun _ => scoped_fail (P := False) trivial)
  refine .weaken (And.imp_right hmeets) (.bind hindex fun h => ?_)
  simp only [lift, pure_bind]
  split
  · refine .weaken (fun _ => meets_const _) (plain_bind (plain_lift _) fun n => ?_)
    refine plain_bind (plain_collection _) fun xs => scoped_when (scoped_fail trivial) ?_
    exact plain_bind (plain_mapM fun x _ => hB.constant x) fun _ => plain_element hB _ _
  · exact (scoped_keyDomain hB hcovers).first fun domain => plain_entryByKey hB _ _ _

/-! ### Terms -/

section

variable {operands : List (Operand α ν σ)} (ho : ∀ o ∈ operands, o.InScope c S)

omit [Numeral ν] in
include ho in
/-- A step with the operand at a position, if there is one. -/
theorem scoped_withNth (position : Nat) {f : Operand α ν σ → LowerM α ν σ β} {P : Prop}
    (hf : ∀ o, operands[position]? = some o → o.InScope c S → Scoped c S (f o) P) :
    Scoped c S (Operand.nth operands position >>= f) P := by
  unfold Operand.nth
  split
  · rename_i o h
    exact hf o h (ho o (List.mem_of_getElem? h))
  · exact scoped_fail trivial

omit [Numeral ν] in
include ho in
/-- The operand at a position is there, and the scope has handles for what it needs. -/
theorem scoped_lowerNth (position : Nat) : Scoped c S (Operand.lowerNth operands position)
    (∀ o, operands[position]? = some o → S.Meets c.workspace o.term) := by
  refine scoped_withNth ho position fun o ho' h => .weaken (fun hmeets o' ho'' => ?_) h.lower
  cases ho'.symm.trans ho''
  exact hmeets

omit [Numeral ν] in
include ho in
theorem scoped_lowerAll : Scoped c S (lowerAll operands)
    (∀ o ∈ operands, S.Meets c.workspace o.term) := scoped_mapM fun o h => (ho o h).lower

omit [Numeral ν] in
include ho in
theorem scoped_chain {f : Handle ν → Handle ν → LowerM α ν σ (Handle ν)}
    (hf : ∀ x y, Plain c S (f x y)) :
    Scoped c S (chain f operands) (∀ o ∈ operands, S.Meets c.workspace o.term) := by
  unfold chain
  split
  · exact scoped_fail trivial
  · rename_i first rest
    have hfirst := (ho first List.mem_cons_self).lower
    have hrest : ∀ h, Scoped c S (rest.foldlM (fun h o => do f h (← o.lower)) h)
        (∀ o ∈ rest, S.Meets c.workspace o.term) :=
      scoped_foldlM fun _ o hm => (ho o (List.mem_cons_of_mem first hm)).lower.first fun _ => hf _ _
    refine .weaken (fun h o hm => ?_) (.bind hfirst hrest)
    rcases List.mem_cons.mp hm with rfl | hm
    · exact h.1
    · exact h.2 o hm

omit [Scalar α] [Numeral ν] ho in
/-- All operands are among those at the first positions. -/
theorem meets_of_positions {n : Nat} (hn : operands.length = n)
    (h : ∀ i < n, ∀ o, operands[i]? = some o → S.Meets w o.term) : ∀ o ∈ operands, S.Meets w o.term := by
  intro o hm
  obtain ⟨i, hi⟩ := List.mem_iff_getElem?.mp hm
  exact h i (hn ▸ (List.getElem?_eq_some_iff.mp hi).1) o hi

omit [Numeral ν] in
include ho in
/-- The only operand. -/
theorem scoped_sole : Scoped c S (Operand.lowerNth operands 0)
    (operands.length = 1 → ∀ o ∈ operands, S.Meets c.workspace o.term) := by
  refine .weaken (fun h hn => meets_of_positions hn fun i hi => ?_) (scoped_lowerNth ho 0)
  obtain rfl : i = 0 := by omega
  exact h

omit [Numeral ν] in
include ho in
/-- The only two operands. -/
theorem scoped_pair {f : Handle ν → Handle ν → LowerM α ν σ β} (hf : ∀ x y, Plain c S (f x y)) :
    Scoped c S (do
        let x ← Operand.lowerNth operands 0
        let y ← Operand.lowerNth operands 1
        f x y)
      (operands.length = 2 → ∀ o ∈ operands, S.Meets c.workspace o.term) := by
  refine .weaken (fun h hn => meets_of_positions hn fun i hi => ?_) (.bind (scoped_lowerNth ho 0)
    fun x => (scoped_lowerNth ho 1).first (hf x))
  obtain rfl | rfl : i = 0 ∨ i = 1 := by omega
  · exact h.1
  · exact h.2

omit [Numeral ν] in
include ho in
/-- The only three operands. -/
theorem scoped_triple {f : Handle ν → Handle ν → Handle ν → LowerM α ν σ β}
    (hf : ∀ x y z, Plain c S (f x y z)) :
    Scoped c S (do
        let x ← Operand.lowerNth operands 0
        let y ← Operand.lowerNth operands 1
        let z ← Operand.lowerNth operands 2
        f x y z)
      (operands.length = 3 → ∀ o ∈ operands, S.Meets c.workspace o.term) := by
  refine .weaken (fun h hn => meets_of_positions hn fun i hi => ?_) (.bind (scoped_lowerNth ho 0)
    fun x => .bind (scoped_lowerNth ho 1) fun y => (scoped_lowerNth ho 2).first (hf x y))
  obtain rfl | rfl | rfl : i = 0 ∨ i = 1 ∨ i = 2 := by omega
  · exact h.1
  · exact h.2.1
  · exact h.2.2

omit [Scalar α] [Numeral ν] ho in
/-- The first operand and the others. -/
theorem meets_of_tail (hfirst : ∀ o, operands[0]? = some o → S.Meets w o.term)
    (htail : ∀ o ∈ operands.tail, S.Meets w o.term) : ∀ o ∈ operands, S.Meets w o.term := by
  cases operands with
  | nil => exact htail
  | cons first rest =>
    intro o ho
    rcases List.mem_cons.mp ho with rfl | ho
    · exact hfirst o rfl
    · exact htail o ho

include ho in
/-- All inline operands are looked at, except for those that are only counted. -/
theorem scoped_lowerInline (hB : B.InScope c S) (name : String) :
    Scoped c S (lowerInline B name operands)
      ((∀ n, Operator.arity? name = some n → operands.length = n) → name ≠ "count" →
        ∀ o ∈ operands, S.Meets c.workspace o.term) := by
  have hnth := scoped_lowerNth ho
  have hall := scoped_lowerAll ho
  have htail := scoped_lowerAll fun o h => ho o (List.mem_of_mem_tail h)
  unfold lowerInline
  split
  · exact .weaken (fun _ _ hname => absurd rfl hname) (hB.constant _)
  · split
    · rename_i hempty
      refine .weaken (fun _ _ _ o h => ?_) (hB.constant _)
      rw [List.isEmpty_iff.mp hempty] at h
      exact absurd h List.not_mem_nil
    · exact .weaken (fun h _ _ => h) (scoped_chain ho hB.add)
  · refine .weaken (fun h _ _ => h) ((scoped_chain ho hB.add).first fun total => ?_)
    exact plain_bind (hB.constant _) fun _ => hB.divide _ _
  · exact .weaken (fun h _ _ => h) (hall.first fun _ => hB.minimum _)
  · exact .weaken (fun h _ _ => h) (hall.first fun _ => hB.maximum _)
  · exact .weaken (fun h hn _ => h (hn 1 rfl)) ((scoped_sole ho).first fun _ => hB.absolute _)
  · exact .weaken (fun h hn _ => h (hn 2 rfl)) (scoped_pair ho fun _ _ => hB.power _ _)
  · exact .weaken (fun h hn _ => h (hn 3 rfl)) (scoped_triple ho fun _ _ _ => hB.conditional _ _ _)
  · refine .weaken (fun h _ _ => h) (hall.first fun handles => ?_)
    split
    · exact scoped_fail trivial
    · exact hB.firstMatch _ _ _
  · refine .weaken (fun h _ _ => meets_of_tail h.1 h.2) (.bind (hnth 0) fun value => ?_)
    exact htail.first fun _ => hB.membership _ _
  · refine .weaken (fun h _ _ => meets_of_tail h.1 h.2) (.bind (hnth 0) fun value => ?_)
    exact htail.first fun _ => plain_bind (hB.membership _ _) fun _ => hB.complement _
  · refine .weaken (fun h _ _ => meets_of_tail h.2 h.1) (.bind htail fun values => ?_)
    exact (hnth 0).first fun _ => plain_element hB _ _
  · exact scoped_fail trivial

omit [Scalar α] [Numeral ν] ho in
/-- What a node needs is what its operands need. -/
theorem meets_operands {id : NodeId} {op : Operator}
    (h : op.Shape (operands.map (·.term)) → ∀ o ∈ operands, S.Meets w o.term) :
    S.Meets w (.node id op (operands.map (·.term))) := by
  refine meets_node fun hs t ht => ?_
  obtain ⟨o, hm, rfl⟩ := List.mem_map.mp ht
  exact h hs o hm

omit [Scalar α] [Numeral ν] ho in
theorem length_of_map_term {ts : List (Term α)} (h : operands.map (·.term) = ts) :
    operands.length = ts.length := (List.length_map _).symm.trans (congrArg List.length h)

include ho in
/-- Over inline operands, a named operator needs what they need. -/
theorem scoped_inlineNode (hB : B.InScope c S) (id : NodeId) (name : String)
    (hcount : ∀ o, operands = [o] → o.term.isCollection = true → name ≠ "count") :
    Scoped c S (lowerInline B name operands)
      (S.Meets c.workspace (.node id (.custom name) (operands.map (·.term)))) := by
  refine .weaken (fun h => ?_) (scoped_lowerInline ho hB name)
  by_cases hname : name = "count"
  · subst hname
    refine meets_count fun t ht hcollection => ?_
    obtain ⟨o, hoperands, rfl⟩ := List.map_eq_singleton_iff.mp ht
    exact absurd rfl (hcount o hoperands hcollection)
  · refine meets_operands fun hs => h (fun n hn => ?_) hname
    exact (List.length_map _).symm.trans (hs.1 n hn)

include ho in
/-- A named operator looks at its operands, and at the key of a collection among them. -/
theorem scoped_lowerCustom (hB : B.InScope c S) (id : NodeId) (name : String) :
    Scoped c S (lowerCustom B c name operands)
      (S.Meets c.workspace (.node id (.custom name) (operands.map (·.term)))) := by
  have hinline := scoped_inlineNode ho hB id name
  unfold lowerCustom
  rcases hsole : Operand.soleCollection? operands with _ | container
  · have hcount : ∀ o, operands = [o] → o.term.isCollection = true → name ≠ "count" := by
      rintro o rfl hcollection
      simp [Operand.soleCollection?, hcollection] at hsole
    dsimp only
    rcases operands with _ | ⟨first, rest⟩
    · exact hinline hcount
    rcases htail : Operand.soleCollection? rest with _ | container
    · simp only [List.tail_cons, htail]
      exact hinline hcount
    obtain ⟨o, rfl, rfl, hcollection⟩ := soleCollection?_eq_some htail
    simp only [List.tail_cons, htail]
    have hfirst := ho first List.mem_cons_self
    have hcontainer := (ho o (List.mem_cons_of_mem first List.mem_cons_self)).covers
    have hmeets (hkey : S.MeetsKey c.workspace o.term) (hvalue : S.Meets c.workspace first.term) :
        S.Meets c.workspace (.node id (.custom name) [first.term, o.term]) := by
      refine meets_node fun _ t ht => ?_
      rcases List.mem_cons.mp ht with rfl | ht
      · exact hvalue
      · rw [List.mem_singleton.mp ht]
        exact meets_collection hcollection hkey
    have hmember := Scoped.weaken (fun h => hmeets h.1 h.2) (scoped_lowerMembership hB hfirst hcontainer)
    split
    · exact hmember
    · exact hmember.first fun _ => hB.complement _
    · exact .weaken (fun h => hmeets h.2 h.1) (scoped_lowerEntry hB hcontainer hfirst.lower)
    · exact hinline hcount
  · obtain ⟨o, rfl, rfl, hcollection⟩ := soleCollection?_eq_some hsole
    dsimp only
    split
    · refine .weaken (fun h => meets_node fun _ t ht => ?_)
        (scoped_lowerAggregate hB name (ho o List.mem_cons_self).covers)
      rw [List.mem_singleton.mp ht]
      exact meets_collection hcollection h
    · rename_i hname
      refine hinline fun _ _ _ => ?_
      rintro rfl
      simp at hname

theorem plain_lowerComparison (hB : B.InScope c S) (r : Comparison) (x y : Handle ν) :
    Plain c S (lowerComparison B r x y) := by
  unfold lowerComparison
  split
  · exact hB.constant _
  · exact hB.reify _ _ _

include ho in
/-- The container and the index, of which the index is lowered first. -/
theorem scoped_entry (hB : B.InScope c S) (id : NodeId) :
    Scoped c S (do
        let container ← Operand.nth operands 0
        let index ← Operand.nth operands 1
        lowerEntry B c container.term index.lower)
      (S.Meets c.workspace (.node id .entry (operands.map (·.term)))) := by
  refine scoped_withNth ho 0 fun o ho₀ hcontainer => scoped_withNth ho 1 fun i hi hindex => ?_
  refine .weaken (fun h => meets_operands fun hs => ?_) (scoped_lowerEntry hB hcontainer.covers hindex.lower)
  obtain ⟨container, index, hterms, hcollection⟩ := hs
  refine meets_of_positions (length_of_map_term hterms) fun k hk p hp => ?_
  obtain rfl | rfl : k = 0 ∨ k = 1 := by simp at hk; omega
  · cases ho₀.symm.trans hp
    have hterm : o.term = container := by
      have := congrArg (·[0]?) hterms
      simpa [ho₀] using this
    exact meets_collection (hterm ▸ hcollection) h.2
  · cases hi.symm.trans hp
    exact h.1

include ho in
/-- A node looks at its operands. -/
theorem scoped_lowerNode (hB : B.InScope c S) (id : NodeId) (op : Operator)
    (text : Unit → Except Fault String) :
    Scoped c S (lowerNode B c op text operands)
      (S.Meets c.workspace (.node id op (operands.map (·.term)))) := by
  have hsole (h : operands.length = 1 → ∀ o ∈ operands, S.Meets c.workspace o.term)
      (hs : ∃ t, operands.map (·.term) = [t]) : ∀ o ∈ operands, S.Meets c.workspace o.term := by
    obtain ⟨t, hs⟩ := hs
    exact h (length_of_map_term hs)
  cases op with
  | wrapper => exact .weaken (fun h => meets_operands (hsole h)) (scoped_sole ho)
  | negation =>
    exact .weaken (fun h => meets_operands (hsole h)) ((scoped_sole ho).first fun _ => hB.negate _)
  | sum => exact .weaken (fun h => meets_operands fun _ => h) (scoped_chain ho hB.add)
  | difference => exact .weaken (fun h => meets_operands fun _ => h) (scoped_chain ho hB.subtract)
  | product => exact .weaken (fun h => meets_operands fun _ => h) (scoped_chain ho hB.multiply)
  | quotient => exact .weaken (fun h => meets_operands fun _ => h) (scoped_chain ho hB.divide)
  | comparison r =>
    refine .weaken (fun h => meets_operands fun hs => ?_)
      (scoped_pair ho fun _ _ => plain_lowerComparison hB r _ _)
    obtain ⟨t, u, hs⟩ := hs
    exact h (length_of_map_term hs)
  | complement =>
    exact .weaken (fun h => meets_operands (hsole h)) ((scoped_sole ho).first fun _ => hB.complement _)
  | conjunction =>
    exact .weaken (fun h => meets_operands fun _ => h) ((scoped_lowerAll ho).first fun _ => hB.conjoin _)
  | disjunction =>
    exact .weaken (fun h => meets_operands fun _ => h) ((scoped_lowerAll ho).first fun _ => hB.disjoin _)
  | entry => exact scoped_entry ho hB id
  | custom name => exact scoped_lowerCustom ho hB id name
  | collection => exact (plain_lift _).second fun _ => scoped_fail trivial

end

theorem inScope_operandsOf {ts : List (Term α)} (ht : ∀ t ∈ ts, S.Covers c.workspace t)
    (h : ∀ t ∈ ts, Scoped c S (translate B c t) (S.Meets c.workspace t)) :
    ∀ o ∈ operandsOf B c ts, o.InScope c S := by
  intro o ho
  rw [operandsOf_eq] at ho
  obtain ⟨t, hm, rfl⟩ := List.mem_map.mp ho
  exact ⟨ht t hm, h t hm⟩

theorem terms_operandsOf (ts : List (Term α)) : (operandsOf B c ts).map (·.term) = ts := by
  simp [operandsOf_eq, Function.comp_def]

/-- Lowering a term stays in a scope that covers it, and where it returns, the scope has handles for all
that the term needs. -/
theorem scoped_translate (hB : B.InScope c S) {t : Term α} (ht : S.Covers c.workspace t) :
    Scoped c S (translate B c t) (S.Meets c.workspace t) := by
  induction t using Term.induction with
  | const x => exact .weaken (fun _ => meets_const x) (hB.constant x)
  | var v => exact .weaken meets_var (.variableHandle v)
  | selected id f i => exact scoped_memoizedSelected hB ht
  | node id op ts ih =>
    have hnode := ht.node (.refl _) rfl
    have hoperands := inScope_operandsOf (fun t hm => ht.within (.of_mem hm)) fun t hm =>
      ih t hm (ht.within (.of_mem hm))
    have hlower := scoped_lowerNode hoperands hB id op fun _ => op.write (c.workspace.pieces ts)
    rw [terms_operandsOf] at hlower
    exact .memoized hnode.1 hnode.2 hlower

/-! ### Constraints -/

/-- What is posted for a term once it has a handle. -/
def postLowered (B : Backend α ν σ) (c : Context α) (t : Term α) (h : Handle ν) : LowerM α ν σ Unit :=
  match h.number? with
  | some x => postFolded c (!Numeral.isZero x) t
  | none => B.postTrue h

theorem postHandle_eq (B : Backend α ν σ) (c : Context α) (t : Term α) :
    postHandle B c t = translate B c t >>= postLowered B c t := rfl

theorem plain_postLowered (hB : B.InScope c S) (t : Term α) (h : Handle ν) :
    Plain c S (postLowered B c t h) := by
  unfold postLowered
  split
  · exact plain_postFolded _ _
  · exact hB.postTrue _

theorem plain_postHandle (hB : B.InScope c S) {t : Term α} (ht : S.Covers c.workspace t) :
    Plain c S (postHandle B c t) := by
  rw [postHandle_eq]
  exact (scoped_translate hB ht).plain.second (plain_postLowered hB t)

theorem plain_postComparisonOf (hB : B.InScope c S) (r : Comparison) {ts : List (Term α)}
    (hts : ∀ t ∈ ts, S.Covers c.workspace t) (t : Term α) : Plain c S (postComparisonOf B c r ts t) := by
  have ho := inScope_operandsOf hts fun t hm => scoped_translate hB (hts t hm)
  refine (scoped_lowerNth ho 0).plain.second fun x => (scoped_lowerNth ho 1).plain.second fun y => ?_
  split
  · exact plain_postFolded _ _
  · exact hB.postComparison _ _ _

/-- Posting a constraint; of a conjunction, each part is posted. -/
theorem plain_post (hB : B.InScope c S) {t : Term α} (ht : S.Covers c.workspace t) :
    Plain c S (post B c t) := by
  induction t using Term.induction with
  | const x => exact plain_postHandle hB ht
  | var v => exact plain_postHandle hB ht
  | selected id f i => exact plain_postHandle hB ht
  | node id op ts ih =>
    have hts {u : Term α} (hu : u ∈ ts) : S.Covers c.workspace u := ht.within (.of_mem hu)
    unfold post
    split
    · exact scoped_fail trivial
    · exact scoped_ite (ih _ List.mem_cons_self (hts List.mem_cons_self)) (plain_postHandle hB ht)
    · rw [postAll_eq_forM]
      exact plain_forM fun u hu => ih u hu (hts hu)
    · exact plain_postComparisonOf hB _ (fun _ => hts) _
    · exact plain_postHandle hB ht

end Backend

end DecisionModel
