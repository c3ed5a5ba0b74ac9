import Mathlib.Data.List.Forall2
import DecisionModel.Lowering.Walk
import DecisionModel.Proofs.InStep
import DecisionModel.Proofs.Lowering.Memo

/-!
# The walk does not read its log

Lowering writes a log, and what it writes there depends on the configuration. Nothing else does:
`SameBut view` relates states that are the same but for the log and for what `view` leaves out of the
solver's part, and lowering the same model under any two configurations goes in step for it
(`Backend.inStep_translate`, `Backend.inStep_post`, `Backend.inStep_lowerModel`), if the operations of
the back-end are in step with themselves (`Backend.Steady`). The cases are those of the walk.
-/

namespace DecisionModel

variable {α ν σ β γ : Type}

/-- The states are the same but for their logs and for what the view of the solver's part leaves out. -/
structure SameBut (view : σ → σ) (s s' : LoweringState ν σ) : Prop where
  handles : s'.handles = s.handles
  memo : s'.memo = s.memo
  nextHandle : s'.nextHandle = s.nextHandle
  auxiliaries : s'.auxiliaries = s.auxiliaries
  violated : s'.violated = s.violated
  lowered : s'.lowered = s.lowered
  solver : view s'.solver = view s.solver

variable {view : σ → σ}

instance : IsEquiv (LoweringState ν σ) (SameBut view) where
  refl _ := ⟨rfl, rfl, rfl, rfl, rfl, rfl, rfl⟩
  symm _ _ h := ⟨h.handles.symm, h.memo.symm, h.nextHandle.symm, h.auxiliaries.symm, h.violated.symm,
    h.lowered.symm, h.solver.symm⟩
  trans _ _ _ h h' := ⟨h'.handles.trans h.handles, h'.memo.trans h.memo,
    h'.nextHandle.trans h.nextHandle, h'.auxiliaries.trans h.auxiliaries,
    h'.violated.trans h.violated, h'.lowered.trans h.lowered, h'.solver.trans h.solver⟩

/-- A line of the log is not seen. -/
theorem unseen_line {ε : Type} (line : String) : Unseen (SameBut view) (modify fun s =>
    { s with log := s.log ++ [line] } : ExceptT ε (StateM (LoweringState ν σ)) PUnit) :=
  unseen_modify fun s => { keeps_refl (R := SameBut view) s with }

/-- The same model under another configuration. -/
abbrev Context.under (c : Context α) (k : Config α) : Context α := { c with config := k }

namespace LowerM

/-! ### The primitives of lowering -/

theorem inStep_lift (r : Except Fault β) :
    InStep (SameBut view) (lift r : LowerM α ν σ β) (lift r) := by
  cases r with
  | ok x => exact inStep_pure x
  | error f => exact inStep_throw _

theorem inStep_fail (e : LoweringError α) :
    InStep (SameBut view) (fail e : LowerM α ν σ β) (fail e) := inStep_throw e

/-- A look at the solver's part, which differs only in what the view leaves out. -/
theorem inStep_lookSolver {f f' : σ → LowerM α ν σ β}
    (hf : ∀ t t', view t' = view t → InStep (SameBut view) (f t) (f' t')) :
    InStep (SameBut view) (getSolver >>= f) (getSolver >>= f') :=
  inStep_look fun s s' h => hf s.solver s'.solver h.solver

theorem inStep_modifySolver {f f' : σ → σ} (hf : ∀ t t', view t' = view t → view (f' t') = view (f t)) :
    InStep (SameBut view) (modifySolver f : LowerM α ν σ Unit) (modifySolver f') :=
  inStep_modify fun _ _ h => { h with solver := hf _ _ h.solver }

/-- A change that the view commutes with. -/
theorem inStep_modifySolver_of_comm {f : σ → σ} (hf : ∀ t, view (f t) = f (view t)) :
    InStep (SameBut view) (modifySolver f : LowerM α ν σ Unit) (modifySolver f) :=
  inStep_modifySolver fun t t' h => by rw [hf, hf, h]

theorem inStep_freshHandle :
    InStep (SameBut view) (freshHandle : LowerM α ν σ HandleId) freshHandle := by
  intro s s' h
  refine ⟨?_, { h with nextHandle := congrArg (· + 1) h.nextHandle }⟩
  change Except.ok (HandleId.mk s'.nextHandle) = Except.ok ⟨s.nextHandle⟩
  rw [h.nextHandle]

theorem inStep_leaf (name : String) (integral : Bool) :
    InStep (SameBut view) (leaf name integral : LowerM α ν σ (Handle ν)) (leaf name integral) :=
  inStep_bind inStep_freshHandle fun _ => inStep_pure _

theorem inStep_node (f : SolverFunction) (args : List (Handle ν)) :
    InStep (SameBut view) (node f args : LowerM α ν σ (Handle ν)) (node f args) :=
  inStep_bind inStep_freshHandle fun _ => inStep_pure _

theorem inStep_auxiliaryName (hint : String) :
    InStep (SameBut view) (auxiliaryName hint : LowerM α ν σ String) (auxiliaryName hint) := by
  intro s s' h
  refine ⟨?_, { h with auxiliaries := congrArg (· + 1) h.auxiliaries }⟩
  change Except.ok (hint ++ "#" ++ toString (s'.auxiliaries + 1)) =
    Except.ok (hint ++ "#" ++ toString (s.auxiliaries + 1))
  rw [h.auxiliaries]

/-- The line is made under both configurations, so it fails under both or under none. -/
theorem inStep_log (k k' : Config α) (level : Int) (line : Except Fault String) :
    InStep (SameBut view) (log k level line : LowerM α ν σ Unit) (log k' level line) := by
  refine inStep_bind (inStep_lift line) fun text => ?_
  exact inStep_of_unseen (unseen_if (unseen_line text)) (unseen_if (unseen_line text))

theorem inStep_recordViolated (text : String) :
    InStep (SameBut view) (recordViolated text : LowerM α ν σ Unit) (recordViolated text) :=
  inStep_modify fun _ _ h => { h with violated := congrArg (· ++ [text]) h.violated }

theorem inStep_binary (f : ν → ν → ν) (symbol : SolverFunction) (x y : Handle ν) :
    InStep (SameBut view) (binary f symbol x y : LowerM α ν σ (Handle ν)) (binary f symbol x y) := by
  unfold binary
  split
  · exact inStep_pure _
  · exact inStep_node _ _

theorem inStep_collection [Scalar α] (c : Context α) (k : Config α) (key : Int) :
    InStep (SameBut view) (c.collection key : LowerM α ν σ (List α)) ((c.under k).collection key) := by
  unfold Context.collection
  dsimp only
  split
  · exact inStep_lift _
  · exact inStep_fail _

variable [Numeral ν]

theorem inStep_add (x y : Handle ν) :
    InStep (SameBut view) (add x y : LowerM α ν σ (Handle ν)) (add x y) := inStep_binary _ _ x y

theorem inStep_sub (x y : Handle ν) :
    InStep (SameBut view) (sub x y : LowerM α ν σ (Handle ν)) (sub x y) := inStep_binary _ _ x y

theorem inStep_mul (x y : Handle ν) :
    InStep (SameBut view) (mul x y : LowerM α ν σ (Handle ν)) (mul x y) := inStep_binary _ _ x y

theorem inStep_neg (x : Handle ν) :
    InStep (SameBut view) (neg x : LowerM α ν σ (Handle ν)) (neg x) := by
  unfold neg
  split
  · exact inStep_pure _
  · exact inStep_node _ _

end LowerM

open LowerM

/-- The operations of the back-end do not depend on what the view leaves out, nor on the configuration. -/
structure Backend.Steady (B : Backend α ν σ) (view : σ → σ) : Prop where
  constant (x : α) : InStep (SameBut view) (B.constant x) (B.constant x)
  constant? (x : α) : InStep (SameBut view) (B.constant? x) (B.constant? x)
  negate (h : Handle ν) : InStep (SameBut view) (B.negate h) (B.negate h)
  add (x y : Handle ν) : InStep (SameBut view) (B.add x y) (B.add x y)
  subtract (x y : Handle ν) : InStep (SameBut view) (B.subtract x y) (B.subtract x y)
  multiply (x y : Handle ν) : InStep (SameBut view) (B.multiply x y) (B.multiply x y)
  divide (x y : Handle ν) : InStep (SameBut view) (B.divide x y) (B.divide x y)
  power (x y : Handle ν) : InStep (SameBut view) (B.power x y) (B.power x y)
  absolute (h : Handle ν) : InStep (SameBut view) (B.absolute h) (B.absolute h)
  minimum (hs : List (Handle ν)) : InStep (SameBut view) (B.minimum hs) (B.minimum hs)
  maximum (hs : List (Handle ν)) : InStep (SameBut view) (B.maximum hs) (B.maximum hs)
  reify (c : Comparison) (x y : Handle ν) : InStep (SameBut view) (B.reify c x y) (B.reify c x y)
  complement (h : Handle ν) : InStep (SameBut view) (B.complement h) (B.complement h)
  conjoin (hs : List (Handle ν)) : InStep (SameBut view) (B.conjoin hs) (B.conjoin hs)
  disjoin (hs : List (Handle ν)) : InStep (SameBut view) (B.disjoin hs) (B.disjoin hs)
  conditional (c t e : Handle ν) : InStep (SameBut view) (B.conditional c t e) (B.conditional c t e)
  firstMatch (cs vs : List (Handle ν)) (h : Handle ν) :
    InStep (SameBut view) (B.firstMatch cs vs h) (B.firstMatch cs vs h)
  membership (h : Handle ν) (hs : List (Option (Handle ν))) :
    InStep (SameBut view) (B.membership h hs) (B.membership h hs)
  lookup (h : Handle ν) (entries : List (Int × Handle ν)) :
    InStep (SameBut view) (B.lookup h entries) (B.lookup h entries)
  keyedMembership? (c : Context α) (k : Config α) (key : Handle ν) (keys : List Int) (v : VarId) :
    Option.Rel (InStep (SameBut view)) (B.keyedMembership? c key keys v)
      (B.keyedMembership? (c.under k) key keys v)
  createVariable (d : Variable α) :
    InStep (SameBut view) (B.createVariable d) (B.createVariable d)
  createSequence (name : String) (members : List String) :
    InStep (SameBut view) (B.createSequence name members) (B.createSequence name members)
  newInteger (lower upper : Int) (hint : String) :
    InStep (SameBut view) (B.newInteger lower upper hint) (B.newInteger lower upper hint)
  postEqual (x y : Handle ν) : InStep (SameBut view) (B.postEqual x y) (B.postEqual x y)
  postComparison (c : Comparison) (x y : Handle ν) :
    InStep (SameBut view) (B.postComparison c x y) (B.postComparison c x y)
  postTrue (h : Handle ν) : InStep (SameBut view) (B.postTrue h) (B.postTrue h)
  postDefinition (name : String) (x h : Handle ν) :
    InStep (SameBut view) (B.postDefinition name x h) (B.postDefinition name x h)
  postObjective (sense : Sense) (h : Handle ν) :
    InStep (SameBut view) (B.postObjective sense h) (B.postObjective sense h)

/-- Operands of the two walks: the same term, lowered in step. -/
structure Operand.Steady (view : σ → σ) (o o' : Operand α ν σ) : Prop where
  term : o'.term = o.term
  lower : InStep (SameBut view) o.lower o'.lower

namespace Backend

/-! ### Keys and collected values -/

variable [Scalar α] {c : Context α} {k : Config α}

theorem inStep_keysWithin (key : Term α) (lower upper : α) :
    InStep (SameBut view) (keysWithin c key lower upper : LowerM α ν σ (Int × Int))
      (keysWithin (c.under k) key lower upper) := by
  refine inStep_bind (inStep_lift _) fun first => inStep_bind (inStep_lift _) fun last => ?_
  dsimp only
  exact inStep_whenAfter (inStep_lift _) (fun _ => inStep_fail _) (inStep_pure _)

theorem inStep_variableKeys (v : VarId) :
    InStep (SameBut view) (variableKeys c v : LowerM α ν σ (Int × Int))
      (variableKeys (c.under k) v) := by
  unfold variableKeys
  dsimp only
  split
  · exact inStep_keysWithin _ _ _
  · exact inStep_fail _

theorem inStep_selectedKeys (id : NodeId) (f : FamilyId) (i : VarId) :
    InStep (SameBut view) (selectedKeys c id f i : LowerM α ν σ (Int × Int))
      (selectedKeys (c.under k) id f i) := by
  unfold selectedKeys
  dsimp only
  split
  · exact inStep_fail _
  · exact inStep_keysWithin _ _ _

omit [Scalar α] in
theorem inStep_keyOf (t : Term α) :
    InStep (SameBut view) (keyOf c t : LowerM α ν σ (Except Fault (Term α)))
      (keyOf (c.under k) t) := by
  unfold keyOf
  split
  · exact inStep_pure _
  · exact inStep_pure _
  · exact inStep_fail _
  · exact inStep_fail _

theorem inStep_aggregateValue (name : String) (xs : List α) (key : Int) :
    InStep (SameBut view) (aggregateValue name xs key : LowerM α ν σ α)
      (aggregateValue name xs key) := by
  unfold aggregateValue
  split
  · exact inStep_pure _
  · exact inStep_lift _
  · exact inStep_fail _
  · exact inStep_bind (inStep_lift _) fun _ => inStep_pure _
  · exact inStep_pure _
  · exact inStep_pure _

theorem inStep_postFolded (isTrue : Bool) (t : Term α) :
    InStep (SameBut view) (postFolded c isTrue t : LowerM α ν σ Unit)
      (postFolded (c.under k) isTrue t) := by
  refine inStep_ite ?_ (inStep_pure _)
  refine inStep_bind (inStep_lift _) fun text => ?_
  exact inStep_bind (inStep_recordViolated _) fun _ => inStep_log _ _ _ _

/-! ### Collections -/

variable [Numeral ν] {B : Backend α ν σ}

omit [Scalar α] in
theorem inStep_element (hB : B.Steady view) (index : Handle ν) (entries : List (Int × Handle ν)) :
    InStep (SameBut view) (B.element index entries) (B.element index entries) := by
  unfold Backend.element
  split
  · refine inStep_bind (inStep_lift _) fun position => ?_
    split
    · exact inStep_pure _
    · split
      · exact inStep_fail _
      · exact inStep_fail _
  · exact hB.lookup _ _

omit [Scalar α] [Numeral ν] in
theorem inStep_variableHandle (v : VarId) :
    InStep (SameBut view) (variableHandle c v : LowerM α ν σ (Handle ν))
      (variableHandle (c.under k) v) := by
  refine inStep_look fun s s' h => ?_
  rw [h.handles]
  split
  · exact inStep_pure _
  · exact inStep_fail _

omit [Numeral ν] in
theorem inStep_assumedHandle (v : VarId) :
    InStep (SameBut view) (assumedHandle c v : LowerM α ν σ (Handle ν))
      (assumedHandle (c.under k) v) := by
  refine inStep_look fun s s' h => ?_
  rw [h.handles]
  split
  · exact inStep_pure _
  · exact inStep_bind (inStep_lift _) fun _ => inStep_fail _

omit [Scalar α] [Numeral ν] in
/-- The memo is asked first, which has the same entries. -/
theorem inStep_memoized {id : NodeId} {run run' : LowerM α ν σ (Handle ν)}
    (h : InStep (SameBut view) run run') :
    InStep (SameBut view) (memoized id run) (memoized id run') := by
  refine inStep_look fun s s' hs => ?_
  rw [hs.memo]
  split
  · exact inStep_pure _
  · refine inStep_bind h fun x => inStep_bind (inStep_modify fun s s' hs => ?_) fun _ => inStep_pure _
    exact { hs with memo := congrArg ((id, x) :: ·) hs.memo }

theorem inStep_lowerSelected (hB : B.Steady view) (f : FamilyId) (i : VarId) :
    InStep (SameBut view) (lowerSelected B c f i) (lowerSelected B (c.under k) f i) := by
  refine inStep_bind (inStep_mapM fun v _ => inStep_assumedHandle v) fun members => ?_
  refine inStep_when ?_ (inStep_bind (inStep_variableHandle i) fun index => ?_)
  · exact inStep_fail _
  · exact inStep_element hB _ _

theorem inStep_keyDomain (hB : B.Steady view) (key : Term α) :
    InStep (SameBut view) (keyDomain B c key) (keyDomain B (c.under k) key) := by
  unfold keyDomain
  dsimp only
  refine inStep_whenAfter (inStep_lift _) (fun _ => inStep_fail _) ?_
  split
  · refine inStep_bind (inStep_variableKeys _) fun keys => ?_
    exact inStep_bind (inStep_variableHandle _) fun _ => inStep_pure _
  · refine inStep_bind (inStep_selectedKeys _ _ _) fun keys => ?_
    refine inStep_bind (hB.newInteger _ _ _) fun h => ?_
    refine inStep_bind (inStep_memoized (inStep_lowerSelected hB _ _)) fun value => ?_
    exact inStep_bind (hB.postEqual _ _) fun _ => inStep_pure _
  · exact inStep_bind (inStep_lift _) fun _ => inStep_fail _

theorem inStep_lowerAggregate (hB : B.Steady view) (name : String) (t : Term α) :
    InStep (SameBut view) (lowerAggregate B c name t) (lowerAggregate B (c.under k) name t) := by
  refine inStep_bind (inStep_keyOf t) fun key => inStep_bind (inStep_lift _) fun key => ?_
  split
  · refine inStep_bind (inStep_lift _) fun n => inStep_bind (inStep_collection c k _) fun xs => ?_
    exact inStep_bind (inStep_aggregateValue _ _ _) fun _ => hB.constant _
  · refine inStep_bind (inStep_keyDomain hB _) fun domain => ?_
    refine inStep_bind (inStep_mapM fun n _ => ?_) fun entries => ?_
    · refine inStep_bind (inStep_collection c k _) fun xs => ?_
      refine inStep_bind (inStep_aggregateValue _ _ _) fun x => ?_
      exact inStep_bind (hB.constant _) fun _ => inStep_pure _
    · exact inStep_bind (inStep_log _ _ _ _) fun _ => inStep_element hB _ _

theorem inStep_membershipByKey (hB : B.Steady view) (key : Handle ν) (keys : List Int)
    {value value' : LowerM α ν σ (Handle ν)} (hvalue : InStep (SameBut view) value value') :
    InStep (SameBut view) (membershipByKey B c key keys value)
      (membershipByKey B (c.under k) key keys value') := by
  refine inStep_bind hvalue fun h => inStep_bind (inStep_mapM fun n _ => ?_) fun entries => ?_
  · refine inStep_bind (inStep_collection c k _) fun xs => ?_
    refine inStep_bind (inStep_mapM fun x _ => hB.constant? x) fun members => ?_
    exact inStep_bind (hB.membership _ _) fun _ => inStep_pure _
  · exact inStep_element hB _ _

theorem inStep_lowerMembership (hB : B.Steady view) {value value' : Operand α ν σ}
    (hvalue : value.Steady view value') (t : Term α) :
    InStep (SameBut view) (lowerMembership B c value t) (lowerMembership B (c.under k) value' t) := by
  unfold lowerMembership
  rw [hvalue.term]
  refine inStep_bind (inStep_keyOf t) fun key => inStep_bind (inStep_lift _) fun key => ?_
  split
  · refine inStep_bind (inStep_lift _) fun n => inStep_bind (inStep_collection c k _) fun xs => ?_
    split
    · exact hB.constant _
    · refine inStep_bind hvalue.lower fun h => ?_
      exact inStep_bind (inStep_mapM fun x _ => hB.constant? x) fun _ => hB.membership _ _
  · refine inStep_bind (inStep_keyDomain hB _) fun domain => ?_
    dsimp only
    split
    · refine inStep_bind (inStep_mapM fun n _ => ?_) fun entries => inStep_element hB _ _
      refine inStep_bind (inStep_collection c k _) fun xs => ?_
      exact inStep_bind (hB.constant _) fun _ => inStep_pure _
    · rename_i v _ _
      have hencode := hB.keyedMembership? c k domain.1 domain.2 v
      generalize B.keyedMembership? c domain.1 domain.2 v = o at hencode ⊢
      generalize B.keyedMembership? (c.under k) domain.1 domain.2 v = o' at hencode ⊢
      cases hencode with
      | some h => exact h
      | none => exact inStep_membershipByKey hB _ _ hvalue.lower
    · exact inStep_membershipByKey hB _ _ hvalue.lower

omit [Scalar α] in
theorem inStep_columnOf (hB : B.Steady view) (width : Nat) (index : Handle ν) :
    InStep (SameBut view) (columnOf B width index) (columnOf B width index) := by
  unfold columnOf
  split
  · refine inStep_bind (hB.newInteger _ _ _) fun column => ?_
    exact inStep_bind (hB.postEqual _ _) fun _ => inStep_pure _
  · refine inStep_bind (inStep_lift _) fun position => inStep_when ?_ (inStep_pure _)
    exact inStep_fail _

omit [Scalar α] in
theorem inStep_flatIndex (hB : B.Steady view) (count width : Nat) (firstKey : Int)
    (key column : Handle ν) :
    InStep (SameBut view) (flatIndex B count width firstKey key column)
      (flatIndex B count width firstKey key column) := by
  refine inStep_bind (hB.newInteger _ _ _) fun flat => inStep_bind (inStep_sub _ _) fun row => ?_
  refine inStep_bind (inStep_mul _ _) fun start => inStep_bind (inStep_add _ _) fun sum => ?_
  refine inStep_bind (inStep_sub _ _) fun position => ?_
  exact inStep_bind (hB.postEqual _ _) fun _ => inStep_pure _

theorem inStep_entryByKey (hB : B.Steady view) (key : Handle ν) (keys : List Int)
    (index : Handle ν) :
    InStep (SameBut view) (entryByKey B c key keys index) (entryByKey B (c.under k) key keys index) := by
  refine inStep_bind (inStep_mapM fun n _ => inStep_collection c k n) fun tables => inStep_when ?_ ?_
  · exact inStep_fail _
  · refine inStep_bind (inStep_columnOf hB _ _) fun column => ?_
    refine inStep_bind (inStep_flatIndex hB _ _ _ _ _) fun flat => ?_
    refine inStep_bind (inStep_mapM fun table _ => ?_) fun tables => hB.lookup _ _
    exact inStep_mapM fun x _ => hB.constant x

theorem inStep_lowerEntry (hB : B.Steady view) (t : Term α) {index index' : LowerM α ν σ (Handle ν)}
    (hindex : InStep (SameBut view) index index') :
    InStep (SameBut view) (lowerEntry B c t index) (lowerEntry B (c.under k) t index') := by
  refine inStep_bind (inStep_keyOf t) fun key => inStep_bind hindex fun h => ?_
  refine inStep_bind (inStep_lift _) fun key => ?_
  split
  · refine inStep_bind (inStep_lift _) fun n => inStep_bind (inStep_collection c k _) fun xs => ?_
    refine inStep_when ?_ ?_
    · exact inStep_fail _
    · exact inStep_bind (inStep_mapM fun x _ => hB.constant x) fun _ => inStep_element hB _ _
  · exact inStep_bind (inStep_keyDomain hB _) fun _ => inStep_entryByKey hB _ _ _

/-! ### Terms -/

section

variable {operands operands' : List (Operand α ν σ)}
  (ho : List.Forall₂ (Operand.Steady view) operands operands')

omit [Scalar α] [Numeral ν] in
include ho in
/-- A step with the operand at a position, if there is one. -/
theorem inStep_withNth (position : Nat) {f f' : Operand α ν σ → LowerM α ν σ β}
    (hf : ∀ o o', Operand.Steady view o o' → InStep (SameBut view) (f o) (f' o')) :
    InStep (SameBut view) (Operand.nth operands position >>= f)
      (Operand.nth operands' position >>= f') := by
  induction ho generalizing position with
  | nil => exact inStep_fail _
  | cons h _ ih =>
    cases position with
    | zero => exact hf _ _ h
    | succ position => exact ih position

omit [Scalar α] [Numeral ν] in
include ho in
theorem inStep_lowerNth (position : Nat) :
    InStep (SameBut view) (Operand.lowerNth operands position) (Operand.lowerNth operands' position) :=
  inStep_withNth ho position fun _ _ h => h.lower

omit [Scalar α] [Numeral ν] in
include ho in
theorem inStep_lowerAll : InStep (SameBut view) (lowerAll operands) (lowerAll operands') := by
  unfold lowerAll
  induction ho with
  | nil => exact inStep_pure _
  | cons h _ ih =>
    rw [List.mapM_cons, List.mapM_cons]
    exact inStep_bind h.lower fun _ => inStep_bind ih fun _ => inStep_pure _

omit [Scalar α] [Numeral ν] in
include ho in
theorem inStep_chain {f : Handle ν → Handle ν → LowerM α ν σ (Handle ν)}
    (hf : ∀ x y, InStep (SameBut view) (f x y) (f x y)) :
    InStep (SameBut view) (chain f operands) (chain f operands') := by
  unfold chain
  cases ho with
  | nil => exact inStep_fail _
  | cons h hrest =>
    refine inStep_bind h.lower fun x => ?_
    induction hrest generalizing x with
    | nil => exact inStep_pure _
    | cons h _ ih =>
      rw [List.foldlM_cons, List.foldlM_cons]
      exact inStep_bind (inStep_bind h.lower fun _ => hf _ _) ih

include ho in
theorem inStep_lowerInline (hB : B.Steady view) (name : String) :
    InStep (SameBut view) (lowerInline B name operands) (lowerInline B name operands') := by
  have hnth := inStep_lowerNth ho
  have hempty : operands'.isEmpty = operands.isEmpty := by cases ho <;> rfl
  have htail : List.Forall₂ (Operand.Steady view) operands.tail operands'.tail := by
    cases ho with
    | nil => exact .nil
    | cons _ h => exact h
  unfold lowerInline
  rw [ho.length_eq, hempty]
  split
  · exact hB.constant _
  · exact inStep_ite (hB.constant _) (inStep_chain ho hB.add)
  · refine inStep_bind (inStep_chain ho hB.add) fun total => ?_
    exact inStep_bind (hB.constant _) fun _ => hB.divide _ _
  · exact inStep_bind (inStep_lowerAll ho) fun _ => hB.minimum _
  · exact inStep_bind (inStep_lowerAll ho) fun _ => hB.maximum _
  · exact inStep_bind (hnth 0) fun _ => hB.absolute _
  · exact inStep_bind (hnth 0) fun _ => inStep_bind (hnth 1) fun _ => hB.power _ _
  · refine inStep_bind (hnth 0) fun _ => inStep_bind (hnth 1) fun _ => ?_
    exact inStep_bind (hnth 2) fun _ => hB.conditional _ _ _
  · refine inStep_bind (inStep_lowerAll ho) fun handles => ?_
    split
    · exact inStep_fail _
    · exact hB.firstMatch _ _ _
  · refine inStep_bind (hnth 0) fun _ => ?_
    exact inStep_bind (inStep_lowerAll htail) fun _ => hB.membership _ _
  · refine inStep_bind (hnth 0) fun _ => inStep_bind (inStep_lowerAll htail) fun _ => ?_
    exact inStep_bind (hB.membership _ _) fun _ => hB.complement _
  · refine inStep_bind (inStep_lowerAll htail) fun _ => ?_
    exact inStep_bind (hnth 0) fun _ => inStep_element hB _ _
  · exact inStep_fail _

include ho in
theorem inStep_lowerCustom (hB : B.Steady view) (name : String) :
    InStep (SameBut view) (lowerCustom B c name operands)
      (lowerCustom B (c.under k) name operands') := by
  have hsole {os os' : List (Operand α ν σ)} (h : List.Forall₂ (Operand.Steady view) os os') :
      Operand.soleCollection? os' = Operand.soleCollection? os := by
    cases h with
    | nil => rfl
    | cons h hrest =>
      cases hrest with
      | nil => simp only [Operand.soleCollection?, h.term]
      | cons => rfl
  unfold lowerCustom
  rw [hsole ho]
  dsimp only
  split
  case' h_1 => refine inStep_ite (inStep_lowerAggregate hB _ _) ?_
  all_goals
    cases ho with
    | nil => exact inStep_lowerInline .nil hB name
    | @cons o o' os os' h hrest =>
      have hinline := fun name => inStep_lowerInline (.cons h hrest) hB name
      rw [List.tail_cons, List.tail_cons, hsole hrest]
      cases Operand.soleCollection? os with
      | none => exact hinline name
      | some container =>
        dsimp only
        split
        · exact inStep_lowerMembership hB h _
        · exact inStep_bind (inStep_lowerMembership hB h _) fun _ => hB.complement _
        · exact inStep_lowerEntry hB _ h.lower
        · exact hinline _

theorem inStep_lowerComparison (hB : B.Steady view) (r : Comparison) (x y : Handle ν) :
    InStep (SameBut view) (lowerComparison B r x y) (lowerComparison B r x y) := by
  unfold lowerComparison
  split
  · exact hB.constant _
  · exact hB.reify _ _ _

include ho in
theorem inStep_lowerNode (hB : B.Steady view) (op : Operator) (text : Unit → Except Fault String) :
    InStep (SameBut view) (lowerNode B c op text operands)
      (lowerNode B (c.under k) op text operands') := by
  have hnth := inStep_lowerNth ho
  cases op with
  | wrapper => exact hnth 0
  | negation => exact inStep_bind (hnth 0) fun _ => hB.negate _
  | sum => exact inStep_chain ho hB.add
  | difference => exact inStep_chain ho hB.subtract
  | product => exact inStep_chain ho hB.multiply
  | quotient => exact inStep_chain ho hB.divide
  | comparison r =>
    exact inStep_bind (hnth 0) fun _ => inStep_bind (hnth 1) fun _ => inStep_lowerComparison hB _ _ _
  | complement => exact inStep_bind (hnth 0) fun _ => hB.complement _
  | conjunction => exact inStep_bind (inStep_lowerAll ho) fun _ => hB.conjoin _
  | disjunction => exact inStep_bind (inStep_lowerAll ho) fun _ => hB.disjoin _
  | entry =>
    refine inStep_withNth ho 0 fun o o' h => inStep_withNth ho 1 fun i i' hindex => ?_
    rw [h.term]
    exact inStep_lowerEntry hB _ hindex.lower
  | custom name => exact inStep_lowerCustom ho hB name
  | collection => exact inStep_bind (inStep_lift _) fun _ => inStep_fail _

end

theorem steady_operandsOf {ts : List (Term α)}
    (h : ∀ t ∈ ts, InStep (SameBut view) (translate B c t) (translate B (c.under k) t)) :
    List.Forall₂ (Operand.Steady view) (operandsOf B c ts) (operandsOf B (c.under k) ts) := by
  induction ts with
  | nil => exact .nil
  | cons t ts ih =>
    rw [operandsOf, operandsOf]
    exact .cons ⟨rfl, h t List.mem_cons_self⟩ (ih fun u hu => h u (List.mem_cons_of_mem t hu))

/-- Lowering a term, node by node. -/
theorem inStep_translate (hB : B.Steady view) (t : Term α) :
    InStep (SameBut view) (translate B c t) (translate B (c.under k) t) := by
  induction t using Term.induction with
  | const x => exact hB.constant x
  | var v => exact inStep_variableHandle v
  | selected id f i => exact inStep_memoized (inStep_lowerSelected hB f i)
  | node id op ts ih =>
    rw [translate, translate]
    exact inStep_memoized (inStep_lowerNode (steady_operandsOf ih) hB op _)

/-! ### Constraints and models -/

theorem inStep_postHandle (hB : B.Steady view) (t : Term α) :
    InStep (SameBut view) (postHandle B c t) (postHandle B (c.under k) t) := by
  refine inStep_bind (inStep_translate hB t) fun h => ?_
  split
  · exact inStep_postFolded _ _
  · exact hB.postTrue _

theorem inStep_postComparisonOf (hB : B.Steady view) (r : Comparison) (ts : List (Term α))
    (t : Term α) :
    InStep (SameBut view) (postComparisonOf B c r ts t) (postComparisonOf B (c.under k) r ts t) := by
  have ho : List.Forall₂ (Operand.Steady view) (operandsOf B c ts) (operandsOf B (c.under k) ts) :=
    steady_operandsOf fun t _ => inStep_translate hB t
  refine inStep_bind (inStep_lowerNth ho 0) fun x => inStep_bind (inStep_lowerNth ho 1) fun y => ?_
  split
  · exact inStep_postFolded _ _
  · exact hB.postComparison _ _ _

/-- Posting a constraint; of a conjunction, each part is posted. -/
theorem inStep_post (hB : B.Steady view) (t : Term α) :
    InStep (SameBut view) (post B c t) (post B (c.under k) t) := by
  induction t using Term.induction with
  | const x => exact inStep_postHandle hB _
  | var v => exact inStep_postHandle hB _
  | selected id f i => exact inStep_postHandle hB _
  | node id op ts ih =>
    unfold post
    split
    · exact inStep_fail _
    · exact inStep_ite (ih _ List.mem_cons_self) (inStep_postHandle hB _)
    · rw [postAll_eq_forM, postAll_eq_forM]
      exact inStep_forM ih
    · exact inStep_postComparisonOf hB _ _ _
    · exact inStep_postHandle hB _

theorem inStep_translateInput (hB : B.Steady view) (x : Input α) :
    InStep (SameBut view) (translateInput B c x) (translateInput B (c.under k) x) := by
  unfold translateInput
  split
  · exact inStep_translate hB _
  · exact hB.constant _
  · exact inStep_fail _
  · exact inStep_fail _

theorem inStep_postInput (hB : B.Steady view) (x : Input α) :
    InStep (SameBut view) (postInput B c x) (postInput B (c.under k) x) := by
  unfold postInput
  split
  · exact inStep_post hB _
  · exact inStep_fail _

omit [Scalar α] [Numeral ν] in
theorem inStep_enterHandle (v : VarId) (h : Handle ν) :
    InStep (SameBut view) (enterHandle v h : LowerM α ν σ Unit) (enterHandle v h) :=
  inStep_modify fun _ _ hs => { hs with handles := congrArg (· ++ [(v, h)]) hs.handles }

omit [Scalar α] [Numeral ν] in
theorem inStep_createVariableOf (hB : B.Steady view) (v : VarId) :
    InStep (SameBut view) (createVariableOf B c v) (createVariableOf B (c.under k) v) := by
  unfold createVariableOf
  dsimp only
  split
  · exact inStep_bind (hB.createVariable _) fun _ => inStep_enterHandle _ _
  · exact inStep_pure _

omit [Scalar α] [Numeral ν] in
theorem inStep_createSequenceOf (hB : B.Steady view) (q : SequenceId) :
    InStep (SameBut view) (createSequenceOf B c q) (createSequenceOf B (c.under k) q) := by
  refine inStep_bind (hB.createSequence _ _) fun handles => ?_
  exact inStep_bind (inStep_forM fun p _ => inStep_enterHandle _ _) fun _ => inStep_log _ _ _ _

theorem inStep_postDefinitionOf (hB : B.Steady view) (v : VarId) :
    InStep (SameBut view) (postDefinitionOf B c v) (postDefinitionOf B (c.under k) v) := by
  unfold postDefinitionOf
  dsimp only
  split
  · refine inStep_bind (inStep_translate hB _) fun h => ?_
    refine inStep_bind (inStep_assumedHandle v) fun x => ?_
    exact inStep_bind (hB.postDefinition _ _ _) fun _ => inStep_log _ _ _ _
  · exact inStep_pure _

/-- Lowering a whole model, wherever it stops. -/
theorem inStep_lowerModel (hB : B.Steady view) :
    InStep (SameBut view) (lowerModel B c) (lowerModel B (c.under k)) := by
  refine inStep_look fun s s' h => ?_
  rw [h.lowered]
  refine inStep_when (inStep_fail _) (inStep_bind (inStep_modify fun _ _ h => ?_) fun _ => ?_)
  · exact { h with lowered := rfl }
  dsimp only
  split
  · refine inStep_bind (inStep_forM fun q _ => inStep_createSequenceOf hB q) fun _ => ?_
    refine inStep_bind (inStep_forM fun v _ => inStep_createVariableOf hB v) fun _ => ?_
    refine inStep_bind (inStep_forM fun v _ => inStep_createVariableOf hB v) fun _ => ?_
    refine inStep_bind (inStep_forM fun v _ => inStep_postDefinitionOf hB v) fun _ => ?_
    refine inStep_bind (inStep_forM fun t _ => ?_) fun _ => ?_
    · exact inStep_bind (inStep_post hB t) fun _ => inStep_log _ _ _ _
    have hsummary {text : LoweringState ν σ → String}
        (htext : ∀ s s', SameBut view s s' → text s' = text s) : InStep (SameBut view)
        (do log c.config 1 (.ok (text (← get))) : LowerM α ν σ Unit)
        (do log k 1 (.ok (text (← get)))) := inStep_look fun s s' h => by
      rw [htext s s' h]
      exact inStep_log _ _ _ _
    split
    · refine inStep_bind (inStep_translate hB _) fun h => inStep_bind (hB.postObjective _ h) fun _ => ?_
      refine inStep_bind (inStep_log _ _ _ _) fun _ => hsummary fun s s' h => ?_
      rw [h.handles]
    · refine hsummary fun s s' h => ?_
      rw [h.handles]
  · exact inStep_pure _

end Backend

end DecisionModel
