import DecisionModel.Lowering.Walk
import DecisionModel.Proofs.Keeps
import DecisionModel.Proofs.Lowering.Run
import DecisionModel.Proofs.Term.WellBuilt

/-!
# What the walk over a model leaves as it is

A node is lowered once, because its handle is entered in the memo and found there the next time
(`runs_translate_of_memo?`). That this stays so needs that nothing overwrites or drops an entry, also
where lowering fails halfway. `Remembers` says so of two states; the walk keeps it if the operations of
the back-end do not touch the memo at all (`keeps_translate`, `keeps_post`, `keeps_lowerModel`).

The walk is treated for any relation between states that it does not affect (`Unaffected`, and `Entered`
where variables are created), so that a back-end can follow tables of its own through it as well. Where lowering
the terms concerned keeps the relation (`KeepsWithin`), so does posting them. It keeps one that holds
across all entries of the memo (`Visited`), or else across those that are made for the terms (`Enters`).
-/

namespace DecisionModel

variable {α ν σ β γ : Type}

/-! ### States -/

/-- The handle of a node that was lowered. -/
def LoweringState.memo? (s : LoweringState ν σ) (id : NodeId) : Option (Handle ν) :=
  (s.memo.find? (·.1 = id)).map (·.2)

/-- The identity under which the handle of a term is kept. -/
def Term.identity? : Term α → Option NodeId
  | .selected id _ _ => some id
  | .node id _ _ => some id
  | _ => none

/-- The state with more handles of variables. -/
def LoweringState.enter (s : LoweringState ν σ) (entries : List (VarId × Handle ν)) :
    LoweringState ν σ := { s with handles := s.handles ++ entries }

/-- Every entry of the memo is found later on. -/
def Remembers (s s' : LoweringState ν σ) : Prop :=
  ∀ id h, s.memo? id = some h → s'.memo? id = some h

/-- A relation between states that holds across new handles, new names and reports. -/
class Unaffected (R : LoweringState ν σ → LoweringState ν σ → Prop) : Prop extends
    IsPreorder (LoweringState ν σ) R where
  next (s : LoweringState ν σ) : R s { s with nextHandle := s.nextHandle + 1 }
  auxiliaries (s : LoweringState ν σ) : R s { s with auxiliaries := s.auxiliaries + 1 }
  violated (s : LoweringState ν σ) (texts : List String) : R s { s with violated := texts }
  log (s : LoweringState ν σ) (lines : List String) : R s { s with log := lines }

/-- A relation that holds across the entries of the memo. It gets an entry for a node that had none when
its lowering began. -/
class Visited (R : LoweringState ν σ → LoweringState ν σ → Prop) : Prop extends Unaffected R where
  memo {s s₁ : LoweringState ν σ} {id : NodeId} (h : Handle ν) : s.memo? id = none → R s s₁ →
    R s { s₁ with memo := (id, h) :: s₁.memo }

/-- A relation that holds across the entries for variables. -/
class Entered (R : LoweringState ν σ → LoweringState ν σ → Prop) : Prop extends Unaffected R where
  handles (s : LoweringState ν σ) (hs : List (VarId × Handle ν)) : R s { s with handles := hs }
  lowered (s : LoweringState ν σ) : R s { s with lowered := true }

/-- A relation that holds across all entries that the walk makes. -/
class Traversed (R : LoweringState ν σ → LoweringState ν σ → Prop) : Prop extends Visited R, Entered R

theorem memo?_cons (s : LoweringState ν σ) (id id' : NodeId) (h : Handle ν) :
    ({ s with memo := (id, h) :: s.memo } : LoweringState ν σ).memo? id' =
      if id = id' then some h else s.memo? id' := by
  by_cases hid : id = id' <;> simp [LoweringState.memo?, hid]

theorem memo?_eq_none {s : LoweringState ν σ} {id : NodeId} :
    s.memo? id = none ↔ ∀ e ∈ s.memo, e.1 ≠ id := by
  simp [LoweringState.memo?]

instance : Traversed (Remembers (ν := ν) (σ := σ)) where
  refl _ _ _ h := h
  trans _ _ _ h h' id k hk := h' id k (h id k hk)
  next _ _ _ h := h
  auxiliaries _ _ _ h := h
  violated _ _ _ _ h := h
  log _ _ _ _ h := h
  handles _ _ _ _ h := h
  lowered _ _ _ h := h
  memo {s s₁ id} h hnone hs id' k hk := by
    have hne : id ≠ id' := by
      rintro rfl
      cases hnone.symm.trans hk
    rw [memo?_cons, if_neg hne]
    exact hs id' k hk

/-- What holds of the memo is not lost. -/
def Upholds (J : List (NodeId × Handle ν) → Prop) (s s' : LoweringState ν σ) : Prop :=
  J s.memo → J s'.memo

instance (J : List (NodeId × Handle ν) → Prop) : Entered (Upholds (σ := σ) J) where
  refl _ h := h
  trans _ _ _ h h' hs := h' (h hs)
  next _ h := h
  auxiliaries _ h := h
  violated _ _ h := h
  log _ _ h := h
  handles _ _ h := h
  lowered _ h := h

variable {R : LoweringState ν σ → LoweringState ν σ → Prop}

namespace LowerM

/-! ### The primitives of lowering -/

theorem related_of_runs {m : LowerM α ν σ β} {s s' : LoweringState ν σ} {x : β} (hm : Keeps R m)
    (hr : m.Runs s x s') : R s s' := by
  have h := hm s
  rwa [show m.run.run s = (.ok x, s') from hr] at h

/-- From one state: what follows the first step may use what that step returned. The relation is to
a state `s₀` that may be earlier still. -/
theorem related_bind {m : LowerM α ν σ β} {f : β → LowerM α ν σ γ} {s₀ s : LoweringState ν σ}
    (hm : R s₀ (m.run.run s).2)
    (hf : ∀ x s₁, m.Runs s x s₁ → R s₀ s₁ → R s₀ ((f x).run.run s₁).2) :
    R s₀ ((m >>= f).run.run s).2 := by
  rw [ExceptT.run_bind, StateT.run_bind]
  rcases hrun : m.run.run s with ⟨e | x, s₁⟩ <;> rw [hrun] at hm
  · exact hm
  · exact hf x s₁ hrun hm

/-- A member of a list of steps runs between the steps before it and those after it. -/
theorem exists_run_of_mem_forM [IsPreorder (LoweringState ν σ) R] {f : β → LowerM α ν σ PUnit}
    {xs : List β} {u : PUnit} {s s' : LoweringState ν σ} (hf : ∀ x ∈ xs, Keeps R (f x))
    (hr : (xs.forM f).Runs s u s') {x : β} (hx : x ∈ xs) :
    ∃ s₁ s₂, R s s₁ ∧ (f x).Runs s₁ ⟨⟩ s₂ ∧ R s₂ s' := by
  induction xs generalizing s with
  | nil => cases hx
  | cons y ys ih =>
    obtain ⟨t, hy, hys⟩ := runs_forM_cons.mp hr
    have hrest : ∀ z ∈ ys, Keeps R (f z) := fun z hz => hf z (by simp [hz])
    rcases List.mem_cons.mp hx with rfl | hx
    · exact ⟨s, t, keeps_refl s, hy, related_of_runs (keeps_forM hrest) hys⟩
    · obtain ⟨s₁, s₂, hbefore, hrun, hafter⟩ := ih hrest hys hx
      exact ⟨s₁, s₂, keeps_trans (related_of_runs (hf y (by simp)) hy) hbefore, hrun, hafter⟩

/-- A result among those of a list of steps comes from one of them. -/
theorem exists_run_of_mem_mapM [IsPreorder (LoweringState ν σ) R] {f : β → LowerM α ν σ γ}
    {xs : List β} {ys : List γ} {s s' : LoweringState ν σ} (hf : ∀ x ∈ xs, Keeps R (f x))
    (hr : (xs.mapM f).Runs s ys s') {y : γ} (hy : y ∈ ys) :
    ∃ x ∈ xs, ∃ s₁ s₂, R s s₁ ∧ (f x).Runs s₁ y s₂ ∧ R s₂ s' := by
  induction xs generalizing s ys with
  | nil =>
    obtain ⟨rfl, -⟩ := runs_mapM_nil.mp hr
    cases hy
  | cons x xs ih =>
    obtain ⟨z, t, zs, hx, hxs, rfl⟩ := runs_mapM_cons.mp hr
    have hrest : ∀ w ∈ xs, Keeps R (f w) := fun w hw => hf w (by simp [hw])
    rcases List.mem_cons.mp hy with rfl | hy
    · exact ⟨x, by simp, s, t, keeps_refl s, hx, related_of_runs (keeps_mapM hrest) hxs⟩
    · obtain ⟨w, hw, s₁, s₂, hbefore, hrun, hafter⟩ := ih hrest hxs hy
      exact ⟨w, by simp [hw], s₁, s₂, keeps_trans (related_of_runs (hf x (by simp)) hx) hbefore, hrun,
        hafter⟩

variable [Unaffected R]

theorem keeps_lift (r : Except Fault β) : Keeps R (lift r : LowerM α ν σ β) := by
  cases r with
  | ok x => exact keeps_pure x
  | error f => exact keeps_throw _

/-- What follows a result that no fault prevented. -/
theorem keeps_lift_ok {r : Except Fault β} {f : β → LowerM α ν σ γ} (hf : ∀ x, r = .ok x → Keeps R (f x)) :
    Keeps R (lift r >>= f) := by
  cases r with
  | ok x =>
    change Keeps R (pure x >>= f)
    rw [pure_bind]
    exact hf x rfl
  | error f => exact fun s => keeps_refl s

theorem keeps_fail (e : LoweringError α) : Keeps R (fail e : LowerM α ν σ β) := keeps_throw e

theorem keeps_getSolver : Keeps R (getSolver : LowerM α ν σ σ) := keeps_look fun _ => keeps_pure _

omit [Unaffected R] in
theorem keeps_modifySolver {f : σ → σ}
    (hf : ∀ s : LoweringState ν σ, R s { s with solver := f s.solver }) :
    Keeps R (modifySolver f : LowerM α ν σ Unit) := keeps_modify hf

omit [Unaffected R] in
theorem upholds_modifySolver (J : List (NodeId × Handle ν) → Prop) (f : σ → σ) :
    Keeps (Upholds J) (modifySolver f : LowerM α ν σ Unit) := keeps_modifySolver fun _ h => h

theorem keeps_freshHandle : Keeps R (freshHandle : LowerM α ν σ HandleId) := Unaffected.next

theorem keeps_leaf (name : String) (integral : Bool) :
    Keeps R (leaf name integral : LowerM α ν σ (Handle ν)) :=
  keeps_bind keeps_freshHandle fun _ => keeps_pure _

theorem keeps_node (f : SolverFunction) (args : List (Handle ν)) :
    Keeps R (node f args : LowerM α ν σ (Handle ν)) :=
  keeps_bind keeps_freshHandle fun _ => keeps_pure _

theorem keeps_auxiliaryName (hint : String) : Keeps R (auxiliaryName hint : LowerM α ν σ String) :=
  Unaffected.auxiliaries

theorem keeps_log (config : Config α) (level : Int) (line : Except Fault String) :
    Keeps R (log config level line : LowerM α ν σ Unit) :=
  keeps_bind (keeps_lift line) fun _ =>
    keeps_ite (keeps_modify fun s => Unaffected.log s _) (keeps_pure _)

theorem keeps_recordViolated (text : String) :
    Keeps R (recordViolated text : LowerM α ν σ Unit) := keeps_modify fun s => Unaffected.violated s _

theorem keeps_binary (f : ν → ν → ν) (symbol : SolverFunction) (x y : Handle ν) :
    Keeps R (binary f symbol x y : LowerM α ν σ (Handle ν)) := by
  unfold binary
  split
  · exact keeps_pure _
  · exact keeps_node _ _

theorem keeps_collection [Scalar α] (c : Context α) (key : Int) :
    Keeps R (c.collection key : LowerM α ν σ (List α)) := by
  unfold Context.collection
  split
  · exact keeps_lift _
  · exact keeps_fail _

variable [Numeral ν]

theorem keeps_add (x y : Handle ν) : Keeps R (add x y : LowerM α ν σ (Handle ν)) :=
  keeps_binary _ _ x y

theorem keeps_sub (x y : Handle ν) : Keeps R (sub x y : LowerM α ν σ (Handle ν)) :=
  keeps_binary _ _ x y

theorem keeps_mul (x y : Handle ν) : Keeps R (mul x y : LowerM α ν σ (Handle ν)) :=
  keeps_binary _ _ x y

theorem keeps_neg (x : Handle ν) : Keeps R (neg x : LowerM α ν σ (Handle ν)) := by
  unfold neg
  split
  · exact keeps_pure _
  · exact keeps_node _ _

end LowerM

open LowerM

/-- The operations of the back-end that lower and post terms, whether they fail or not. -/
structure Backend.Preserves (B : Backend α ν σ) (R : LoweringState ν σ → LoweringState ν σ → Prop) :
    Prop where
  constant (x : α) : Keeps R (B.constant x)
  constant? (x : α) : Keeps R (B.constant? x)
  negate (h : Handle ν) : Keeps R (B.negate h)
  add (x y : Handle ν) : Keeps R (B.add x y)
  subtract (x y : Handle ν) : Keeps R (B.subtract x y)
  multiply (x y : Handle ν) : Keeps R (B.multiply x y)
  divide (x y : Handle ν) : Keeps R (B.divide x y)
  power (x y : Handle ν) : Keeps R (B.power x y)
  absolute (h : Handle ν) : Keeps R (B.absolute h)
  minimum (hs : List (Handle ν)) : Keeps R (B.minimum hs)
  maximum (hs : List (Handle ν)) : Keeps R (B.maximum hs)
  reify (c : Comparison) (x y : Handle ν) : Keeps R (B.reify c x y)
  complement (h : Handle ν) : Keeps R (B.complement h)
  conjoin (hs : List (Handle ν)) : Keeps R (B.conjoin hs)
  disjoin (hs : List (Handle ν)) : Keeps R (B.disjoin hs)
  conditional (c t e : Handle ν) : Keeps R (B.conditional c t e)
  firstMatch (cs vs : List (Handle ν)) (h : Handle ν) : Keeps R (B.firstMatch cs vs h)
  membership (h : Handle ν) (hs : List (Option (Handle ν))) : Keeps R (B.membership h hs)
  lookup (h : Handle ν) (entries : List (Int × Handle ν)) : Keeps R (B.lookup h entries)
  keyedMembership? {c : Context α} {key : Handle ν} {keys : List Int} {v : VarId}
    {encode : LowerM α ν σ (Handle ν)} : B.keyedMembership? c key keys v = some encode → Keeps R encode
  newInteger (lower upper : Int) (hint : String) : Keeps R (B.newInteger lower upper hint)
  postEqual (x y : Handle ν) : Keeps R (B.postEqual x y)
  postComparison (c : Comparison) (x y : Handle ν) : Keeps R (B.postComparison c x y)
  postTrue (h : Handle ν) : Keeps R (B.postTrue h)
  postDefinition (name : String) (x h : Handle ν) : Keeps R (B.postDefinition name x h)

/-- All operations of the back-end, those among them that create what the model declares. -/
structure Backend.Creates (B : Backend α ν σ) (R : LoweringState ν σ → LoweringState ν σ → Prop) :
    Prop extends B.Preserves R where
  createVariable (d : Variable α) : Keeps R (B.createVariable d)
  createSequence (name : String) (members : List String) : Keeps R (B.createSequence name members)
  postObjective (sense : Sense) (h : Handle ν) : Keeps R (B.postObjective sense h)

/-- The term is a definition, a constraint or the objective. -/
inductive Context.Contains (c : Context α) : Term α → Prop
  | definition {v : VarId} {t : Term α} : c.workspace.definition? v = some t → c.Contains t
  | constraint {model : Model α} {t : Term α} : c.workspace.findModel c.model = some model →
    t ∈ model.constraints → c.Contains t
  | objective {model : Model α} : c.workspace.findModel c.model = some model → c.Contains model.objective

namespace Backend

/-! ### Keys and collected values

These make no handle. -/

variable [Scalar α] {c : Context α}

section

variable [Unaffected R]

theorem keeps_keysWithin (c : Context α) (key : Term α) (lower upper : α) :
    Keeps R (keysWithin c key lower upper : LowerM α ν σ (Int × Int)) := by
  refine keeps_bind (keeps_lift _) fun first => keeps_bind (keeps_lift _) fun last => ?_
  dsimp only
  exact keeps_whenAfter (keeps_lift _) (fun _ => keeps_fail _) (keeps_pure _)

theorem keeps_variableKeys (c : Context α) (v : VarId) :
    Keeps R (variableKeys c v : LowerM α ν σ (Int × Int)) := by
  unfold variableKeys
  split
  · exact keeps_keysWithin _ _ _ _
  · exact keeps_fail _

theorem keeps_selectedKeys (c : Context α) (id : NodeId) (f : FamilyId) (i : VarId) :
    Keeps R (selectedKeys c id f i : LowerM α ν σ (Int × Int)) := by
  unfold selectedKeys
  split
  · exact keeps_fail _
  · exact keeps_keysWithin _ _ _ _

omit [Scalar α] in
/-- The key of a container is a term in it. -/
theorem keeps_withKey {t : Term α} {f : Except Fault (Term α) → LowerM α ν σ β}
    (hf : ∀ r, (∀ key, r = .ok key → Term.Within key t) → Keeps R (f r)) : Keeps R (keyOf c t >>= f) := by
  unfold keyOf
  split
  · rw [pure_bind]
    exact hf _ fun _ h => nomatch h
  · rw [pure_bind]
    refine hf _ fun key h => ?_
    obtain rfl := Except.ok.inj h
    exact .of_mem List.mem_cons_self
  · exact fun s => keeps_refl s
  · exact fun s => keeps_refl s

omit [Scalar α] in
theorem keeps_keyOf (c : Context α) (t : Term α) :
    Keeps R (keyOf c t : LowerM α ν σ (Except Fault (Term α))) := by
  rw [← bind_pure (keyOf c t)]
  exact keeps_withKey fun r _ => keeps_pure r

theorem keeps_aggregateValue (name : String) (xs : List α) (key : Int) :
    Keeps R (aggregateValue name xs key : LowerM α ν σ α) := by
  unfold aggregateValue
  split
  · exact keeps_pure _
  · exact keeps_lift _
  · exact keeps_fail _
  · exact keeps_bind (keeps_lift _) fun _ => keeps_pure _
  · exact keeps_pure _
  · exact keeps_pure _

theorem keeps_postFolded (isTrue : Bool) (t : Term α) :
    Keeps R (postFolded c isTrue t : LowerM α ν σ Unit) := by
  refine keeps_ite ?_ (keeps_pure _)
  refine keeps_bind (keeps_lift _) fun text => ?_
  exact keeps_bind (keeps_recordViolated _) fun _ => keeps_log _ _ _

end

/-! ### Collections -/

section

variable [Numeral ν] [Unaffected R] {B : Backend α ν σ}

omit [Scalar α] in
theorem keeps_element (hB : B.Preserves R) (index : Handle ν) (entries : List (Int × Handle ν)) :
    Keeps R (B.element index entries) := by
  unfold Backend.element
  split
  · refine keeps_bind (keeps_lift _) fun position => ?_
    split
    · exact keeps_pure _
    · split
      · exact keeps_fail _
      · exact keeps_fail _
  · exact hB.lookup _ _

omit [Scalar α] [Numeral ν] in
theorem keeps_variableHandle (c : Context α) (v : VarId) :
    Keeps R (variableHandle c v : LowerM α ν σ (Handle ν)) := by
  refine keeps_look fun s => ?_
  split
  · exact keeps_pure _
  · exact keeps_fail _

omit [Numeral ν] in
theorem keeps_assumedHandle (c : Context α) (v : VarId) :
    Keeps R (assumedHandle c v : LowerM α ν σ (Handle ν)) := by
  refine keeps_look fun s => ?_
  split
  · exact keeps_pure _
  · exact keeps_bind (keeps_lift _) fun _ => keeps_fail _

omit [Scalar α] [Numeral ν] in
/-- A lowering that is run once for each identity. What it enters for the identity of the node meets no
entry that was there before. -/
theorem keeps_memoized {id : NodeId} {run : LowerM α ν σ (Handle ν)} (h : Keeps R run)
    (henter : ∀ s k s₁, s.memo? id = none → run.Runs s k s₁ → R s s₁ →
      R s { s₁ with memo := (id, k) :: s₁.memo }) : Keeps R (memoized id run) := by
  refine keeps_get fun s => ?_
  split
  · exact keeps_refl s
  · rename_i hnone
    exact related_bind (h s) fun k s₁ hrun hs => henter s k s₁ hnone hrun hs

theorem keeps_lowerSelected (hB : B.Preserves R) (f : FamilyId) (i : VarId) :
    Keeps R (lowerSelected B c f i) := by
  refine keeps_bind (keeps_mapM fun v _ => keeps_assumedHandle c v) fun members => ?_
  refine keeps_when ?_ (keeps_bind (keeps_variableHandle c i) fun index => ?_)
  · exact keeps_fail _
  · exact keeps_element hB _ _

/-- Lowering the term, or a term in it, keeps the relation. -/
def KeepsWithin (R : LoweringState ν σ → LoweringState ν σ → Prop) (B : Backend α ν σ) (c : Context α)
    (t : Term α) : Prop := ∀ u, Term.Within u t → Keeps R (translate B c u)

omit [Unaffected R] in
theorem KeepsWithin.within {s t : Term α} (h : KeepsWithin R B c t) (hs : Term.Within s t) :
    KeepsWithin R B c s := fun u hu => h u (hu.trans hs)

omit [Unaffected R] in
theorem KeepsWithin.self {t : Term α} (h : KeepsWithin R B c t) : Keeps R (translate B c t) := h t (.refl t)

theorem keeps_keyDomain (hB : B.Preserves R) {key : Term α} (hkey : KeepsWithin R B c key) :
    Keeps R (keyDomain B c key) := by
  unfold keyDomain
  dsimp only
  refine keeps_whenAfter (keeps_lift _) (fun _ => keeps_fail _) ?_
  split
  · refine keeps_bind (keeps_variableKeys c _) fun keys => ?_
    exact keeps_bind (keeps_variableHandle c _) fun _ => keeps_pure _
  · rename_i id f i hselected
    have hvalue : Keeps R (translate B c (.selected id f i)) :=
      hkey _ (hselected ▸ Term.within_unwrapped key)
    refine keeps_bind (keeps_selectedKeys c _ _ _) fun keys => ?_
    refine keeps_bind (hB.newInteger _ _ _) fun h => ?_
    rw [translate] at hvalue
    refine keeps_bind hvalue fun value => ?_
    exact keeps_bind (hB.postEqual _ _) fun _ => keeps_pure _
  · exact keeps_bind (keeps_lift _) fun _ => keeps_fail _

theorem keeps_lowerAggregate (hB : B.Preserves R) (name : String) {t : Term α} (ht : KeepsWithin R B c t) :
    Keeps R (lowerAggregate B c name t) := by
  refine keeps_withKey fun r hr => keeps_lift_ok fun key hkey => ?_
  split
  · refine keeps_bind (keeps_lift _) fun k => keeps_bind (keeps_collection c _) fun xs => ?_
    exact keeps_bind (keeps_aggregateValue _ _ _) fun _ => hB.constant _
  · refine keeps_bind (keeps_keyDomain hB (ht.within (hr _ hkey))) fun domain => ?_
    refine keeps_bind (keeps_mapM fun k _ => ?_) fun entries => ?_
    · refine keeps_bind (keeps_collection c _) fun xs => ?_
      refine keeps_bind (keeps_aggregateValue _ _ _) fun x => ?_
      exact keeps_bind (hB.constant _) fun _ => keeps_pure _
    · exact keeps_bind (keeps_log _ _ _) fun _ => keeps_element hB _ _

theorem keeps_membershipByKey (hB : B.Preserves R) (key : Handle ν) (keys : List Int)
    {value : LowerM α ν σ (Handle ν)} (hvalue : Keeps R value) :
    Keeps R (membershipByKey B c key keys value) := by
  refine keeps_bind hvalue fun h => keeps_bind (keeps_mapM fun k _ => ?_) fun entries => ?_
  · refine keeps_bind (keeps_collection c _) fun xs => ?_
    refine keeps_bind (keeps_mapM fun x _ => hB.constant? x) fun members => ?_
    exact keeps_bind (hB.membership _ _) fun _ => keeps_pure _
  · exact keeps_element hB _ _

theorem keeps_lowerMembership (hB : B.Preserves R) {value : Operand α ν σ}
    (hvalue : Keeps R value.lower) {t : Term α} (ht : KeepsWithin R B c t) :
    Keeps R (lowerMembership B c value t) := by
  refine keeps_withKey fun r hr => keeps_lift_ok fun key hkey => ?_
  split
  · refine keeps_bind (keeps_lift _) fun k => keeps_bind (keeps_collection c _) fun xs => ?_
    split
    · exact hB.constant _
    · refine keeps_bind hvalue fun h => ?_
      exact keeps_bind (keeps_mapM fun x _ => hB.constant? x) fun _ => hB.membership _ _
  · refine keeps_bind (keeps_keyDomain hB (ht.within (hr _ hkey))) fun ⟨handle, keys⟩ => ?_
    dsimp only
    split
    · refine keeps_bind (keeps_mapM fun k _ => ?_) fun entries => keeps_element hB _ _
      refine keeps_bind (keeps_collection c _) fun xs => ?_
      exact keeps_bind (hB.constant _) fun _ => keeps_pure _
    · split
      · exact hB.keyedMembership? ‹_›
      · exact keeps_membershipByKey hB _ _ hvalue
    · exact keeps_membershipByKey hB _ _ hvalue

omit [Scalar α] in
theorem keeps_columnOf (hB : B.Preserves R) (width : Nat) (index : Handle ν) :
    Keeps R (columnOf B width index) := by
  unfold columnOf
  split
  · refine keeps_bind (hB.newInteger _ _ _) fun column => ?_
    exact keeps_bind (hB.postEqual _ _) fun _ => keeps_pure _
  · refine keeps_bind (keeps_lift _) fun position => keeps_when ?_ (keeps_pure _)
    exact keeps_fail _

omit [Scalar α] in
theorem keeps_flatIndex (hB : B.Preserves R) (count width : Nat) (firstKey : Int)
    (key column : Handle ν) : Keeps R (flatIndex B count width firstKey key column) := by
  refine keeps_bind (hB.newInteger _ _ _) fun flat => keeps_bind (keeps_sub _ _) fun row => ?_
  refine keeps_bind (keeps_mul _ _) fun start => keeps_bind (keeps_add _ _) fun sum => ?_
  refine keeps_bind (keeps_sub _ _) fun position => ?_
  exact keeps_bind (hB.postEqual _ _) fun _ => keeps_pure _

theorem keeps_entryByKey (hB : B.Preserves R) (key : Handle ν) (keys : List Int)
    (index : Handle ν) : Keeps R (entryByKey B c key keys index) := by
  refine keeps_bind (keeps_mapM fun k _ => keeps_collection c k) fun tables => keeps_when ?_ ?_
  · exact keeps_fail _
  · refine keeps_bind (keeps_columnOf hB _ _) fun column => ?_
    refine keeps_bind (keeps_flatIndex hB _ _ _ _ _) fun flat => ?_
    refine keeps_bind (keeps_mapM fun table _ => ?_) fun tables => hB.lookup _ _
    exact keeps_mapM fun x _ => hB.constant x

theorem keeps_lowerEntry (hB : B.Preserves R) {t : Term α} (ht : KeepsWithin R B c t)
    {index : LowerM α ν σ (Handle ν)} (hindex : Keeps R index) : Keeps R (lowerEntry B c t index) := by
  refine keeps_withKey fun r hr => keeps_bind hindex fun h => keeps_lift_ok fun key hkey => ?_
  split
  · refine keeps_bind (keeps_lift _) fun k => keeps_bind (keeps_collection c _) fun xs => ?_
    refine keeps_when ?_ ?_
    · exact keeps_fail _
    · exact keeps_bind (keeps_mapM fun x _ => hB.constant x) fun _ => keeps_element hB _ _
  · exact keeps_bind (keeps_keyDomain hB (ht.within (hr _ hkey))) fun _ => keeps_entryByKey hB _ _ _

/-! ### Terms -/

omit [Scalar α] [Numeral ν] in
theorem soleCollection?_eq_some {operands : List (Operand α ν σ)} {t : Term α}
    (h : Operand.soleCollection? operands = some t) :
    ∃ o, operands = [o] ∧ o.term = t ∧ t.isCollection = true := by
  unfold Operand.soleCollection? at h
  split at h
  · rename_i o
    split at h
    · cases h
      exact ⟨o, rfl, rfl, ‹_›⟩
    · cases h
  · cases h

variable {operands : List (Operand α ν σ)}

omit [Scalar α] [Numeral ν] in
/-- A step with the operand at a position, if there is one. -/
theorem keeps_withNth (position : Nat) {f : Operand α ν σ → LowerM α ν σ β}
    (hf : ∀ o ∈ operands, Keeps R (f o)) : Keeps R (Operand.nth operands position >>= f) := by
  unfold Operand.nth
  split
  · rename_i o ho
    exact hf o (List.mem_of_getElem? ho)
  · exact fun s => keeps_refl s

variable (ho : ∀ o ∈ operands, Keeps R o.lower)

omit [Scalar α] [Numeral ν] in
include ho in
theorem keeps_lowerNth (position : Nat) : Keeps R (Operand.lowerNth operands position) := by
  unfold Operand.lowerNth Operand.nth
  split
  · rename_i o hm
    exact ho o (List.mem_of_getElem? hm)
  · exact keeps_throw _

omit [Scalar α] [Numeral ν] in
include ho in
theorem keeps_lowerAll : Keeps R (lowerAll operands) := keeps_mapM ho

omit [Scalar α] [Numeral ν] in
include ho in
theorem keeps_chain {f : Handle ν → Handle ν → LowerM α ν σ (Handle ν)}
    (hf : ∀ x y, Keeps R (f x y)) : Keeps R (chain f operands) := by
  unfold chain
  split
  · exact keeps_fail _
  · refine keeps_bind (ho _ List.mem_cons_self) fun h => keeps_foldlM (fun x o hm => ?_) h
    exact keeps_bind (ho o (List.mem_cons_of_mem _ hm)) fun _ => hf _ _

include ho in
theorem keeps_lowerInline (hB : B.Preserves R) (name : String) :
    Keeps R (lowerInline B name operands) := by
  have hnth := keeps_lowerNth ho
  unfold lowerInline
  split
  · exact hB.constant _
  · exact keeps_ite (hB.constant _) (keeps_chain ho hB.add)
  · refine keeps_bind (keeps_chain ho hB.add) fun total => ?_
    exact keeps_bind (hB.constant _) fun _ => hB.divide _ _
  · exact keeps_bind (keeps_lowerAll ho) fun _ => hB.minimum _
  · exact keeps_bind (keeps_lowerAll ho) fun _ => hB.maximum _
  · exact keeps_bind (hnth 0) fun _ => hB.absolute _
  · exact keeps_bind (hnth 0) fun _ => keeps_bind (hnth 1) fun _ => hB.power _ _
  · refine keeps_bind (hnth 0) fun _ => keeps_bind (hnth 1) fun _ => ?_
    exact keeps_bind (hnth 2) fun _ => hB.conditional _ _ _
  · refine keeps_bind (keeps_lowerAll ho) fun handles => ?_
    split
    · exact keeps_fail _
    · exact hB.firstMatch _ _ _
  · refine keeps_bind (hnth 0) fun _ => ?_
    exact keeps_bind (keeps_lowerAll fun o hm => ho o (List.mem_of_mem_tail hm)) fun _ =>
      hB.membership _ _
  · refine keeps_bind (hnth 0) fun _ => ?_
    refine keeps_bind (keeps_lowerAll fun o hm => ho o (List.mem_of_mem_tail hm)) fun _ => ?_
    exact keeps_bind (hB.membership _ _) fun _ => hB.complement _
  · refine keeps_bind (keeps_lowerAll fun o hm => ho o (List.mem_of_mem_tail hm)) fun _ => ?_
    exact keeps_bind (hnth 0) fun _ => keeps_element hB _ _
  · exact keeps_fail _

variable (hw : ∀ o ∈ operands, KeepsWithin R B c o.term)

omit [Numeral ν] [Scalar α] in
/-- A container among the operands is one of their terms. -/
theorem exists_of_soleCollection {container : Term α} (h : Operand.soleCollection? operands = some container) :
    ∃ o ∈ operands, o.term = container := by
  obtain ⟨o, rfl, hterm, -⟩ := soleCollection?_eq_some h
  exact ⟨o, List.mem_singleton_self o, hterm⟩

include ho hw in
theorem keeps_lowerCustom (hB : B.Preserves R) (name : String) :
    Keeps R (lowerCustom B c name operands) := by
  have hinline := keeps_lowerInline ho hB
  have hcontainer {os : List (Operand α ν σ)} {t : Term α} (hos : ∀ o ∈ os, o ∈ operands)
      (h : Operand.soleCollection? os = some t) : KeepsWithin R B c t := by
    obtain ⟨o, ho, rfl⟩ := exists_of_soleCollection h
    exact hw o (hos o ho)
  unfold lowerCustom
  dsimp only
  split
  case' h_1 container hsole =>
    refine keeps_ite (keeps_lowerAggregate hB _ (hcontainer (fun _ => id) hsole)) ?_
  all_goals
    split
    · rename_i hsole
      have hfirst := ho _ List.mem_cons_self
      have hlast := hcontainer (fun _ => List.mem_of_mem_tail) hsole
      split
      · exact keeps_lowerMembership hB hfirst hlast
      · exact keeps_bind (keeps_lowerMembership hB hfirst hlast) fun _ => hB.complement _
      · exact keeps_lowerEntry hB hlast hfirst
      · exact hinline _
    · exact hinline _

omit [Unaffected R] in
theorem keeps_lowerComparison (hB : B.Preserves R) (k : Comparison) (x y : Handle ν) :
    Keeps R (lowerComparison B k x y) := by
  unfold lowerComparison
  split
  · exact hB.constant _
  · exact hB.reify _ _ _

include ho hw in
theorem keeps_lowerNode (hB : B.Preserves R) (op : Operator) (text : Unit → Except Fault String) :
    Keeps R (lowerNode B c op text operands) := by
  have hnth := keeps_lowerNth ho
  cases op with
  | wrapper => exact hnth 0
  | negation => exact keeps_bind (hnth 0) fun _ => hB.negate _
  | sum => exact keeps_chain ho hB.add
  | difference => exact keeps_chain ho hB.subtract
  | product => exact keeps_chain ho hB.multiply
  | quotient => exact keeps_chain ho hB.divide
  | comparison k =>
    exact keeps_bind (hnth 0) fun _ => keeps_bind (hnth 1) fun _ => keeps_lowerComparison hB _ _ _
  | complement => exact keeps_bind (hnth 0) fun _ => hB.complement _
  | conjunction => exact keeps_bind (keeps_lowerAll ho) fun _ => hB.conjoin _
  | disjunction => exact keeps_bind (keeps_lowerAll ho) fun _ => hB.disjoin _
  | entry =>
    refine keeps_withNth 0 fun container hcontainer => keeps_withNth 1 fun index hindex => ?_
    exact keeps_lowerEntry hB (hw container hcontainer) (ho index hindex)
  | custom name => exact keeps_lowerCustom ho hw hB name
  | collection => exact keeps_bind (keeps_lift _) fun _ => keeps_fail _

theorem operandsOf_eq (ts : List (Term α)) :
    operandsOf B c ts = ts.map fun t => ⟨t, translate B c t⟩ := by
  induction ts with
  | nil => rw [operandsOf, List.map_nil]
  | cons t ts ih => rw [operandsOf, ih, List.map_cons]

theorem mem_operandsOf {ts : List (Term α)} {o : Operand α ν σ} (h : o ∈ operandsOf B c ts) :
    o.term ∈ ts ∧ o.lower = translate B c o.term := by
  rw [operandsOf_eq] at h
  obtain ⟨t, ht, rfl⟩ := List.mem_map.mp h
  exact ⟨ht, rfl⟩

omit [Unaffected R] in
theorem keeps_operandsOf {ts : List (Term α)} (h : ∀ t ∈ ts, KeepsWithin R B c t) :
    ∀ o ∈ operandsOf B c ts, Keeps R o.lower := fun o ho => by
  obtain ⟨ht, hlower⟩ := mem_operandsOf ho
  rw [hlower]
  exact (h _ ht).self

/-- The relation holds across the entry that is made in the memo when the term is lowered. -/
def Enters (R : LoweringState ν σ → LoweringState ν σ → Prop) (B : Backend α ν σ) (c : Context α)
    (t : Term α) : Prop :=
  ∀ id s h s₁, t.identity? = some id → s.memo? id = none → R s s₁ →
    (translate B c t).Runs s h { s₁ with memo := (id, h) :: s₁.memo } →
      R s { s₁ with memo := (id, h) :: s₁.memo }

omit [Scalar α] [Numeral ν] in
/-- A memoized run returns what the memo has, or runs and is kept. -/
theorem runs_memoized {id : NodeId} {h : Handle ν} {s s' : LoweringState ν σ}
    {run : LowerM α ν σ (Handle ν)} :
    (memoized id run).Runs s h s' ↔ s.memo? id = some h ∧ s' = s ∨
      s.memo? id = none ∧ ∃ s₁, run.Runs s h s₁ ∧ s' = { s₁ with memo := (id, h) :: s₁.memo } := by
  simp only [memoized, runs_bind, runs_get]
  constructor
  · rintro ⟨_, _, ⟨rfl, rfl⟩, hr⟩
    split at hr
    · rename_i hfind
      obtain ⟨rfl, rfl⟩ := runs_pure.mp hr
      exact .inl ⟨hfind, rfl⟩
    · rename_i hfind
      simp only [runs_bind, runs_modify, runs_pure] at hr
      obtain ⟨_, s₁, hrun, _, _, rfl, rfl, rfl⟩ := hr
      exact .inr ⟨hfind, s₁, hrun, rfl⟩
  · rintro (⟨hfind, rfl⟩ | ⟨hfind, s₁, hrun, rfl⟩) <;> unfold LoweringState.memo? at hfind
    · exact ⟨_, _, ⟨rfl, rfl⟩, by rw [hfind]; exact runs_pure.mpr ⟨rfl, rfl⟩⟩
    · refine ⟨_, _, ⟨rfl, rfl⟩, ?_⟩
      rw [hfind]
      simp only [runs_bind, runs_modify, runs_pure]
      exact ⟨_, s₁, hrun, (), _, rfl, rfl, rfl⟩

/-- Lowering a term, node by node. -/
theorem keepsWithin_of_enters (hB : B.Preserves R) {t : Term α}
    (henter : ∀ u, Term.Within u t → Enters R B c u) : KeepsWithin R B c t := by
  -- what a memoized term enters is what its own lowering enters
  have hmemoized {u : Term α} {id : NodeId} {run : LowerM α ν σ (Handle ν)} (hu : Enters R B c u)
      (hid : u.identity? = some id) (hrun : translate B c u = memoized id run) (h : Keeps R run) :
      Keeps R (translate B c u) := by
    rw [hrun]
    refine keeps_memoized h fun s k s₁ hnone hruns hs => hu id s k s₁ hid hnone hs ?_
    rw [hrun]
    exact runs_memoized.mpr (.inr ⟨hnone, s₁, hruns, rfl⟩)
  induction t using Term.induction with
  | const x =>
    rintro _ ⟨⟩
    exact hB.constant x
  | var v =>
    rintro _ ⟨⟩
    exact keeps_variableHandle c v
  | selected id f i =>
    rintro _ ⟨⟩
    exact hmemoized (henter _ (.refl _)) rfl rfl (keeps_lowerSelected hB f i)
  | node id op ts ih =>
    have hts : ∀ t ∈ ts, KeepsWithin R B c t := fun t ht => ih t ht fun u hu => henter u (.operand ht hu)
    rintro u (_ | ⟨ht, hu⟩)
    · refine hmemoized (henter _ (.refl _)) rfl (by rw [translate]) ?_
      exact keeps_lowerNode (keeps_operandsOf hts) (fun o ho => hts _ (mem_operandsOf ho).1) hB op _
    · exact hts _ ht u hu

/-! ### Constraints and models -/

theorem keeps_postHandle (hB : B.Preserves R) {t : Term α} (ht : KeepsWithin R B c t) :
    Keeps R (postHandle B c t) := by
  refine keeps_bind ht.self fun h => ?_
  split
  · exact keeps_postFolded _ _
  · exact hB.postTrue _

theorem keeps_postComparisonOf (hB : B.Preserves R) (k : Comparison) {ts : List (Term α)}
    (hts : ∀ t ∈ ts, KeepsWithin R B c t) (t : Term α) : Keeps R (postComparisonOf B c k ts t) := by
  have hnth := keeps_lowerNth (keeps_operandsOf hts)
  refine keeps_bind (hnth 0) fun x => keeps_bind (hnth 1) fun y => ?_
  split
  · exact keeps_postFolded _ _
  · exact hB.postComparison _ _ _

theorem postAll_eq_forM (ts : List (Term α)) : postAll B c ts = ts.forM (post B c) := by
  induction ts with
  | nil =>
    rw [postAll]
    rfl
  | cons t ts ih =>
    rw [postAll, ih]
    rfl

/-- Posting a constraint; of a conjunction, each part is posted. -/
theorem keeps_post (hB : B.Preserves R) {t : Term α} (ht : KeepsWithin R B c t) : Keeps R (post B c t) := by
  induction t using Term.induction with
  | const x => exact keeps_postHandle hB ht
  | var v => exact keeps_postHandle hB ht
  | selected id f i => exact keeps_postHandle hB ht
  | node id op ts ih =>
    have hts : ∀ t ∈ ts, KeepsWithin R B c t := fun t hm => ht.within (.of_mem hm)
    unfold post
    split
    · exact keeps_fail _
    · exact keeps_ite (ih _ List.mem_cons_self (hts _ List.mem_cons_self)) (keeps_postHandle hB ht)
    · rw [postAll_eq_forM]
      exact keeps_forM fun t hm => ih t hm (hts t hm)
    · exact keeps_postComparisonOf hB _ hts _
    · exact keeps_postHandle hB ht

/-! ### What was lowered is found again -/

theorem translate_memoized (B : Backend α ν σ) (c : Context α) {t : Term α} {id : NodeId}
    (hid : t.identity? = some id) : ∃ run, translate B c t = memoized id run := by
  cases t with
  | const x => cases hid
  | var v => cases hid
  | selected id' f i =>
    cases hid
    exact ⟨_, rfl⟩
  | node id' op ts =>
    cases hid
    exact ⟨_, by rw [translate]⟩

variable {s s' : LoweringState ν σ} {t : Term α} {id : NodeId} {h : Handle ν}

/-- Lowering a term a second time does nothing at all. -/
theorem runs_translate_of_memo? (hid : t.identity? = some id) (hm : s.memo? id = some h) :
    (translate B c t).Runs s h s := by
  obtain ⟨run, hrun⟩ := translate_memoized B c hid
  rw [hrun]
  exact runs_memoized.mpr (.inl ⟨hm, rfl⟩)

/-- A term that was lowered is in the memo. -/
theorem memo?_of_runs_translate (hid : t.identity? = some id) (hr : (translate B c t).Runs s h s') :
    s'.memo? id = some h := by
  obtain ⟨run, hrun⟩ := translate_memoized B c hid
  rw [hrun] at hr
  obtain ⟨hm, rfl⟩ | ⟨-, s₁, -, rfl⟩ := runs_memoized.mp hr
  · exact hm
  · rw [memo?_cons, if_pos rfl]

/-- What stands within a term of which each identity is registered does not carry its identity, unless it
is the whole term. So while a node is lowered no entry is made for it but its own, which comes last. -/
theorem memo?_before_entry {origin : NodeId → Option (Term α)} {s₁ : LoweringState ν σ}
    (hB : B.Preserves (Upholds fun memo => ∀ e ∈ memo, e.1 ≠ id)) (ht : t.WellBuilt origin)
    (hid : t.identity? = some id) (hnone : s.memo? id = none)
    (hr : (translate B c t).Runs s h { s₁ with memo := (id, h) :: s₁.memo }) : s₁.memo? id = none := by
  have hrun {run : LowerM α ν σ (Handle ν)} (hmemoized : translate B c t = memoized id run)
      (hkeeps : Keeps (Upholds fun memo => ∀ e ∈ memo, e.1 ≠ id) run) : s₁.memo? id = none := by
    rw [hmemoized] at hr
    obtain ⟨hm, -⟩ | ⟨-, s₂, hlower, hs⟩ := runs_memoized.mp hr
    · cases hnone.symm.trans hm
    · have hmemo : s₁.memo = s₂.memo := (List.cons.inj (congrArg LoweringState.memo hs)).2
      rw [memo?_eq_none, hmemo]
      exact related_of_runs hkeeps hlower (memo?_eq_none.mp hnone)
  cases t with
  | const x => cases hid
  | var v => cases hid
  | selected id' f i =>
    obtain rfl := Option.some.inj hid
    exact hrun rfl (keeps_lowerSelected hB f i)
  | node id' op ts =>
    obtain rfl := Option.some.inj hid
    have hts : ∀ u ∈ ts, KeepsWithin (Upholds fun memo => ∀ e ∈ memo, e.1 ≠ id') B c u := fun u hu =>
      keepsWithin_of_enters hB fun w hw k _ _ _ hk _ hs _ hfresh =>
        List.forall_mem_cons.mpr ⟨ht.id_ne hu hw (by cases w <;> exact hk), hs hfresh⟩
    refine hrun (by rw [translate]) ?_
    exact keeps_lowerNode (keeps_operandsOf hts) (fun o ho => hts _ (mem_operandsOf ho).1) hB op _

theorem keeps_translateInput (hB : B.Preserves R) {x : Input α} (hx : ∀ t, x = .term t → KeepsWithin R B c t) :
    Keeps R (translateInput B c x) := by
  unfold translateInput
  split
  · exact (hx _ rfl).self
  · exact hB.constant _
  · exact keeps_fail _
  · exact keeps_fail _

theorem keeps_postInput (hB : B.Preserves R) {x : Input α} (hx : ∀ t, x = .term t → KeepsWithin R B c t) :
    Keeps R (postInput B c x) := by
  unfold postInput
  split
  · exact keeps_post hB (hx _ rfl)
  · exact keeps_fail _

theorem keeps_postDefinitionOf (hB : B.Preserves R)
    (hterm : ∀ t, c.Contains t → KeepsWithin R B c t) (v : VarId) : Keeps R (postDefinitionOf B c v) := by
  unfold postDefinitionOf
  split
  · refine keeps_bind (hterm _ (.definition ‹_›)).self fun h => ?_
    refine keeps_bind (keeps_assumedHandle c v) fun x => ?_
    exact keeps_bind (hB.postDefinition _ _ _) fun _ => keeps_log _ _ _
  · exact keeps_pure _

/-- After the variables of a model are created, each of its constraints is posted, and all that happens
keeps the relation. -/
theorem stages_of_runs_lowerModel (hB : B.Creates R) (hterm : ∀ t, c.Contains t → KeepsWithin R B c t)
    {model : Model α} (hm : c.workspace.findModel c.model = some model) (hr : (lowerModel B c).Runs s () s') :
    ∃ s₁, (do
        model.sequences.forM (createSequenceOf B c)
        model.vars.forM (createVariableOf B c)
        (model.families.flatMap c.workspace.members).forM (createVariableOf B c) :
          LowerM α ν σ Unit).Runs { s with lowered := true } () s₁ ∧ R s₁ s' ∧
      ∀ t ∈ model.constraints, ∃ s₂ s₃, R s₁ s₂ ∧ (post B c t).Runs s₂ () s₃ ∧ R s₃ s' := by
  unfold lowerModel at hr
  rw [hm] at hr
  simp only [runs_bind (m := get), runs_get] at hr
  obtain ⟨_, _, ⟨rfl, rfl⟩, hr⟩ := hr
  split at hr
  · simp [runs_bind] at hr
  obtain ⟨_, _, hmark, hr⟩ := runs_bind.mp hr
  obtain rfl := runs_modify.mp hmark
  obtain ⟨_, t₁, hsequences, hr⟩ := runs_bind.mp hr
  obtain ⟨_, t₂, hvars, hr⟩ := runs_bind.mp hr
  obtain ⟨_, s₁, hfamilies, hr⟩ := runs_bind.mp hr
  obtain ⟨_, s₂, hdefinitions, hr⟩ := runs_bind.mp hr
  obtain ⟨_, s₃, hconstraints, hlast⟩ := runs_bind.mp hr
  have hposted (t : Term α) (ht : t ∈ model.constraints) : Keeps R (do
      post B c t
      LowerM.log c.config 2 (("Added constraint " ++ ·) <$> c.workspace.termText t) :
        LowerM α ν σ Unit) :=
    keeps_bind (keeps_post hB.toPreserves (hterm t (.constraint hm ht))) fun _ => keeps_log _ _ _
  have hbefore : R s₁ s₂ :=
    related_of_runs (keeps_forM fun v _ => keeps_postDefinitionOf hB.toPreserves hterm v) hdefinitions
  have hafter : R s₃ s' := by
    refine related_of_runs ?_ hlast
    split
    · refine keeps_bind (hterm _ (.objective hm)).self fun h => ?_
      refine keeps_bind (hB.postObjective _ h) fun _ => keeps_bind (keeps_log _ _ _) fun _ => ?_
      exact keeps_look fun _ => keeps_log _ _ _
    · exact keeps_look fun _ => keeps_log _ _ _
  refine ⟨s₁, runs_seq hsequences (runs_seq hvars hfamilies), ?_, fun t ht => ?_⟩
  · exact keeps_trans (keeps_trans hbefore (related_of_runs (keeps_forM hposted) hconstraints)) hafter
  · obtain ⟨t₃, t₄, hearlier, hrun, hlater⟩ := exists_run_of_mem_forM hposted hconstraints ht
    obtain ⟨_, t₅, hpost, hlog⟩ := runs_bind.mp hrun
    refine ⟨t₃, t₅, keeps_trans hbefore hearlier, hpost, ?_⟩
    exact keeps_trans (keeps_trans (related_of_runs (keeps_log _ _ _) hlog) hlater) hafter

end

/-! ### Variables are created -/

section

variable [Numeral ν] {B : Backend α ν σ}

/-- The relation holds across the entries for variables that are made for a model, right after the
variables were created. -/
structure EntersVariables (R : LoweringState ν σ → LoweringState ν σ → Prop) (B : Backend α ν σ)
    (c : Context α) : Prop where
  lowered (s : LoweringState ν σ) : R s { s with lowered := true }
  single {v : VarId} {d : Variable α} {h : Handle ν} {s s₁ : LoweringState ν σ} :
    c.workspace.findVariable v = some d → (B.createVariable d).Runs s h s₁ → R s₁ (s₁.enter [(v, h)])
  members {model : Model α} {q : SequenceId} {hs : List (Handle ν)} {s s₁ : LoweringState ν σ} :
    c.workspace.findModel c.model = some model → q ∈ model.sequences →
      (B.createSequence (c.workspace.sequenceName q)
        ((c.workspace.sequenceMembers q).map c.workspace.variableName)).Runs s hs s₁ →
          R s₁ (s₁.enter ((c.workspace.sequenceMembers q).zip hs))

omit [Scalar α] [Numeral ν] in
/-- It does if it holds across any such entries. -/
theorem EntersVariables.of_entered [Entered R] : EntersVariables R B c where
  lowered := Entered.lowered
  single _ _ := Entered.handles _ _
  members _ _ _ := Entered.handles _ _

omit [Scalar α] [Numeral ν] in
theorem keeps_enterHandle [Entered R] (v : VarId) (h : Handle ν) :
    Keeps R (enterHandle v h : LowerM α ν σ Unit) := keeps_modify fun s => Entered.handles s _

omit [Scalar α] [Numeral ν] in
theorem runs_enterHandles {entries : List (VarId × Handle ν)} {s s' : LoweringState ν σ} {u : Unit} :
    (entries.forM fun (v, h) => enterHandle v h : LowerM α ν σ Unit).Runs s u s' ↔
      s' = s.enter entries := by
  induction entries generalizing s with
  | nil => simp only [runs_forM_nil, LoweringState.enter, List.append_nil]
  | cons e es ih =>
    obtain ⟨v, h⟩ := e
    have hfirst : ∀ s₁, (enterHandle v h : LowerM α ν σ Unit).Runs s () s₁ ↔
        s₁ = s.enter [(v, h)] := fun s₁ => runs_modify
    simp only [runs_forM_cons, hfirst, exists_eq_left]
    rw [ih]
    simp [LoweringState.enter]

variable [Unaffected R]

omit [Scalar α] [Numeral ν] in
theorem keeps_createVariableOf (hcreate : ∀ d, Keeps R (B.createVariable d))
    (hR : EntersVariables R B c) (v : VarId) : Keeps R (createVariableOf B c v) := by
  unfold createVariableOf
  split
  · rename_i d hd
    exact fun s => related_bind (hcreate d s) fun h s₁ hr hs =>
      keeps_trans hs (hR.single hd hr)
  · exact keeps_pure _

omit [Scalar α] [Numeral ν] in
theorem keeps_createSequenceOf (hcreate : ∀ name members, Keeps R (B.createSequence name members))
    (hR : EntersVariables R B c) {model : Model α} (hm : c.workspace.findModel c.model = some model)
    {q : SequenceId} (hq : q ∈ model.sequences) : Keeps R (createSequenceOf B c q) := by
  refine fun s => related_bind (hcreate _ _ s) fun hs s₁ hr hs₁ => ?_
  refine related_bind ?_ fun _ s₂ _ hs₂ => keeps_trans hs₂ (keeps_log _ _ _ s₂)
  have henter : (((c.workspace.sequenceMembers q).zip hs).forM fun (v, h) => enterHandle v h :
      LowerM α ν σ Unit).Runs s₁ () (s₁.enter ((c.workspace.sequenceMembers q).zip hs)) :=
    runs_enterHandles.mpr rfl
  rw [henter]
  exact keeps_trans hs₁ (hR.members hm hq hr)

/-- Lowering a whole model, wherever it stops. -/
theorem keeps_lowerModel (hB : B.Creates R) (hR : EntersVariables R B c)
    (hterm : ∀ t, c.Contains t → KeepsWithin R B c t) : Keeps R (lowerModel B c) := by
  refine keeps_look fun s => keeps_when ?_ ?_
  · exact keeps_fail _
  refine keeps_bind (keeps_modify hR.lowered) fun _ => ?_
  split
  · rename_i hm
    refine keeps_bind (keeps_forM fun q hq => keeps_createSequenceOf hB.createSequence hR hm hq) fun _ => ?_
    refine keeps_bind (keeps_forM fun v _ => keeps_createVariableOf hB.createVariable hR v) fun _ => ?_
    refine keeps_bind (keeps_forM fun v _ => keeps_createVariableOf hB.createVariable hR v) fun _ => ?_
    refine keeps_bind (keeps_forM fun v _ => keeps_postDefinitionOf hB.toPreserves hterm v) fun _ => ?_
    refine keeps_bind (keeps_forM fun t ht => ?_) fun _ => ?_
    · exact keeps_bind (keeps_post hB.toPreserves (hterm t (.constraint hm ht))) fun _ => keeps_log _ _ _
    dsimp only
    split
    · refine keeps_bind (hterm _ (.objective hm)).self fun h => ?_
      refine keeps_bind (hB.postObjective _ h) fun _ => keeps_bind (keeps_log _ _ _) fun _ => ?_
      exact keeps_look fun _ => keeps_log _ _ _
    · exact keeps_look fun _ => keeps_log _ _ _
  · exact keeps_pure _

end

/-! ### Relations that hold across all entries of the memo -/

section

variable [Numeral ν] [Visited R] {B : Backend α ν σ}

theorem keepsWithin (hB : B.Preserves R) (t : Term α) : KeepsWithin R B c t :=
  keepsWithin_of_enters hB fun _ _ _ _ h _ _ hnone hs _ => Visited.memo h hnone hs

theorem keeps_translate (hB : B.Preserves R) (t : Term α) : Keeps R (translate B c t) := (keepsWithin hB t).self

end

end Backend

end DecisionModel
