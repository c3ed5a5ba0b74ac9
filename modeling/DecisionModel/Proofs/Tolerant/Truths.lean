import DecisionModel.Proofs.Lowering.Semantics
import DecisionModel.Proofs.Tolerant.Keeps

/-!
# Tolerant lowering: truth values are made once

A handle that is neither a number nor known to be zero or one gets a binary variable for its truth,
and the table of these variables is asked first (`runs_truth_again`). Two things could spoil that: the
entry could be replaced, or the handle could come to count as binary itself. Neither happens, whatever
is lowered and wherever it fails. Entries are made where there was none, and a handle is marked as
binary only if it is new, or if it is a truth value, which is binary already (`Retains`).
-/

namespace DecisionModel.Tolerant

open LowerM

variable {α σ β γ : Type} {s s' s₁ : LoweringState (Number α) (Encoding α σ)}
  {h b : Handle (Number α)}

/-! ### States -/

/-- The variable that stands for the truth of a handle. -/
def Encoding.boolean? (e : Encoding α σ) (id : HandleId) : Option (Handle (Number α)) :=
  (e.booleans.find? (·.1 = id)).map (·.2)

/-- The handle is known to be zero or one, unless it is a number. -/
def Encoding.Knows (e : Encoding α σ) (h : Handle (Number α)) : Prop :=
  ∀ id, h.id? = some id → id ∈ e.binaries

/-- All truth values are known to be zero or one. -/
def Encoding.Truthful (e : Encoding α σ) : Prop := ∀ id b, e.boolean? id = some b → e.Knows b

/-- The handle has no identity that was given out before. -/
def Fresh (s : LoweringState (Number α) (Encoding α σ)) (h : Handle (Number α)) : Prop :=
  ∀ id, h.id? = some id → s.nextHandle ≤ id.index

/-- Handles are marked and truth values entered, but what was decided for a handle stays. -/
structure Marks (s s' : LoweringState (Number α) (Encoding α σ)) : Prop where
  binaries : ∀ id ∈ s.solver.binaries, id ∈ s'.solver.binaries
  new_binaries : ∀ id ∈ s'.solver.binaries, id ∈ s.solver.binaries ∨ s.nextHandle ≤ id.index
  booleans : ∀ id b, s.solver.boolean? id = some b → s'.solver.boolean? id = some b

/-- Nodes keep their handles, and handles keep their truth values. -/
structure Retains (s s' : LoweringState (Number α) (Encoding α σ)) : Prop where
  remembers : Remembers s s'
  next_le : s.nextHandle ≤ s'.nextHandle
  truths : s.solver.Truthful → s'.solver.Truthful ∧ Marks s s'

theorem Marks.trans (h₁ : Marks s s₁) (hle : s.nextHandle ≤ s₁.nextHandle) (h₂ : Marks s₁ s') :
    Marks s s' where
  binaries id h := h₂.binaries id (h₁.binaries id h)
  new_binaries id h := by
    rcases h₂.new_binaries id h with h | h
    · exact h₁.new_binaries id h
    · exact .inr (Nat.le_trans hle h)
  booleans id b h := h₂.booleans id b (h₁.booleans id b h)

theorem Encoding.Knows.mono (hk : s.solver.Knows h) (hm : Marks s s') : s'.solver.Knows h :=
  fun id hid => hm.binaries id (hk id hid)

theorem Fresh.of_le (hf : Fresh s₁ h) (hle : s.nextHandle ≤ s₁.nextHandle) : Fresh s h :=
  fun id hid => Nat.le_trans hle (hf id hid)

theorem fresh_const (x : Number α) : Fresh s (.const x) := fun id hid => by cases hid

/-- What concerns neither the memo nor marks and truth values retains them. -/
theorem Retains.of_same (hmemo : s'.memo = s.memo) (hnext : s.nextHandle ≤ s'.nextHandle)
    (hbinaries : s'.solver.binaries = s.solver.binaries)
    (hbooleans : s'.solver.booleans = s.solver.booleans) : Retains s s' where
  remembers id h hm := by rwa [LoweringState.memo?, hmemo]
  next_le := hnext
  truths ht := by
    have hb id : s'.solver.boolean? id = s.solver.boolean? id := by
      rw [Encoding.boolean?, hbooleans, Encoding.boolean?]
    refine ⟨fun id b hid i hi => ?_, fun id h => ?_, fun id h => .inl ?_, fun id b h => ?_⟩
    · rw [hb] at hid
      rw [hbinaries]
      exact ht id b hid i hi
    · rwa [hbinaries]
    · rwa [hbinaries] at h
    · rwa [hb]

instance : Traversed (Retains (α := α) (σ := σ)) where
  refl _ := .of_same rfl (Nat.le_refl _) rfl rfl
  trans _ _ _ h₁ h₂ := by
    refine ⟨fun id h hm => h₂.remembers id h (h₁.remembers id h hm),
      Nat.le_trans h₁.next_le h₂.next_le, fun ht => ?_⟩
    obtain ⟨ht₁, hm₁⟩ := h₁.truths ht
    obtain ⟨ht₂, hm₂⟩ := h₂.truths ht₁
    exact ⟨ht₂, hm₁.trans h₁.next_le hm₂⟩
  next s := .of_same rfl (Nat.le_succ _) rfl rfl
  auxiliaries _ := .of_same rfl (Nat.le_refl _) rfl rfl
  violated _ _ := .of_same rfl (Nat.le_refl _) rfl rfl
  log _ _ := .of_same rfl (Nat.le_refl _) rfl rfl
  handles _ _ := .of_same rfl (Nat.le_refl _) rfl rfl
  lowered _ := .of_same rfl (Nat.le_refl _) rfl rfl
  memo {s s₁ id} h hnone hs := by
    refine ⟨Visited.memo h hnone hs.remembers, hs.next_le, fun ht => ?_⟩
    obtain ⟨ht₁, hm⟩ := hs.truths ht
    exact ⟨ht₁, hm.binaries, hm.new_binaries, hm.booleans⟩

/-- Marking handles that are new, or that were marked before. -/
theorem Retains.mark (hs : Retains s s₁) {e : Encoding α σ}
    (hbinaries : e.binaries = h.id?.toList ++ s₁.solver.binaries)
    (hbooleans : e.booleans = s₁.solver.booleans)
    (hh : s.solver.Truthful → Fresh s h ∨ s₁.solver.Knows h) :
    Retains s { s₁ with solver := e } where
  remembers := hs.remembers
  next_le := hs.next_le
  truths ht := by
    obtain ⟨ht₁, hm⟩ := hs.truths ht
    have hsub : ∀ id ∈ s₁.solver.binaries, id ∈ e.binaries := fun id hid => by
      rw [hbinaries]
      exact List.mem_append_right _ hid
    have hb id : e.boolean? id = s₁.solver.boolean? id := by
      rw [Encoding.boolean?, hbooleans, Encoding.boolean?]
    refine ⟨fun id b hid i hi => ?_, fun id hid => hsub id (hm.binaries id hid),
      fun id hid => ?_, fun id b hid => ?_⟩
    · rw [hb] at hid
      exact hsub i (ht₁ id b hid i hi)
    · replace hid : id ∈ h.id?.toList ++ s₁.solver.binaries := hbinaries ▸ hid
      rcases List.mem_append.mp hid with hid | hid
      · replace hid := Option.mem_toList.mp hid
        rcases hh ht with hf | hk
        · exact .inr (hf id hid)
        · exact hm.new_binaries id (hk id hid)
      · exact hm.new_binaries id hid
    · exact (hb id).trans (hm.booleans id b hid)

/-- Entering a truth value for a handle that had none. -/
theorem Retains.enter (hs : Retains s s₁) {id : HandleId} (hnone : s.solver.boolean? id = none)
    (hb : s.solver.Truthful → s₁.solver.Knows b) :
    Retains s { s₁ with solver := { s₁.solver with booleans := (id, b) :: s₁.solver.booleans } } where
  remembers := hs.remembers
  next_le := hs.next_le
  truths ht := by
    obtain ⟨ht₁, hm⟩ := hs.truths ht
    have hentry id' : ({ s₁.solver with booleans := (id, b) :: s₁.solver.booleans } :
        Encoding α σ).boolean? id' = if id = id' then some b else s₁.solver.boolean? id' := by
      by_cases hid : id = id' <;> simp [Encoding.boolean?, hid]
    refine ⟨fun id' b' hid => ?_, hm.binaries, hm.new_binaries, fun id' b' hid => ?_⟩
    · rw [hentry] at hid
      split at hid
      · cases hid
        exact hb ht
      · exact ht₁ id' b' hid
    · have hne : id ≠ id' := by
        rintro rfl
        cases hnone.symm.trans hid
      exact (hentry id').trans (by rw [if_neg hne]; exact hm.booleans id' b' hid)

/-! ### Variables and ranges -/

theorem keeps_modifyEncoding {f : Encoding α σ → Encoding α σ}
    (hbinaries : ∀ e, (f e).binaries = e.binaries) (hbooleans : ∀ e, (f e).booleans = e.booleans) :
    Keeps Retains (modifyEncoding f : TolerantM α σ Unit) :=
  keeps_modifySolver fun _ => .of_same rfl (Nat.le_refl _) (hbinaries _) (hbooleans _)

theorem keeps_modifyOwn (f : σ → σ) : Keeps Retains (modifyOwn f : TolerantM α σ Unit) :=
  keeps_modifyEncoding (fun _ => rfl) fun _ => rfl

/-- Marking the handle that a step returned. -/
theorem keeps_bind_markBinary {m : TolerantM α σ (Handle (Number α))} (hm : Keeps Retains m)
    (hh : ∀ s h s₁, s.solver.Truthful → m.Runs s h s₁ → Fresh s h ∨ s₁.solver.Knows h) :
    Keeps Retains (m >>= markBinary) := fun s =>
  related_bind (hm s) fun h s₁ hr hs => hs.mark rfl rfl fun ht => hh s h s₁ ht hr

/-- What the lowering relies on: the solver touches neither the memo nor marks and truth values, and
what it makes is new. A sum of a single handle may be that handle. -/
structure Primitives.Retain (P : Primitives α σ) : Prop extends P.Keep Retains where
  newVariable_fresh {kind : Kind} {lower upper : α} {name : String}
    {s s' : LoweringState (Number α) (Encoding α σ)} {h : Handle (Number α)} :
    (P.newVariable kind lower upper name).Runs s h s' → Fresh s h
  gate_fresh {s s' : LoweringState (Number α) (Encoding α σ)} {b h k : Handle (Number α)} :
    (P.gate b h).Runs s k s' → Fresh s k
  total_fresh {s s' : LoweringState (Number α) (Encoding α σ)} {hs : List (Handle (Number α))}
    {k : Handle (Number α)} : (P.total hs).Runs s k s' → Fresh s k ∨ k ∈ hs
  tolerance : Keeps Retains P.tolerance

variable {P : Primitives α σ}

theorem keeps_createVariable (hP : P.Retain) (kind : Kind) (lower upper : α) (name : String) :
    Keeps Retains (createVariable P kind lower upper name) := by
  intro s
  refine related_bind (hP.newVariable kind lower upper name s) fun h s₁ hr hs => ?_
  by_cases hk : kind = .binary
  · exact hs.mark (if_pos hk) rfl fun _ => .inl (hP.newVariable_fresh hr)
  · exact keeps_trans hs (.of_same rfl (Nat.le_refl _) (if_neg hk) rfl)

theorem Primitives.Retain.steps (hP : P.Retain) : P.Steps Retains where
  toKeepTerms := hP.toKeepTerms
  createAuxiliary _ _ _ _ := keeps_bind (keeps_auxiliaryName _) fun _ => keeps_createVariable hP _ _ _ _
  post _ := keeps_modifyEncoding (fun _ => rfl) fun _ => rfl

variable [Scalar α]

theorem knows_newBinary {hint : String} (hr : (newBinary P hint).Runs s b s') :
    s'.solver.Knows b := by
  obtain ⟨name, s₁, -, hr⟩ := runs_bind.mp hr
  simp only [createVariable, modifyEncoding, runs_bind, runs_modifySolver, runs_pure, if_true] at hr
  obtain ⟨h, s₂, -, _, _, rfl, rfl, rfl⟩ := hr
  intro id hid
  exact List.mem_append_left _ (Option.mem_toList.mpr hid)

/-- What is returned is new, or a number. -/
def MakesNew (m : TolerantM α σ (Handle (Number α))) : Prop := ∀ s h s', m.Runs s h s' → Fresh s h

omit [Scalar α] in
theorem makesNew_bind {m : TolerantM α σ γ} {f : γ → TolerantM α σ (Handle (Number α))}
    (hm : Keeps Retains m) (hf : ∀ x, MakesNew (f x)) : MakesNew (m >>= f) := by
  intro s h s' hr
  obtain ⟨x, s₁, hr₁, hr₂⟩ := runs_bind.mp hr
  exact (hf x s₁ h s' hr₂).of_le (related_of_runs hm hr₁).next_le

omit [Scalar α] in
theorem fresh_mapM {f : β → TolerantM α σ (Handle (Number α))} {xs : List β}
    {hs : List (Handle (Number α))} (hk : ∀ x ∈ xs, Keeps Retains (f x))
    (hf : ∀ x ∈ xs, MakesNew (f x)) (hr : Runs (xs.mapM f) s hs s') : ∀ h ∈ hs, Fresh s h := by
  induction xs generalizing s hs with
  | nil =>
    obtain ⟨rfl, -⟩ := runs_mapM_nil.mp hr
    simp
  | cons x xs ih =>
    obtain ⟨h, s₁, hs, hx, hxs, rfl⟩ := runs_mapM_cons.mp hr
    intro k hmem
    rcases List.mem_cons.mp hmem with rfl | hmem
    · exact hf x List.mem_cons_self s k s₁ hx
    · have hle := (related_of_runs (hk x List.mem_cons_self) hx).next_le
      exact (ih (fun y hy => hk y (List.mem_cons_of_mem x hy))
        (fun y hy => hf y (List.mem_cons_of_mem x hy)) hxs k hmem).of_le hle

omit [Scalar α] in
theorem fresh_leaf {name : String} {integral : Bool}
    (hr : (leaf name integral : TolerantM α σ _).Runs s h s') : Fresh s h := by
  obtain ⟨rfl, -⟩ := runs_leaf.mp hr
  intro id hid
  cases hid
  exact Nat.le_refl _

omit [Scalar α] in
theorem fresh_node {f : SolverFunction} {args : List (Handle (Number α))}
    (hr : (node f args : TolerantM α σ _).Runs s h s') : Fresh s h := by
  obtain ⟨rfl, -⟩ := runs_node.mp hr
  intro id hid
  cases hid
  exact Nat.le_refl _

omit [Scalar α] in
/-- An operation on two handles returns a number or a new node. -/
theorem fresh_binary {f : Number α → Number α → Number α} {symbol : SolverFunction}
    {x y : Handle (Number α)} (hr : (binary f symbol x y : TolerantM α σ _).Runs s h s') :
    Fresh s h := by
  unfold binary at hr
  split at hr
  · obtain ⟨rfl, -⟩ := runs_pure.mp hr
    exact fresh_const _
  · exact fresh_node hr

/-- Adding to a new handle gives a new one. -/
theorem fresh_foldlM {hs : List (Handle (Number α))} {x k : Handle (Number α)} (hx : Fresh s x)
    (hle : s.nextHandle ≤ s₁.nextHandle)
    (hr : (hs.foldlM LowerM.add x : TolerantM α σ _).Runs s₁ k s') : Fresh s k := by
  induction hs generalizing s₁ x with
  | nil =>
    obtain ⟨rfl, -⟩ := runs_foldlM_nil.mp hr
    exact hx
  | cons y ys ih =>
    obtain ⟨z, s₂, hadd, hrest⟩ := runs_foldlM_cons.mp hr
    refine ih ((fresh_binary hadd).of_le hle) (Nat.le_trans hle ?_) hrest
    exact Retains.next_le (related_of_runs (keeps_add x y) hadd)

/-- A sum by repeated addition is new, unless there is a single handle. -/
theorem fresh_chainedSum {hs : List (Handle (Number α))} {k : Handle (Number α)}
    (hr : (chainedSum hs : TolerantM α σ _).Runs s k s') : Fresh s k ∨ k ∈ hs := by
  cases hs with
  | nil =>
    obtain ⟨rfl, -⟩ := runs_pure.mp hr
    exact .inl (fresh_const _)
  | cons h hs =>
    cases hs with
    | nil =>
      obtain ⟨rfl, -⟩ := runs_pure.mp hr
      exact .inr List.mem_cons_self
    | cons x xs =>
      obtain ⟨y, s₁, hadd, hrest⟩ := runs_foldlM_cons.mp hr
      have hnext := Retains.next_le (related_of_runs (keeps_add h x) hadd)
      exact .inl (fresh_foldlM (fresh_binary hadd) hnext hrest)

/-- A gated handle is new, or the gate was a number and let the handle through. -/
theorem fresh_gated (hP : P.Retain) {k : Handle (Number α)} (hr : (gated P b h).Runs s k s') :
    Fresh s k ∨ k = h := by
  unfold gated at hr
  split at hr
  · obtain ⟨rfl, -⟩ := runs_pure.mp hr
    split
    · exact .inl (fresh_const _)
    · exact .inr rfl
  · split at hr
    · obtain ⟨rfl, -⟩ := runs_pure.mp hr
      exact .inl (fresh_const _)
    · exact .inl (fresh_binary hr)
  · exact .inl (hP.gate_fresh hr)

/-! ### Truth -/

/-- What is returned is known to be zero or one once `b` is. -/
def KnownWith (b : Handle (Number α)) (m : TolerantM α σ (Handle (Number α))) : Prop :=
  ∀ s x s', s.solver.Truthful → s.solver.Knows b → m.Runs s x s' → s'.solver.Knows x

omit [Scalar α] in
theorem knownWith_pure : KnownWith b (pure b : TolerantM α σ (Handle (Number α))) := by
  intro s x s' _ hk hr
  obtain ⟨rfl, rfl⟩ := runs_pure.mp hr
  exact hk

omit [Scalar α] in
theorem knownWith_bind {m : TolerantM α σ γ} {f : γ → TolerantM α σ (Handle (Number α))}
    (hm : Keeps Retains m) (hf : ∀ x, KnownWith b (f x)) : KnownWith b (m >>= f) := by
  intro s x s' ht hk hr
  obtain ⟨y, s₁, hr₁, hr₂⟩ := runs_bind.mp hr
  obtain ⟨ht₁, hm₁⟩ := (related_of_runs hm hr₁).truths ht
  exact hf y s₁ x s' ht₁ (hk.mono hm₁) hr₂

theorem knows_newTruth (hP : P.Retain) (ht : s.solver.Truthful) (hr : (newTruth P h).Runs s b s') :
    s'.solver.Knows b := by
  obtain ⟨_, s₁, hε, hr⟩ := runs_bind.mp hr
  obtain ⟨_, s₂, hthreshold, hr⟩ := runs_bind.mp hr
  obtain ⟨v, s₃, hv, hr⟩ := runs_bind.mp hr
  have ht₁ := ((related_of_runs (R := Retains) keeps_epsilon hε).truths ht).1
  have ht₂ := ((related_of_runs (R := Retains) keeps_threshold hthreshold).truths ht₁).1
  have ht₃ := ((related_of_runs (keeps_newBinary hP.steps _) hv).truths ht₂).1
  refine (knownWith_bind (hP.absolute _) fun _ => ?_) s₃ b s' ht₃ (knows_newBinary hv) hr
  refine knownWith_bind (keeps_mul _ _) fun _ => knownWith_bind (keeps_sub _ _) fun _ => ?_
  refine knownWith_bind (keeps_constrain hP.steps _ _ _) fun _ => ?_
  refine knownWith_bind (keeps_sub _ _) fun _ => knownWith_bind (keeps_sub _ _) fun _ => ?_
  refine knownWith_bind (keeps_gated hP.steps _ _) fun _ => ?_
  exact knownWith_bind (keeps_constrain hP.steps _ _ _) fun _ => knownWith_pure

theorem keeps_truth (hP : P.Retain) (h : Handle (Number α)) : Keeps Retains (truth P h) := by
  unfold truth
  split
  · exact keeps_pure _
  · exact keeps_pure _
  · refine fun s => related_bind (keeps_getEncoding s) fun e s₁ hr _ => ?_
    obtain ⟨rfl, rfl⟩ := runs_getSolver.mp hr
    split
    · exact keeps_refl _
    · split
      · exact keeps_refl _
      · rename_i hnone
        refine related_bind (keeps_newTruth hP.steps h s₁) fun b s₂ hb hs => ?_
        exact hs.enter hnone fun ht => knows_newTruth hP ht hb

omit [Scalar α] in
theorem number?_eq_none {id : HandleId} (hid : h.id? = some id) : h.number? = none := by
  cases h with
  | const x => cases hid
  | leaf id name integral => rfl
  | node id f args => rfl

/-- The truth of a number is a number. -/
theorem runs_truth_number (hid : h.id? = none) (hr : (truth P h).Runs s b s₁) :
    b.id? = none ∧ s₁ = s ∧ ∀ s', (truth P h).Runs s' b s' := by
  cases h with
  | const x =>
    obtain ⟨rfl, rfl⟩ := runs_pure.mp hr
    refine ⟨?_, rfl, fun _ => runs_pure.mpr ⟨rfl, rfl⟩⟩
    split <;> rfl
  | leaf id name integral => cases hid
  | node id f args => cases hid

variable {id : HandleId}

/-- The truth of a term: the term itself, a variable made before, or a new one that is entered. -/
theorem runs_truth_term (hid : h.id? = some id) : (truth P h).Runs s b s' ↔
    if id ∈ s.solver.binaries then b = h ∧ s' = s
    else (s.solver.boolean? id = some b ∧ s' = s) ∨
      (s.solver.boolean? id = none ∧ ∃ s₁, (newTruth P h).Runs s b s₁ ∧ s' =
        { s₁ with solver := { s₁.solver with booleans := (id, b) :: s₁.solver.booleans } }) := by
  simp only [truth, number?_eq_none hid, hid, getEncoding, modifyEncoding, runs_bind, runs_getSolver,
    List.contains_eq_mem, decide_eq_true_eq]
  constructor
  · rintro ⟨_, _, ⟨rfl, rfl⟩, hr⟩
    split at hr
    · rw [if_pos ‹_›]
      obtain ⟨rfl, rfl⟩ := runs_pure.mp hr
      exact ⟨rfl, rfl⟩
    · rw [if_neg ‹_›]
      split at hr
      · obtain ⟨rfl, rfl⟩ := runs_pure.mp hr
        exact .inl ⟨‹_›, rfl⟩
      · simp only [runs_bind, runs_modifySolver, runs_pure] at hr
        obtain ⟨b', s₁, hb, _, _, rfl, rfl, rfl⟩ := hr
        exact .inr ⟨‹_›, s₁, hb, rfl⟩
  · intro h
    refine ⟨_, _, ⟨rfl, rfl⟩, ?_⟩
    split at h
    · rw [if_pos ‹_›]
      exact runs_pure.mpr ⟨h.1.symm, h.2.symm⟩
    · rw [if_neg ‹_›]
      obtain ⟨hb, rfl⟩ | ⟨hnone, s₁, hb, rfl⟩ := h
      · rw [show Option.map _ _ = some b from hb]
        exact runs_pure.mpr ⟨rfl, rfl⟩
      · rw [show Option.map _ _ = none from hnone]
        simp only [runs_bind, runs_modifySolver, runs_pure]
        exact ⟨b, s₁, hb, (), _, rfl, rfl, rfl⟩

theorem knows_truth (hP : P.Retain) (ht : s.solver.Truthful) (hr : (truth P h).Runs s b s') :
    s'.solver.Knows b := by
  rcases hid : h.id? with _ | id
  · obtain ⟨hb, -, -⟩ := runs_truth_number hid hr
    intro i hi
    cases hb.symm.trans hi
  · rw [runs_truth_term hid] at hr
    split at hr
    · obtain ⟨rfl, rfl⟩ := hr
      intro i hi
      cases hid.symm.trans hi
      assumption
    · obtain ⟨hb, rfl⟩ | ⟨-, s₁, hb, rfl⟩ := hr
      · exact ht id b hb
      · exact fun i hi => knows_newTruth hP ht hb i hi

/-- Whatever was lowered since, the truth value of a handle is the one that it got first. -/
theorem runs_truth_again (hP : P.Retain) (ht : s.solver.Truthful)
    (hold : ∀ id, h.id? = some id → id.index < s.nextHandle) (hr : (truth P h).Runs s b s₁)
    (hs : Retains s₁ s') : (truth P h).Runs s' b s' := by
  rcases hid : h.id? with _ | id
  · exact (runs_truth_number hid hr).2.2 s'
  have hs₁ := related_of_runs (keeps_truth hP h) hr
  obtain ⟨ht₁, hm₁⟩ := hs₁.truths ht
  obtain ⟨-, hm⟩ := hs.truths ht₁
  rw [runs_truth_term hid] at hr ⊢
  split at hr
  · -- The handle was binary, and stays so.
    obtain ⟨rfl, rfl⟩ := hr
    rw [if_pos (hm.binaries id ‹_›)]
    exact ⟨rfl, rfl⟩
  · -- It is in the table now. It is not marked later, because it is older than what is marked.
    have hmem : id ∉ s'.solver.binaries := fun hmem => by
      rcases (hm₁.trans hs₁.next_le hm).new_binaries id hmem with h | h
      · contradiction
      · exact absurd (hold id hid) (Nat.not_lt.mpr h)
    rw [if_neg hmem]
    refine .inl ⟨hm.booleans id b ?_, rfl⟩
    obtain ⟨hb, rfl⟩ | ⟨-, s₂, -, rfl⟩ := hr
    · exact hb
    · simp [Encoding.boolean?]

/-! ### Connectives -/

theorem keeps_complement (hP : P.Retain) (h : Handle (Number α)) : Keeps Retains (complement P h) := by
  refine keeps_bind (keeps_truth hP h) fun b => ?_
  split
  · exact keeps_pure _
  · exact keeps_bind_markBinary (keeps_sub _ _) fun _ _ _ _ hr => .inl (fresh_binary hr)

/-- A product of truth values is marked in the end. It is new, or it is a truth value itself. -/
theorem retains_conjoinFrom (hP : P.Retain) (hs : Retains s s₁)
    (hh : s.solver.Truthful → Fresh s h ∨ s₁.solver.Knows h) (ks : List (Handle (Number α))) :
    Retains s ((conjoinFrom P h ks).run.run s₁).2 := by
  induction ks generalizing s₁ h with
  | nil => exact hs.mark rfl rfl hh
  | cons k ks ih =>
    refine related_bind (keeps_trans hs (keeps_truth hP k s₁)) fun b s₂ hb hs₂ => ?_
    refine related_bind (keeps_trans hs₂ (keeps_gated hP.steps h b s₂)) fun h' s₃ hr hs₃ => ?_
    split
    · exact hs₃
    · refine ih hs₃ fun ht => ?_
      rcases fresh_gated hP hr with hf | rfl
      · exact .inl (hf.of_le hs₂.next_le)
      · have hk := knows_truth hP (hs.truths ht).1 hb
        have hg := related_of_runs (keeps_gated hP.steps _ _) hr
        exact .inr (hk.mono (hg.truths (hs₂.truths ht).1).2)

theorem keeps_conjoin (hP : P.Retain) (hs : List (Handle (Number α))) :
    Keeps Retains (conjoin P hs) := fun s =>
  retains_conjoinFrom hP (keeps_refl s) (fun _ => .inl (fresh_const _)) hs

/-! ### Selection -/

/-- A lookup among numbers returns a new handle. -/
theorem makesNew_lookup (hP : P.Retain) (h : Handle (Number α))
    {entries : List (Int × Handle (Number α))} (he : ∀ e ∈ entries, e.2.id? = none) :
    MakesNew (lookup P h entries) := by
  refine makesNew_bind (keeps_mapM fun _ _ => keeps_newBinary hP.steps _) fun selectors => ?_
  refine makesNew_bind (keeps_requireOne hP.steps _) fun _ => ?_
  refine makesNew_bind (keeps_mapM fun _ _ => keeps_mul _ _) fun _ => ?_
  refine makesNew_bind (hP.total _) fun _ => makesNew_bind (keeps_sub _ _) fun _ => ?_
  refine makesNew_bind (keeps_constrain hP.steps _ _ _) fun _ s k s' hr => ?_
  obtain ⟨terms, s₁, hterms, htotal⟩ := runs_bind.mp hr
  have hkeeps (p) (_ : p ∈ entries.zip selectors) := keeps_gated hP.steps p.2 p.1.2
  rcases hP.total_fresh htotal with hf | hmem
  · exact hf.of_le (related_of_runs (keeps_mapM hkeeps) hterms).next_le
  · refine fresh_mapM hkeeps (fun p hp s k s' hr => ?_) hterms k hmem
    rcases fresh_gated hP hr with hf | rfl
    · exact hf
    · intro id hid
      cases (he p.1 (List.of_mem_zip hp).1).symm.trans hid

/-- The table of memberships holds zeros and ones. -/
theorem bits_membershipEntries {c : Context α} {low : Int} {width : Nat} {keys : List Int}
    {entries : List (Int × Handle (Number α))}
    (hr : Runs (membershipEntries c low width keys) s entries s') :
    ∀ e ∈ entries, ∃ b, e.2 = scalar (Scalar.ofBool b) := by
  obtain ⟨rows, s₁, hrows, hr⟩ := runs_bind.mp hr
  obtain ⟨rfl, rfl⟩ := runs_pure.mp hr
  have hrow := forall_of_runs_mapM
    (Q := fun row => ∀ e ∈ row, ∃ b, e.2 = scalar (Scalar.ofBool b)) ?_ hrows
  · intro e he
    obtain ⟨row, hrow', he⟩ := List.mem_flatten.mp he
    exact hrow row hrow' e he
  · rintro ⟨row, k⟩ s entries s' hr
    obtain ⟨xs, s₁, -, hr⟩ := runs_bind.mp hr
    obtain ⟨rfl, rfl⟩ := runs_pure.mp hr
    intro e he
    obtain ⟨column, -, rfl⟩ := List.mem_map.mp he
    exact ⟨_, rfl⟩

theorem keeps_tabulatedMembership (hP : P.Retain) (c : Context α) (key : Handle (Number α))
    (keys : List Int) (v : VarId) (low high : Int) :
    Keeps Retains (tabulatedMembership P c key keys v low high) := by
  refine keeps_bind (keeps_newInteger hP.steps _ _ _) fun _ => keeps_bind (keeps_sub _ _) fun _ => ?_
  refine keeps_bind (keeps_mul _ _) fun _ => ?_
  refine keeps_bind (Backend.keeps_variableHandle c v) fun _ => keeps_bind (keeps_add _ _) fun _ => ?_
  refine keeps_bind (keeps_sub _ _) fun _ => keeps_bind (keeps_sub _ _) fun _ => ?_
  refine keeps_bind (keeps_constrain hP.steps _ _ _) fun _ s => ?_
  refine related_bind (keeps_membershipEntries c _ _ _ s) fun entries s₁ hr hs => ?_
  refine keeps_trans hs (keeps_bind_markBinary (keeps_lookup hP.steps _ _) ?_ s₁)
  refine fun s h s₁ _ hr' => .inl (makesNew_lookup hP _ (fun e he => ?_) s h s₁ hr')
  obtain ⟨b, hb⟩ := bits_membershipEntries hr e he
  rw [hb]
  rfl

theorem Primitives.Retain.encodes (hP : P.Retain) : P.Encodes Retains where
  toSteps := hP.steps
  truth := keeps_truth hP
  complement := keeps_complement hP
  conjoin := keeps_conjoin hP
  tabulatedMembership := keeps_tabulatedMembership hP

theorem Primitives.Retain.creates (hP : P.Retain) : P.Creates Retains where
  toEncodes := hP.encodes
  createVariable := keeps_createVariable hP
  setObjective := hP.setObjective
  enterObjective _ := keeps_modifyEncoding (fun _ => rfl) fun _ => rfl

/-- All operations keep the handles of nodes and the truth values of handles. -/
theorem preserves (hP : P.Retain) : (backend P).Preserves Retains := hP.encodes.preserves

theorem Primitives.Retain.lowerModel (hP : P.Retain) (c : Context α) : Keeps Retains (lowerModel P c) :=
  keeps_lowerModel hP.creates hP.tolerance (fun _ => keeps_modifyEncoding (fun _ => rfl) fun _ => rfl)
    .of_entered fun t _ => Backend.keepsWithin (preserves hP) t

end DecisionModel.Tolerant
