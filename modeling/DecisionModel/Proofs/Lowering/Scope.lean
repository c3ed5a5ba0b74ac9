import DecisionModel.Lowering.Readout
import DecisionModel.Proofs.InStep
import DecisionModel.Proofs.Lowering.Memo

/-!
# What lowering asks of the tables

Lowering looks up the handles of variables and the handles of nodes that were lowered before, and it
enters the latter. All else that it does concerns its counters, its reports and the solver's part.
`Scoped` follows how a computation is composed, within a `Scope` that says which variables and nodes are
looked up, what a look-up tells where it succeeds, and which errors may be raised.

Two things are read off. What is returned has been looked up, and an error is one of those allowed
(`Scoped.sound`). And what happens depends on the entries of the memo for nodes of the scope alone
(`Scoped.inStep`).
-/

namespace DecisionModel

variable {α ν σ β γ : Type}

/-- An error that says why a model cannot be lowered, or a fault that is passed on. The others stand for
the absence of an entry or of an operation, or for an option of the wrong kind. -/
def LoweringError.IsProper : LoweringError α → Prop
  | missingHandle _ | unsupported _ | badTolerance _ => False
  | _ => True

/-- What a computation may look up, and what it may raise. -/
structure Scope (α : Type) where
  error : LoweringError α → Prop
  proper {e : LoweringError α} : e.IsProper → error e
  /-- The nodes and selected members that may be looked up. -/
  node : NodeId → Prop
  /-- What is known of those that were lowered. -/
  lowered : NodeId → Prop
  /-- What is known of a variable that has a handle. -/
  handle : VarId → Prop
  /-- The variables that are known to have handles. -/
  assumed : VarId → Prop

/-- The handle of the variable may be taken for granted: it is there, or its absence may be raised. -/
def Scope.Takes (S : Scope α) (v : VarId) : Prop :=
  S.assumed v ∨ ∀ description, S.error (.missingHandle description)

namespace LowerM

/-- The computation is composed of look-ups in the scope and of steps that concern neither the handles
of variables nor the memo, and `P` holds if it returns. -/
inductive Scoped [Scalar α] (c : Context α) (S : Scope α) :
    {β : Type} → LowerM α ν σ β → Prop → Prop
  | pure {β : Type} (x : β) : Scoped c S (pure x) True
  | fail {β : Type} {e : LoweringError α} : S.error e → Scoped c S (fail e : LowerM α ν σ β) False
  | getSolver : Scoped c S getSolver True
  | modifySolver (f : σ → σ) : Scoped c S (modifySolver f) True
  | freshHandle : Scoped c S freshHandle True
  | auxiliaryName (hint : String) : Scoped c S (auxiliaryName hint) True
  | recordViolated (text : String) : Scoped c S (recordViolated text) True
  | line (text : String) : Scoped c S (modify fun s => { s with log := s.log ++ [text] }) True
  | variableHandle (v : VarId) : Scoped c S (Backend.variableHandle c v) (S.handle v)
  | assumedHandle {v : VarId} : S.Takes v → Scoped c S (Backend.assumedHandle c v) (S.handle v)
  | memoized {id : NodeId} {run : LowerM α ν σ (Handle ν)} {P : Prop} : S.node id →
    (P ↔ S.lowered id) → Scoped c S run P → Scoped c S (Backend.memoized id run) P
  | bind {β γ : Type} {m : LowerM α ν σ β} {f : β → LowerM α ν σ γ} {P Q : Prop} :
    Scoped c S m P → (∀ x, Scoped c S (f x) Q) → Scoped c S (m >>= f) (P ∧ Q)
  | weaken {β : Type} {m : LowerM α ν σ β} {P Q : Prop} : (P → Q) → Scoped c S m P → Scoped c S m Q

end LowerM

open LowerM

/-- The handles and the memo are as the scope has it. -/
structure Scope.Fits (S : Scope α) (s : LoweringState ν σ) : Prop where
  handle {v : VarId} : s.handle? v ≠ none → S.handle v
  assumed {v : VarId} : S.assumed v → s.handle? v ≠ none
  lowered {id : NodeId} : S.node id → s.memo? id ≠ none → S.lowered id

/-- The states are the same but for entries of the memo for nodes outside the scope. -/
structure SameWithin (S : Scope α) (s s' : LoweringState ν σ) : Prop where
  eq : s' = { s with memo := s'.memo }
  memo {id : NodeId} : S.node id → s'.memo? id = s.memo? id

section

variable {S : Scope α} {s s' : LoweringState ν σ}

/-- A change that concerns neither the handles nor the memo. -/
theorem Scope.Fits.congr (h : S.Fits s) (hhandles : s'.handles = s.handles) (hmemo : s'.memo = s.memo) :
    S.Fits s' where
  handle hv := h.handle (by simpa [LoweringState.handle?, hhandles] using hv)
  assumed hv := by simpa [LoweringState.handle?, hhandles] using h.assumed hv
  lowered hid hm := h.lowered hid (by simpa [LoweringState.memo?, hmemo] using hm)

theorem Scope.Fits.enter (h : S.Fits s) {id : NodeId} (k : Handle ν) (hid : S.lowered id) :
    S.Fits { s with memo := (id, k) :: s.memo } where
  handle := h.handle
  assumed := h.assumed
  lowered {id'} hnode hm := by
    rw [memo?_cons] at hm
    split at hm
    · rename_i heq
      exact heq ▸ hid
    · exact h.lowered hnode hm

theorem SameWithin.refl (S : Scope α) (s : LoweringState ν σ) : SameWithin S s s := ⟨rfl, fun _ => rfl⟩

/-- States that two states in the relation turn into, if the same is done to both and their memos stay
as they are. -/
theorem SameWithin.change {t t' : LoweringState ν σ} (h : SameWithin S s s')
    (heq : t' = { t with memo := s'.memo }) (hmemo : t.memo = s.memo) : SameWithin S t t' := by
  subst heq
  refine ⟨rfl, fun {id} hid => ?_⟩
  simpa only [LoweringState.memo?, hmemo] using h.memo hid

/-- An entry for one node is made in both. -/
theorem SameWithin.enter (h : SameWithin S s s') (id : NodeId) (k : Handle ν) :
    SameWithin S { s with memo := (id, k) :: s.memo } { s' with memo := (id, k) :: s'.memo } := by
  constructor
  · dsimp only
    rw [h.eq]
  · intro id' hid
    rw [memo?_cons, memo?_cons, h.memo hid]

end

namespace LowerM

variable {c : Context α} {S : Scope α} {m : LowerM α ν σ β} {P : Prop}
  {s s' : LoweringState ν σ}

/-- What a computation in the scope makes of a state that fits it, where `P` holds if it returns. -/
structure Sound (S : Scope α) (P : Prop) (s : LoweringState ν σ)
    (o : Except (LoweringError α) β × LoweringState ν σ) : Prop where
  fits : S.Fits o.2
  handles : o.2.handles = s.handles
  returned {x : β} : o.1 = .ok x → P
  failed {e : LoweringError α} : o.1 = .error e → S.error e

/-- A step that returns and concerns neither the handles nor the memo. -/
theorem sound_step {x : β} (hs : S.Fits s) (hP : P) (hhandles : s'.handles = s.handles)
    (hmemo : s'.memo = s.memo) : Sound S P s (.ok x, s') where
  fits := hs.congr hhandles hmemo
  handles := hhandles
  returned _ := hP
  failed he := by cases he

theorem sound_fail {e : LoweringError α} (he : S.error e) (hs : S.Fits s) :
    Sound (β := β) S P s (.error e, s) where
  fits := hs
  handles := rfl
  returned hx := by cases hx
  failed he' := by
    cases he'
    exact he

theorem Sound.bind {f : β → LowerM α ν σ γ} {Q : Prop} (hm : Sound S P s (m.run.run s))
    (hf : ∀ x s, S.Fits s → Sound S Q s ((f x).run.run s)) :
    Sound S (P ∧ Q) s ((m >>= f).run.run s) := by
  rcases hrun : m.run.run s with ⟨e | x, s₁⟩
  · rw [hrun] at hm
    rw [run_bind_of_error hrun]
    exact {
      fits := hm.fits
      handles := hm.handles
      returned hx := by cases hx
      failed he := hm.failed (by cases he; rfl) }
  · rw [hrun] at hm
    rw [run_bind_of_ok hrun]
    have hrest := hf x s₁ hm.fits
    exact ⟨hrest.fits, hrest.handles.trans hm.handles, fun hx => ⟨hm.returned rfl, hrest.returned hx⟩,
      hrest.failed⟩

/-- A node that is looked up in the memo, or else lowered and entered. -/
theorem sound_memoized {id : NodeId} {run : LowerM α ν σ (Handle ν)} (hnode : S.node id)
    (hP : P ↔ S.lowered id) (hs : S.Fits s) (hrun : Sound S P s (run.run.run s)) :
    Sound S P s ((Backend.memoized id run).run.run s) := by
  unfold Backend.memoized
  rw [run_get_bind]
  rcases hm : s.memo? id with _ | h <;> unfold LoweringState.memo? at hm <;> rw [hm]
  · dsimp only
    rcases hr : run.run.run s with ⟨e | x, s₁⟩
    · rw [hr] at hrun
      rw [run_bind_of_error hr]
      exact hrun
    · rw [hr] at hrun
      rw [run_bind_of_ok hr]
      exact {
        fits := hrun.fits.enter x (hP.mp (hrun.returned rfl))
        handles := hrun.handles
        returned _ := hrun.returned rfl
        failed he := by cases he }
  · have hfound : s.memo? id ≠ none := by simp [LoweringState.memo?, hm]
    exact sound_step hs (hP.mpr (hs.lowered hnode hfound)) rfl rfl

theorem sound_variableHandle (hs : S.Fits s) (v : VarId) :
    Sound S (S.handle v) s ((Backend.variableHandle c v : LowerM α ν σ (Handle ν)).run.run s) := by
  unfold Backend.variableHandle
  rw [run_get_bind]
  rcases hv : s.handle? v with _ | h <;> unfold LoweringState.handle? at hv <;> rw [hv]
  · exact sound_fail (S.proper trivial) hs
  · exact sound_step hs (hs.handle (by simp [LoweringState.handle?, hv])) rfl rfl

variable [Scalar α]

theorem sound_assumedHandle (hs : S.Fits s) {v : VarId} (hv : S.Takes v) :
    Sound S (S.handle v) s ((Backend.assumedHandle c v : LowerM α ν σ (Handle ν)).run.run s) := by
  unfold Backend.assumedHandle
  rw [run_get_bind]
  rcases hh : s.handle? v with _ | h <;> unfold LoweringState.handle? at hh <;> rw [hh]
  · have hraised := hv.resolve_left fun h => hs.assumed h hh
    dsimp only
    cases c.workspace.variableDescription v with
    | ok text => exact sound_fail (hraised text) hs
    | error f => exact sound_fail (S.proper trivial) hs
  · exact sound_step hs (hs.handle (by simp [LoweringState.handle?, hh])) rfl rfl

/-- What is returned was looked up where `P` says so, and what is raised is allowed. -/
theorem Scoped.sound (h : Scoped c S m P) (hs : S.Fits s) : Sound S P s (m.run.run s) := by
  induction h generalizing s with
  | pure x => exact sound_step hs trivial rfl rfl
  | fail he => exact sound_fail he hs
  | getSolver => exact sound_step hs trivial rfl rfl
  | modifySolver f => exact sound_step hs trivial rfl rfl
  | freshHandle => exact sound_step hs trivial rfl rfl
  | auxiliaryName hint => exact sound_step hs trivial rfl rfl
  | recordViolated text => exact sound_step hs trivial rfl rfl
  | line text => exact sound_step hs trivial rfl rfl
  | variableHandle v => exact sound_variableHandle hs v
  | assumedHandle hv => exact sound_assumedHandle hs hv
  | memoized hnode hP _ ih => exact sound_memoized hnode hP hs (ih hs)
  | bind _ _ ihm ihf => exact (ihm hs).bind fun x s hs => ihf x hs
  | weaken hPQ _ ih =>
    obtain ⟨hfits, hhandles, hreturned, hfailed⟩ := ih hs
    exact ⟨hfits, hhandles, fun hx => hPQ (hreturned hx), hfailed⟩

/-! ### Two states -/

/-- What a computation in the scope does is the same whatever the memo has for other nodes. -/
theorem Scoped.inStep (h : Scoped c S m P) : InStep (SameWithin S) m m := by
  induction h with
  | pure x => exact inStep_pure x
  | fail _ => exact inStep_throw _
  | getSolver =>
    refine inStep_look fun s s' h => ?_
    rw [h.eq]
    exact inStep_pure _
  | modifySolver f => exact inStep_modify fun _ _ h => h.change (by rw [h.eq]) rfl
  | freshHandle =>
    intro s s' h
    exact ⟨by rw [h.eq]; rfl, h.change (by rw [h.eq]; rfl) rfl⟩
  | auxiliaryName hint =>
    intro s s' h
    exact ⟨by rw [h.eq]; rfl, h.change (by rw [h.eq]; rfl) rfl⟩
  | recordViolated text => exact inStep_modify fun _ _ h => h.change (by rw [h.eq]) rfl
  | line text => exact inStep_modify fun _ _ h => h.change (by rw [h.eq]) rfl
  | variableHandle v =>
    refine inStep_look fun s s' h => ?_
    rw [h.eq]
    dsimp only
    split
    · exact inStep_pure _
    · exact inStep_throw _
  | @assumedHandle v _ =>
    refine inStep_look fun s s' h => ?_
    rw [h.eq]
    dsimp only
    split
    · exact inStep_pure _
    · cases c.workspace.variableDescription v with
      | ok text => exact inStep_throw _
      | error f => exact inStep_throw _
  | @memoized id run P hnode _ _ ih =>
    refine inStep_look fun s s' h => ?_
    have hm := h.memo hnode
    unfold LoweringState.memo? at hm
    rw [hm]
    split
    · exact inStep_pure _
    · refine inStep_bind ih fun x => inStep_bind (inStep_modify fun s s' h => ?_) fun _ => inStep_pure _
      exact h.enter id x
  | bind _ _ ihm ihf => exact inStep_bind ihm ihf
  | weaken _ _ ih => exact ih

/-! ### Composition -/

/-- The computation stays in the scope, and nothing is claimed of it where it returns. -/
abbrev Plain (c : Context α) (S : Scope α) (m : LowerM α ν σ β) : Prop := Scoped c S m True

theorem Scoped.plain (h : Scoped c S m P) : Plain c S m := .weaken (fun _ => trivial) h

theorem scoped_fail {e : LoweringError α} (he : e.IsProper) :
    Scoped c S (fail e : LowerM α ν σ β) P := .weaken False.elim (.fail (S.proper he))

section

variable {Q : Prop} {f : β → LowerM α ν σ γ}

/-- What the first step tells stays true. -/
theorem Scoped.first (hm : Scoped c S m P) (hf : ∀ x, Plain c S (f x)) : Scoped c S (m >>= f) P :=
  .weaken And.left (.bind hm hf)

/-- What the second step tells. -/
theorem Plain.second (hm : Plain c S m) (hf : ∀ x, Scoped c S (f x) Q) : Scoped c S (m >>= f) Q :=
  .weaken And.right (.bind hm hf)

theorem plain_bind (hm : Plain c S m) (hf : ∀ x, Plain c S (f x)) : Plain c S (m >>= f) :=
  hm.second hf

end

theorem scoped_ite {p : Prop} [Decidable p] {m₁ m₂ : LowerM α ν σ β} (h₁ : Scoped c S m₁ P)
    (h₂ : Scoped c S m₂ P) : Scoped c S (if p then m₁ else m₂) P := by
  split
  · exact h₁
  · exact h₂

/-- A step that is taken under a condition only, and what follows it. -/
theorem scoped_when {p : Prop} [Decidable p] {m : LowerM α ν σ PUnit} {f : PUnit → LowerM α ν σ β}
    (hm : Plain c S m) (hf : Scoped c S (f ⟨⟩) P) :
    Scoped c S (if p then m >>= f else f ⟨⟩) P := scoped_ite (hm.second fun _ => hf) hf

/-- The same for a step that first takes another one. -/
theorem scoped_whenAfter {δ : Type} {p : Prop} [Decidable p] {m : LowerM α ν σ δ}
    {g : δ → LowerM α ν σ PUnit} {f : PUnit → LowerM α ν σ β} (hm : Plain c S m)
    (hg : ∀ x, Plain c S (g x)) (hf : Scoped c S (f ⟨⟩) P) :
    Scoped c S (if p then m >>= fun x => g x >>= f else f ⟨⟩) P :=
  scoped_ite (hm.second fun x => (hg x).second fun _ => hf) hf

/-- Steps over a list, and what each of them tells. -/
theorem scoped_mapM {f : β → LowerM α ν σ γ} {P : β → Prop} {xs : List β}
    (hf : ∀ x ∈ xs, Scoped c S (f x) (P x)) : Scoped c S (xs.mapM f) (∀ x ∈ xs, P x) := by
  induction xs with
  | nil => exact .weaken (fun _ _ hx => absurd hx List.not_mem_nil) (.pure [])
  | cons x xs ih =>
    rw [List.mapM_cons]
    have hrest := ih fun y hy => hf y (List.mem_cons_of_mem x hy)
    refine .weaken (fun h y hy => ?_) (.bind (hf x List.mem_cons_self) fun _ => hrest.first fun _ => .pure _)
    rcases List.mem_cons.mp hy with rfl | hy
    · exact h.1
    · exact h.2 y hy

theorem plain_mapM {f : β → LowerM α ν σ γ} {xs : List β} (hf : ∀ x ∈ xs, Plain c S (f x)) :
    Plain c S (xs.mapM f) := (scoped_mapM hf).plain

theorem scoped_foldlM {f : γ → β → LowerM α ν σ γ} {P : β → Prop} {xs : List β}
    (hf : ∀ y, ∀ x ∈ xs, Scoped c S (f y x) (P x)) (y : γ) :
    Scoped c S (xs.foldlM f y) (∀ x ∈ xs, P x) := by
  induction xs generalizing y with
  | nil => exact .weaken (fun _ _ hx => absurd hx List.not_mem_nil) (.pure _)
  | cons x xs ih =>
    rw [List.foldlM_cons]
    refine .weaken (fun h z hz => ?_) (.bind (hf y x List.mem_cons_self) fun z =>
      ih (fun y z hz => hf y z (List.mem_cons_of_mem x hz)) z)
    rcases List.mem_cons.mp hz with rfl | hz
    · exact h.1
    · exact h.2 z hz

theorem plain_foldlM {f : γ → β → LowerM α ν σ γ} {xs : List β}
    (hf : ∀ y, ∀ x ∈ xs, Plain c S (f y x)) (y : γ) : Plain c S (xs.foldlM f y) :=
  (scoped_foldlM hf y).plain

theorem plain_forM {f : β → LowerM α ν σ PUnit} {xs : List β} (hf : ∀ x ∈ xs, Plain c S (f x)) :
    Plain c S (xs.forM f) := by
  induction xs with
  | nil => exact .pure _
  | cons x xs ih =>
    refine plain_bind (hf x List.mem_cons_self) fun _ => ?_
    exact ih fun y hy => hf y (List.mem_cons_of_mem x hy)

/-! ### Steps -/

theorem plain_lift (r : Except Fault β) : Plain c S (lift r : LowerM α ν σ β) := by
  cases r with
  | ok x => exact .pure x
  | error f => exact scoped_fail trivial

theorem plain_leaf (name : String) (integral : Bool) :
    Plain c S (leaf name integral : LowerM α ν σ (Handle ν)) :=
  plain_bind .freshHandle fun _ => .pure _

theorem plain_node (f : SolverFunction) (args : List (Handle ν)) :
    Plain c S (node f args : LowerM α ν σ (Handle ν)) :=
  plain_bind .freshHandle fun _ => .pure _

theorem plain_log (k : Config α) (level : Int) (line : Except Fault String) :
    Plain c S (log k level line : LowerM α ν σ Unit) :=
  plain_bind (plain_lift line) fun text => scoped_ite (.line text) (.pure _)

theorem plain_collection (key : Int) : Plain c S (c.collection key : LowerM α ν σ (List α)) := by
  unfold Context.collection
  split
  · exact plain_lift _
  · exact scoped_fail trivial

theorem plain_binary (f : ν → ν → ν) (symbol : SolverFunction) (x y : Handle ν) :
    Plain c S (binary f symbol x y : LowerM α ν σ (Handle ν)) := by
  unfold binary
  split
  · exact .pure _
  · exact plain_node _ _

variable [Numeral ν]

theorem plain_add (x y : Handle ν) : Plain c S (add x y : LowerM α ν σ (Handle ν)) :=
  plain_binary _ _ x y

theorem plain_sub (x y : Handle ν) : Plain c S (sub x y : LowerM α ν σ (Handle ν)) :=
  plain_binary _ _ x y

theorem plain_mul (x y : Handle ν) : Plain c S (mul x y : LowerM α ν σ (Handle ν)) :=
  plain_binary _ _ x y

theorem plain_neg (x : Handle ν) : Plain c S (neg x : LowerM α ν σ (Handle ν)) := by
  unfold neg
  split
  · exact .pure _
  · exact plain_node _ _

end LowerM

end DecisionModel
