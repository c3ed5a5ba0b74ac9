import Mathlib.Data.List.Forall2
import DecisionModel.Lowering.Walk

/-!
# Runs of lowering

`LowerM.Runs m s x s'` says that `m`, run from the state `s`, returns `x` and ends in `s'`. A
computation that fails has no such run. The lemmas here take a run of a compound computation apart
into the runs of its steps: one for each way of combining steps (`runs_bind`, `runs_mapM_cons`,
`runs_foldlM_cons`, ...) and one for each primitive of `LowerM` (`runs_leaf`, `runs_node`, ...).
-/

namespace DecisionModel

theorem eq_ok_of_toOption {ε β : Type} {o : Except ε β} {x : β} (h : o.toOption = some x) :
    o = .ok x := by
  cases o with
  | error e => cases h
  | ok y => exact congrArg _ (Option.some.inj h)

namespace LowerM

variable {α ν σ β γ : Type}

/-- `m` returns `x` from `s` and ends in `s'`. -/
def Runs (m : LowerM α ν σ β) (s : LoweringState ν σ) (x : β) (s' : LoweringState ν σ) : Prop :=
  (m.run.run s) = (.ok x, s')

variable {s s' : LoweringState ν σ}

/-- A computation that does not fail runs. -/
theorem runs_of_toOption {m : LowerM α ν σ β} {x : β} (h : (m.run.run s).1.toOption = some x) :
    Runs m s x (m.run.run s).2 := Prod.ext (eq_ok_of_toOption h) rfl

/-- A run has one result. -/
theorem runs_unique {m : LowerM α ν σ β} {x y : β} {s₁ s₂ : LoweringState ν σ} (h₁ : Runs m s x s₁)
    (h₂ : Runs m s y s₂) : x = y ∧ s₁ = s₂ := by
  have h : (Except.ok x, s₁) = (Except.ok y, s₂) := h₁.symm.trans h₂
  exact ⟨Except.ok.inj (Prod.mk.inj h).1, (Prod.mk.inj h).2⟩

@[simp] theorem runs_pure {x y : β} :
    Runs (pure x : LowerM α ν σ β) s y s' ↔ x = y ∧ s = s' := by
  constructor
  · intro h
    cases h
    exact ⟨rfl, rfl⟩
  · rintro ⟨rfl, rfl⟩
    rfl

@[simp] theorem runs_throw {e : LoweringError α} {y : β} :
    ¬ Runs (throw e : LowerM α ν σ β) s y s' := by
  intro h
  cases h

@[simp] theorem runs_fail {e : LoweringError α} {y : β} :
    ¬ Runs (fail e : LowerM α ν σ β) s y s' := runs_throw

theorem runs_bind {m : LowerM α ν σ β} {f : β → LowerM α ν σ γ} {y : γ} :
    Runs (m >>= f) s y s' ↔ ∃ x s₁, Runs m s x s₁ ∧ Runs (f x) s₁ y s' := by
  simp only [Runs, ExceptT.run_bind, StateT.run_bind]
  rcases h : m.run.run s with ⟨x | x, s₁⟩
  · constructor
    · intro hr
      cases hr
    · rintro ⟨x, s₂, h₁, -⟩
      cases h₁
  · constructor
    · intro hr
      exact ⟨x, s₁, rfl, hr⟩
    · rintro ⟨x', s₂, h₁, h₂⟩
      cases h₁
      exact h₂

/-- One step after the other. -/
theorem runs_seq {m₁ m₂ : LowerM α ν σ Unit} {s₁ : LoweringState ν σ} (h₁ : Runs m₁ s () s₁)
    (h₂ : Runs m₂ s₁ () s') : Runs (do m₁; m₂) s () s' := runs_bind.mpr ⟨(), s₁, h₁, h₂⟩

@[simp] theorem runs_map {m : LowerM α ν σ β} {f : β → γ} {y : γ} :
    Runs (f <$> m) s y s' ↔ ∃ x, Runs m s x s' ∧ f x = y := by
  rw [← bind_pure_comp, runs_bind]
  constructor
  · rintro ⟨x, s₁, h, hp⟩
    obtain ⟨rfl, rfl⟩ := runs_pure.mp hp
    exact ⟨x, h, rfl⟩
  · rintro ⟨x, h, rfl⟩
    exact ⟨x, s', h, runs_pure.mpr ⟨rfl, rfl⟩⟩

@[simp] theorem runs_get {x : LoweringState ν σ} :
    Runs (get : LowerM α ν σ (LoweringState ν σ)) s x s' ↔ x = s ∧ s' = s := by
  constructor
  · intro h
    cases h
    exact ⟨rfl, rfl⟩
  · rintro ⟨rfl, rfl⟩
    rfl

@[simp] theorem runs_set {t : LoweringState ν σ} {u : PUnit} :
    Runs (set t : LowerM α ν σ PUnit) s u s' ↔ s' = t := by
  constructor
  · intro h
    cases h
    rfl
  · rintro rfl
    rfl

@[simp] theorem runs_modify {f : LoweringState ν σ → LoweringState ν σ} {u : PUnit} :
    Runs (modify f : LowerM α ν σ PUnit) s u s' ↔ s' = f s := by
  constructor
  · intro h
    cases h
    rfl
  · rintro rfl
    rfl

@[simp] theorem runs_lift {r : Except Fault β} {x : β} :
    Runs (lift r : LowerM α ν σ β) s x s' ↔ r = .ok x ∧ s' = s := by
  cases r with
  | ok y => simp [lift, eq_comm]
  | error f => simp [lift]

/-! ### The primitives -/

@[simp] theorem runs_getSolver {x : σ} :
    Runs (getSolver : LowerM α ν σ σ) s x s' ↔ x = s.solver ∧ s' = s := by
  simp only [getSolver, runs_bind, runs_get, runs_pure]
  constructor
  · rintro ⟨_, _, ⟨rfl, rfl⟩, rfl, rfl⟩
    exact ⟨rfl, rfl⟩
  · rintro ⟨rfl, rfl⟩
    exact ⟨_, _, ⟨rfl, rfl⟩, rfl, rfl⟩

@[simp] theorem runs_modifySolver {f : σ → σ} {u : Unit} :
    Runs (modifySolver f : LowerM α ν σ Unit) s u s' ↔ s' = { s with solver := f s.solver } :=
  runs_modify

theorem runs_leaf {name : String} {integral : Bool} {h : Handle ν} :
    Runs (leaf name integral : LowerM α ν σ (Handle ν)) s h s' ↔
      h = .leaf ⟨s.nextHandle⟩ name integral ∧ s' = { s with nextHandle := s.nextHandle + 1 } := by
  constructor
  · intro h
    cases h
    exact ⟨rfl, rfl⟩
  · rintro ⟨rfl, rfl⟩
    rfl

theorem runs_node {f : SolverFunction} {args : List (Handle ν)} {h : Handle ν} :
    Runs (node f args : LowerM α ν σ (Handle ν)) s h s' ↔
      h = .node ⟨s.nextHandle⟩ f args ∧ s' = { s with nextHandle := s.nextHandle + 1 } := by
  constructor
  · intro h
    cases h
    exact ⟨rfl, rfl⟩
  · rintro ⟨rfl, rfl⟩
    rfl

theorem runs_auxiliaryName {hint name : String} :
    Runs (auxiliaryName hint : LowerM α ν σ String) s name s' ↔
      name = hint ++ "#" ++ toString (s.auxiliaries + 1) ∧
        s' = { s with auxiliaries := s.auxiliaries + 1 } := by
  constructor
  · intro h
    cases h
    exact ⟨rfl, rfl⟩
  · rintro ⟨rfl, rfl⟩
    rfl

theorem runs_log {config : Config α} {level : Int} {line : Except Fault String} {u : Unit} :
    Runs (log config level line : LowerM α ν σ Unit) s u s' ↔
      ∃ text, line = .ok text ∧
        s' = if level ≤ config.verbosity then { s with log := s.log ++ [text] } else s := by
  unfold log
  simp only [runs_bind, runs_lift]
  constructor
  · rintro ⟨text, _, ⟨rfl, rfl⟩, h⟩
    refine ⟨text, rfl, ?_⟩
    split at h
    · rw [runs_modify.mp h, if_pos ‹_›]
    · rw [(runs_pure.mp h).2, if_neg ‹_›]
  · rintro ⟨text, rfl, rfl⟩
    refine ⟨text, s, ⟨rfl, rfl⟩, ?_⟩
    split
    · exact runs_modify.mpr rfl
    · exact runs_pure.mpr ⟨rfl, rfl⟩

theorem runs_recordViolated {text : String} {u : Unit} :
    Runs (recordViolated text : LowerM α ν σ Unit) s u s' ↔
      s' = { s with violated := s.violated ++ [text] } := runs_modify

/-! ### Lists of steps -/

@[simp] theorem runs_mapM_nil {f : β → LowerM α ν σ γ} {ys : List γ} :
    Runs (([] : List β).mapM f) s ys s' ↔ ys = [] ∧ s' = s := by
  simp [eq_comm]

theorem runs_mapM_cons {f : β → LowerM α ν σ γ} {x : β} {xs : List β} {ys : List γ} :
    Runs ((x :: xs).mapM f) s ys s' ↔
      ∃ y s₁ zs, Runs (f x) s y s₁ ∧ Runs (xs.mapM f) s₁ zs s' ∧ ys = y :: zs := by
  simp only [List.mapM_cons, runs_bind, runs_pure]
  constructor
  · rintro ⟨y, s₁, h₁, zs, s₂, h₂, rfl, rfl⟩
    exact ⟨y, s₁, zs, h₁, h₂, rfl⟩
  · rintro ⟨y, s₁, zs, h₁, h₂, rfl⟩
    exact ⟨y, s₁, h₁, zs, s', h₂, rfl, rfl⟩

/-- Steps that leave the state as it is, over a list. -/
theorem runs_mapM_pure {f : β → LowerM α ν σ γ} {P : β → γ → Prop} {xs : List β} {ys : List γ}
    (hf : ∀ x ∈ xs, ∀ y s', Runs (f x) s y s' → s' = s ∧ P x y) (h : Runs (xs.mapM f) s ys s') :
    s' = s ∧ List.Forall₂ P xs ys := by
  induction xs generalizing ys with
  | nil =>
    obtain ⟨rfl, rfl⟩ := runs_mapM_nil.mp h
    exact ⟨rfl, .nil⟩
  | cons x xs ih =>
    obtain ⟨y, s₁, zs, h₁, h₂, rfl⟩ := runs_mapM_cons.mp h
    obtain ⟨rfl, hP⟩ := hf x (by simp) y s₁ h₁
    obtain ⟨rfl, hPs⟩ := ih (fun z hz => hf z (by simp [hz])) h₂
    exact ⟨rfl, .cons hP hPs⟩

theorem length_of_runs_mapM {f : β → LowerM α ν σ γ} {xs : List β} {ys : List γ}
    (h : Runs (xs.mapM f) s ys s') : ys.length = xs.length := by
  induction xs generalizing s ys with
  | nil =>
    obtain ⟨rfl, -⟩ := runs_mapM_nil.mp h
    rfl
  | cons x xs ih =>
    obtain ⟨y, s₁, zs, -, h₂, rfl⟩ := runs_mapM_cons.mp h
    rw [List.length_cons, List.length_cons, ih h₂]

/-- What holds of the result of each step, over a list. -/
theorem forall_of_runs_mapM {f : β → LowerM α ν σ γ} {Q : γ → Prop} {xs : List β} {ys : List γ}
    (hf : ∀ x s y s', Runs (f x) s y s' → Q y) (h : Runs (xs.mapM f) s ys s') : ∀ y ∈ ys, Q y := by
  induction xs generalizing s ys with
  | nil =>
    obtain ⟨rfl, -⟩ := runs_mapM_nil.mp h
    simp
  | cons x xs ih =>
    obtain ⟨y, s₁, zs, h₁, h₂, rfl⟩ := runs_mapM_cons.mp h
    intro z hz
    rcases List.mem_cons.mp hz with rfl | hz
    · exact hf x s z s₁ h₁
    · exact ih h₂ z hz

@[simp] theorem runs_foldlM_nil {f : γ → β → LowerM α ν σ γ} {y z : γ} :
    Runs (([] : List β).foldlM f y) s z s' ↔ y = z ∧ s = s' := by
  simp

theorem runs_foldlM_cons {f : γ → β → LowerM α ν σ γ} {x : β} {xs : List β} {y z : γ} :
    Runs ((x :: xs).foldlM f y) s z s' ↔
      ∃ y' s₁, Runs (f y x) s y' s₁ ∧ Runs (xs.foldlM f y') s₁ z s' := by
  simp only [List.foldlM_cons, runs_bind]

@[simp] theorem runs_forM_nil {f : β → LowerM α ν σ PUnit} {u : PUnit} :
    Runs (([] : List β).forM f) s u s' ↔ s' = s := by
  simp [eq_comm]

theorem runs_forM_cons {f : β → LowerM α ν σ PUnit} {x : β} {xs : List β} {u : PUnit} :
    Runs ((x :: xs).forM f) s u s' ↔
      ∃ s₁, Runs (f x) s ⟨⟩ s₁ ∧ Runs (xs.forM f) s₁ ⟨⟩ s' := by
  change Runs (f x >>= fun _ => xs.forM f) s u s' ↔ _
  rw [runs_bind]
  constructor
  · rintro ⟨_, s₁, h₁, h₂⟩
    exact ⟨s₁, h₁, h₂⟩
  · rintro ⟨s₁, h₁, h₂⟩
    exact ⟨_, s₁, h₁, h₂⟩

end LowerM

end DecisionModel
