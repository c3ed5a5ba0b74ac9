import DecisionModel.Proofs.Keeps

/-!
# Computations in step

`InStep S m m'` says that `m` and `m'`, run from states that `S` relates, give the same result, be it an
error, and end in states that `S` relates. Where `m` and `m'` are the same computation, it does not
depend on what `S` leaves open. As for `Keeps` there is one lemma for each way of combining steps. Of
two computations in step, each may take steps that the other does not take, if they are `Unseen`; or they
are in step from two given states only (`InStepAt`).
-/

namespace DecisionModel

variable {ε τ β γ : Type} {S : τ → τ → Prop}

/-- From related states the two computations give the same result and end in related states. -/
def InStep (S : τ → τ → Prop) (m m' : ExceptT ε (StateM τ) β) : Prop :=
  ∀ s s', S s s' → (m'.run.run s').1 = (m.run.run s).1 ∧ S (m.run.run s).2 (m'.run.run s').2

theorem inStep_pure (x : β) : InStep S (pure x : ExceptT ε (StateM τ) β) (pure x) :=
  fun _ _ h => ⟨rfl, h⟩

theorem inStep_throw (e : ε) : InStep S (throw e : ExceptT ε (StateM τ) β) (throw e) :=
  fun _ _ h => ⟨rfl, h⟩

/-- From the two states the two computations give the same result and end in states that `R` relates. -/
def InStepAt (R : τ → τ → Prop) (s s' : τ) (m m' : ExceptT ε (StateM τ) β) : Prop :=
  (m'.run.run s').1 = (m.run.run s).1 ∧ R (m.run.run s).2 (m'.run.run s').2

/-- What follows needs to be in step only from the states in which the first steps end. -/
theorem InStepAt.bind {R T : τ → τ → Prop} {m m' : ExceptT ε (StateM τ) β}
    {f f' : β → ExceptT ε (StateM τ) γ} {s s' : τ} (hm : InStepAt R s s' m m')
    (herror : ∀ t t', R t t' → T t t') (hf : ∀ x t t', R t t' → InStepAt T t t' (f x) (f' x)) :
    InStepAt T s s' (m >>= f) (m' >>= f') := by
  obtain ⟨hresult, hstate⟩ := hm
  unfold InStepAt
  rcases hrun : m.run.run s with ⟨e | x, t⟩
  · have hrun' : m'.run.run s' = (.error e, (m'.run.run s').2) := Prod.ext (by rw [hresult, hrun]) rfl
    rw [run_bind_of_error hrun, run_bind_of_error hrun']
    rw [hrun] at hstate
    exact ⟨rfl, herror _ _ hstate⟩
  · have hrun' : m'.run.run s' = (.ok x, (m'.run.run s').2) := Prod.ext (by rw [hresult, hrun]) rfl
    rw [run_bind_of_ok hrun, run_bind_of_ok hrun']
    rw [hrun] at hstate
    exact hf x _ _ hstate

theorem inStep_bind {m m' : ExceptT ε (StateM τ) β} {f f' : β → ExceptT ε (StateM τ) γ}
    (hm : InStep S m m') (hf : ∀ x, InStep S (f x) (f' x)) : InStep S (m >>= f) (m' >>= f') :=
  fun s s' h => InStepAt.bind (hm s s' h) (fun _ _ h => h) hf

/-- A look at the state, and what follows it. -/
theorem inStep_look {f f' : τ → ExceptT ε (StateM τ) β}
    (hf : ∀ s s', S s s' → InStep S (f s) (f' s')) : InStep S (get >>= f) (get >>= f') :=
  fun s s' h => hf s s' h s s' h

theorem inStep_modify {f f' : τ → τ} (hf : ∀ s s', S s s' → S (f s) (f' s')) :
    InStep S (modify f : ExceptT ε (StateM τ) PUnit) (modify f') := fun s s' h => ⟨rfl, hf s s' h⟩

theorem inStep_ite {p : Prop} [Decidable p] {m₁ m₁' m₂ m₂' : ExceptT ε (StateM τ) β}
    (h₁ : InStep S m₁ m₁') (h₂ : InStep S m₂ m₂') :
    InStep S (if p then m₁ else m₂) (if p then m₁' else m₂') := by
  split
  · exact h₁
  · exact h₂

/-- A step that is taken under a condition only, and what follows it. -/
theorem inStep_when {p : Prop} [Decidable p] {m m' : ExceptT ε (StateM τ) PUnit}
    {f f' : PUnit → ExceptT ε (StateM τ) β} (hm : InStep S m m') (hf : InStep S (f ⟨⟩) (f' ⟨⟩)) :
    InStep S (if p then m >>= f else f ⟨⟩) (if p then m' >>= f' else f' ⟨⟩) :=
  inStep_ite (inStep_bind hm fun _ => hf) hf

/-- The same for a step that first takes another one. -/
theorem inStep_whenAfter {δ : Type} {p : Prop} [Decidable p] {m m' : ExceptT ε (StateM τ) δ}
    {g g' : δ → ExceptT ε (StateM τ) PUnit} {f f' : PUnit → ExceptT ε (StateM τ) β}
    (hm : InStep S m m') (hg : ∀ x, InStep S (g x) (g' x)) (hf : InStep S (f ⟨⟩) (f' ⟨⟩)) :
    InStep S (if p then m >>= fun x => g x >>= f else f ⟨⟩)
      (if p then m' >>= fun x => g' x >>= f' else f' ⟨⟩) :=
  inStep_ite (inStep_bind hm fun x => inStep_bind (hg x) fun _ => hf) hf

theorem inStep_mapM {f f' : β → ExceptT ε (StateM τ) γ} {xs : List β}
    (hf : ∀ x ∈ xs, InStep S (f x) (f' x)) : InStep S (xs.mapM f) (xs.mapM f') := by
  induction xs with
  | nil => exact inStep_pure _
  | cons x xs ih =>
    rw [List.mapM_cons, List.mapM_cons]
    refine inStep_bind (hf x List.mem_cons_self) fun _ => inStep_bind ?_ fun _ => inStep_pure _
    exact ih fun y hy => hf y (List.mem_cons_of_mem x hy)

theorem inStep_foldlM {f f' : γ → β → ExceptT ε (StateM τ) γ} {xs : List β}
    (hf : ∀ y, ∀ x ∈ xs, InStep S (f y x) (f' y x)) (y : γ) :
    InStep S (xs.foldlM f y) (xs.foldlM f' y) := by
  induction xs generalizing y with
  | nil => exact inStep_pure _
  | cons x xs ih =>
    rw [List.foldlM_cons, List.foldlM_cons]
    refine inStep_bind (hf y x List.mem_cons_self) fun z => ?_
    exact ih (fun y z hz => hf y z (List.mem_cons_of_mem x hz)) z

theorem inStep_forM {f f' : β → ExceptT ε (StateM τ) PUnit} {xs : List β}
    (hf : ∀ x ∈ xs, InStep S (f x) (f' x)) : InStep S (xs.forM f) (xs.forM f') := by
  induction xs with
  | nil => exact inStep_pure _
  | cons x xs ih =>
    refine inStep_bind (hf x List.mem_cons_self) fun _ => ?_
    exact ih fun y hy => hf y (List.mem_cons_of_mem x hy)

/-! ### Steps that only one of the two takes -/

/-- The step always succeeds, and what it does to the state is left open by `S`. -/
def Unseen (S : τ → τ → Prop) (m : ExceptT ε (StateM τ) PUnit) : Prop :=
  ∀ s, (m.run.run s).1 = .ok ⟨⟩ ∧ S s (m.run.run s).2

theorem unseen_modify {f : τ → τ} (hf : ∀ s, S s (f s)) :
    Unseen S (modify f : ExceptT ε (StateM τ) PUnit) := fun s => ⟨rfl, hf s⟩

section

variable [IsEquiv τ S]

theorem unseen_if {p : Prop} [Decidable p] {m : ExceptT ε (StateM τ) PUnit} (hm : Unseen S m) :
    Unseen S (if p then m else pure ⟨⟩) := by
  split
  · exact hm
  · exact fun s => ⟨rfl, keeps_refl s⟩

theorem inStep_of_unseen {m m' : ExceptT ε (StateM τ) PUnit} (hm : Unseen S m) (hm' : Unseen S m') :
    InStep S m m' := by
  intro s s' h
  refine ⟨(hm' s').1.trans (hm s).1.symm, ?_⟩
  exact keeps_trans (Std.Symm.symm s _ (hm s).2) (keeps_trans h (hm' s').2)

/-- Each of the two takes the step under a condition of its own. -/
theorem inStep_whenUnseen {p q : Prop} [Decidable p] [Decidable q] {m : ExceptT ε (StateM τ) PUnit}
    {f f' : PUnit → ExceptT ε (StateM τ) β} (hm : Unseen S m) (hf : InStep S (f ⟨⟩) (f' ⟨⟩)) :
    InStep S (if p then m >>= f else f ⟨⟩) (if q then m >>= f' else f' ⟨⟩) := by
  have hbind {p : Prop} [Decidable p] (f : PUnit → ExceptT ε (StateM τ) β) :
      (if p then m >>= f else f ⟨⟩) = (if p then m else pure ⟨⟩) >>= f := by
    split
    · rfl
    · rw [pure_bind]
  rw [hbind, hbind]
  exact inStep_bind (inStep_of_unseen (unseen_if hm) (unseen_if hm)) fun _ => hf

end

end DecisionModel
