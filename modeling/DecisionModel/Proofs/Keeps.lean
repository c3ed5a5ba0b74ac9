import Mathlib.Order.Defs.Unbundled

/-!
# What computations do to their state

Building and lowering run over a state that survives an error. `Keeps R m` says that, wherever `m` is
run from and whether it fails or not, the state it ends in is related by `R` to the one it starts in.
For a relation that is reflexive and transitive this follows along the structure of `m`: one lemma for
each way of combining steps.
-/

namespace DecisionModel

variable {ε τ β γ : Type} {R Q T : τ → τ → Prop}

/-! ### Runs of two steps -/

section

variable {m : ExceptT ε (StateM τ) β} {f : β → ExceptT ε (StateM τ) γ} {s s₁ s' : τ}

theorem run_bind_of_ok {x : β} (h : m.run.run s = (.ok x, s₁)) :
    (m >>= f).run.run s = (f x).run.run s₁ := by
  rw [ExceptT.run_bind, StateT.run_bind, h]
  rfl

theorem run_bind_of_error {e : ε} (h : m.run.run s = (.error e, s₁)) :
    (m >>= f).run.run s = (.error e, s₁) := by
  rw [ExceptT.run_bind, StateT.run_bind, h]
  rfl

/-- Where two steps return, the first one does. -/
theorem exists_of_run_bind {y : γ} (h : (m >>= f).run.run s = (.ok y, s')) :
    ∃ x s₁, m.run.run s = (.ok x, s₁) ∧ (f x).run.run s₁ = (.ok y, s') := by
  rcases hm : m.run.run s with ⟨e | x, s₁⟩
  · rw [run_bind_of_error hm] at h
    cases h
  · rw [run_bind_of_ok hm] at h
    exact ⟨x, s₁, rfl, h⟩

/-- Where two steps fail, the first one does, or the second one from where the first ended. -/
theorem failed_bind {e : ε} (h : (m >>= f).run.run s = (.error e, s')) :
    m.run.run s = (.error e, s') ∨
      ∃ x s₁, m.run.run s = (.ok x, s₁) ∧ (f x).run.run s₁ = (.error e, s') := by
  rcases hm : m.run.run s with ⟨e' | x, s₁⟩
  · rw [run_bind_of_error hm] at h
    cases h
    exact .inl rfl
  · rw [run_bind_of_ok hm] at h
    exact .inr ⟨x, s₁, rfl, h⟩

theorem run_get_bind {f : τ → ExceptT ε (StateM τ) β} :
    (get >>= f).run.run s = (f s).run.run s := rfl

end

/-! ### Relations of states -/

/-- `R` relates the state that `m` starts in to the one it ends in. -/
def Keeps (R : τ → τ → Prop) (m : ExceptT ε (StateM τ) β) : Prop := ∀ s, R s (m.run.run s).2

theorem Keeps.mono {m : ExceptT ε (StateM τ) β} (h : Keeps R m) (hRQ : ∀ s s', R s s' → Q s s') :
    Keeps Q m := fun s => hRQ s _ (h s)

/-- Two steps that are related differently. The second is not taken if the first fails. -/
theorem keeps_bind_of {m : ExceptT ε (StateM τ) β} {f : β → ExceptT ε (StateM τ) γ} (hm : Keeps R m)
    (hf : ∀ x, Keeps Q (f x)) (hfirst : ∀ s s', R s s' → T s s')
    (hboth : ∀ s s₁ s', R s s₁ → Q s₁ s' → T s s') : Keeps T (m >>= f) := by
  intro s
  have h₁ := hm s
  rw [ExceptT.run_bind, StateT.run_bind]
  rcases hrun : m.run.run s with ⟨x | x, s₁⟩
  · rw [hrun] at h₁
    exact hfirst s s₁ h₁
  · rw [hrun] at h₁
    exact hboth s s₁ _ h₁ (hf x s₁)

/-- A look at the state, and what follows it. -/
theorem keeps_get {f : τ → ExceptT ε (StateM τ) β} (hf : ∀ s, R s ((f s).run.run s).2) :
    Keeps R (get >>= f) := hf

/-- The same where what follows keeps `R` from any state. -/
theorem keeps_look {f : τ → ExceptT ε (StateM τ) β} (hf : ∀ s, Keeps R (f s)) : Keeps R (get >>= f) :=
  keeps_get fun s => hf s s

theorem keeps_modify {f : τ → τ} (hf : ∀ s, R s (f s)) :
    Keeps R (modify f : ExceptT ε (StateM τ) PUnit) := hf

theorem keeps_ite {p : Prop} [Decidable p] {m₁ m₂ : ExceptT ε (StateM τ) β} (h₁ : Keeps R m₁)
    (h₂ : Keeps R m₂) : Keeps R (if p then m₁ else m₂) := by
  split
  · exact h₁
  · exact h₂

variable [IsPreorder τ R]

theorem keeps_refl (s : τ) : R s s := Std.Refl.refl s

theorem keeps_trans {s₁ s₂ s₃ : τ} (h₁ : R s₁ s₂) (h₂ : R s₂ s₃) : R s₁ s₃ :=
  IsTrans.trans s₁ s₂ s₃ h₁ h₂

theorem keeps_pure (x : β) : Keeps R (pure x : ExceptT ε (StateM τ) β) := fun s => keeps_refl s

theorem keeps_throw (e : ε) : Keeps R (throw e : ExceptT ε (StateM τ) β) := fun s => keeps_refl s

theorem keeps_bind {m : ExceptT ε (StateM τ) β} {f : β → ExceptT ε (StateM τ) γ} (hm : Keeps R m)
    (hf : ∀ x, Keeps R (f x)) : Keeps R (m >>= f) :=
  keeps_bind_of hm hf (fun _ _ h => h) fun _ _ _ => keeps_trans

/-- Two steps that keep `R` together, and a third that may use the results of both. -/
theorem keeps_bind_both {δ : Type} {m : ExceptT ε (StateM τ) β} {f : β → ExceptT ε (StateM τ) γ}
    {g : β → γ → ExceptT ε (StateM τ) δ} (hmf : Keeps R (m >>= f)) (hg : ∀ x y, Keeps R (g x y)) :
    Keeps R (m >>= fun x => f x >>= g x) := by
  intro s
  have hs := hmf s
  rcases hm : m.run.run s with ⟨e | x, s₁⟩
  · rw [run_bind_of_error hm] at hs ⊢
    exact hs
  rw [run_bind_of_ok hm] at hs ⊢
  rcases hf : (f x).run.run s₁ with ⟨e | y, s₂⟩ <;> rw [hf] at hs
  · rw [run_bind_of_error hf]
    exact hs
  · rw [run_bind_of_ok hf]
    exact keeps_trans hs (hg x y s₂)

theorem keeps_map {m : ExceptT ε (StateM τ) β} {f : β → γ} (hm : Keeps R m) : Keeps R (f <$> m) := by
  rw [← bind_pure_comp]
  exact keeps_bind hm fun _ => keeps_pure _

/-- A step that is taken under a condition only, and what follows it. -/
theorem keeps_when {p : Prop} [Decidable p] {m : ExceptT ε (StateM τ) PUnit}
    {f : PUnit → ExceptT ε (StateM τ) β} (hm : Keeps R m) (hf : Keeps R (f ⟨⟩)) :
    Keeps R (if p then m >>= f else f ⟨⟩) := keeps_ite (keeps_bind hm fun _ => hf) hf

/-- The same for a step that first takes another one. -/
theorem keeps_whenAfter {δ : Type} {p : Prop} [Decidable p] {m : ExceptT ε (StateM τ) δ}
    {g : δ → ExceptT ε (StateM τ) PUnit} {f : PUnit → ExceptT ε (StateM τ) β} (hm : Keeps R m)
    (hg : ∀ x, Keeps R (g x)) (hf : Keeps R (f ⟨⟩)) :
    Keeps R (if p then m >>= fun x => g x >>= f else f ⟨⟩) :=
  keeps_ite (keeps_bind hm fun x => keeps_bind (hg x) fun _ => hf) hf

theorem keeps_mapM {f : β → ExceptT ε (StateM τ) γ} {xs : List β} (hf : ∀ x ∈ xs, Keeps R (f x)) :
    Keeps R (xs.mapM f) := by
  induction xs with
  | nil => exact keeps_pure _
  | cons x xs ih =>
    rw [List.mapM_cons]
    refine keeps_bind (hf x List.mem_cons_self) fun _ => keeps_bind ?_ fun _ => keeps_pure _
    exact ih fun y hy => hf y (List.mem_cons_of_mem x hy)

theorem keeps_foldlM {f : γ → β → ExceptT ε (StateM τ) γ} {xs : List β}
    (hf : ∀ y, ∀ x ∈ xs, Keeps R (f y x)) (y : γ) : Keeps R (xs.foldlM f y) := by
  induction xs generalizing y with
  | nil => exact keeps_pure _
  | cons x xs ih =>
    rw [List.foldlM_cons]
    refine keeps_bind (hf y x List.mem_cons_self) fun z => ?_
    exact ih (fun y z hz => hf y z (List.mem_cons_of_mem x hz)) z

theorem keeps_forM {f : β → ExceptT ε (StateM τ) PUnit} {xs : List β} (hf : ∀ x ∈ xs, Keeps R (f x)) :
    Keeps R (xs.forM f) := by
  induction xs with
  | nil => exact keeps_pure _
  | cons x xs ih =>
    refine keeps_bind (hf x List.mem_cons_self) fun _ => ?_
    exact ih fun y hy => hf y (List.mem_cons_of_mem x hy)

end DecisionModel
