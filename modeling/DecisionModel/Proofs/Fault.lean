import DecisionModel.Number.Scalar

/-!
# Which faults can occur

`FaultsIn F r` says that `r` is a result or a fault with the property `F`. For a computation of several
steps it follows along its structure.
-/

namespace DecisionModel

variable {ε β γ : Type} {F : Fault → Prop}

/-- The fault has the property, if there is one. -/
def FaultsIn (F : Fault → Prop) (r : Except Fault β) : Prop := ∀ f, r = .error f → F f

theorem faultsIn_ok (x : β) : FaultsIn F (.ok x) := fun _ h => by cases h

theorem faultsIn_error {f : Fault} (h : F f) : FaultsIn F (.error f : Except Fault β) := fun _ he => by
  cases he
  exact h

theorem faultsIn_bind {r : Except Fault β} {g : β → Except Fault γ} (hr : FaultsIn F r)
    (hg : ∀ x, FaultsIn F (g x)) : FaultsIn F (r >>= g) := by
  cases r with
  | error f => exact faultsIn_error (hr f rfl)
  | ok x => exact hg x

theorem faultsIn_map {r : Except Fault β} {g : β → γ} (hr : FaultsIn F r) : FaultsIn F (r.map g) := by
  cases r with
  | error f => exact faultsIn_error (hr f rfl)
  | ok x => exact faultsIn_ok _

theorem faultsIn_mapM {g : β → Except Fault γ} {xs : List β} (h : ∀ x ∈ xs, FaultsIn F (g x)) :
    FaultsIn F (xs.mapM g) := by
  induction xs with
  | nil => exact faultsIn_ok _
  | cons x xs ih =>
    rw [List.mapM_cons]
    refine faultsIn_bind (h x List.mem_cons_self) fun y => ?_
    exact faultsIn_bind (ih fun z hz => h z (List.mem_cons_of_mem x hz)) fun ys => faultsIn_ok _

/-- Where two steps have a result, the first one has. -/
theorem exists_of_bind {r : Except ε β} {g : β → Except ε γ} {y : γ} (h : r >>= g = .ok y) :
    ∃ x, r = .ok x ∧ g x = .ok y := by
  cases r with
  | error f => cases h
  | ok x => exact ⟨x, rfl, h⟩

theorem exists_of_map {r : Except ε β} {g : β → γ} {y : γ} (h : g <$> r = .ok y) :
    ∃ x, r = .ok x ∧ y = g x := by
  cases r with
  | error f => cases h
  | ok x =>
    cases h
    exact ⟨x, rfl, rfl⟩

theorem exists_of_mem_mapM {g : β → Except ε γ} {xs : List β} {ys : List γ}
    (h : xs.mapM g = .ok ys) {y : γ} (hy : y ∈ ys) : ∃ x ∈ xs, g x = .ok y := by
  induction xs generalizing ys with
  | nil =>
    cases h
    cases hy
  | cons x xs ih =>
    rw [List.mapM_cons] at h
    obtain ⟨z, hz, h⟩ := exists_of_bind h
    obtain ⟨zs, hzs, h⟩ := exists_of_bind h
    cases h
    rcases List.mem_cons.mp hy with rfl | hy
    · exact ⟨x, List.mem_cons_self, hz⟩
    · obtain ⟨x', hx', hy⟩ := ih hzs hy
      exact ⟨x', List.mem_cons_of_mem x hx', hy⟩

/-- Each of the elements has a result among those of all. -/
theorem exists_mem_of_mapM {g : β → Except ε γ} {xs : List β} {ys : List γ}
    (h : xs.mapM g = .ok ys) {x : β} (hx : x ∈ xs) : ∃ y ∈ ys, g x = .ok y := by
  induction xs generalizing ys with
  | nil => cases hx
  | cons x' xs ih =>
    rw [List.mapM_cons] at h
    obtain ⟨z, hz, h⟩ := exists_of_bind h
    obtain ⟨zs, hzs, h⟩ := exists_of_bind h
    cases h
    rcases List.mem_cons.mp hx with rfl | hx
    · exact ⟨z, List.mem_cons_self, hz⟩
    · obtain ⟨y, hy, hxy⟩ := ih hzs hx
      exact ⟨y, List.mem_cons_of_mem z hy, hxy⟩

/-- There is one result for each of the elements. -/
theorem length_of_mapM {g : β → Except ε γ} {xs : List β} {ys : List γ} (h : xs.mapM g = .ok ys) :
    ys.length = xs.length := by
  induction xs generalizing ys with
  | nil =>
    cases h
    rfl
  | cons x xs ih =>
    rw [List.mapM_cons] at h
    obtain ⟨y, -, h⟩ := exists_of_bind h
    obtain ⟨ys, hys, h⟩ := exists_of_bind h
    cases h
    rw [List.length_cons, List.length_cons, ih hys]

/-- Where no fault can occur there is a result. -/
theorem exists_ok {r : Except Fault β} (h : FaultsIn (fun _ => False) r) : ∃ x, r = .ok x := by
  cases r with
  | error f => exact (h f rfl).elim
  | ok x => exact ⟨x, rfl⟩

/-! ### Literals -/

variable {α : Type} [Scalar α]

/-- An integer may be beyond the range of scalars. -/
theorem faultsIn_ofInt? (n : Int) (h : F .integerTooLarge) :
    FaultsIn F (Scalar.ofInt? n : Except Fault α) := by
  unfold Scalar.ofInt?
  dsimp only
  split
  · exact faultsIn_ok _
  · exact faultsIn_error h

theorem faultsIn_toScalar? (l : Literal α) (h : F .integerTooLarge) : FaultsIn F l.toScalar? := by
  cases l with
  | int n => exact faultsIn_map (faultsIn_ofInt? n h)
  | _ => exact faultsIn_ok _

/-- Where a number is meant, nothing may stand instead. -/
theorem faultsIn_toScalar (l : Literal α) (h : F .integerTooLarge)
    (habsent : l = .absent → F .absentNumber) : FaultsIn F l.toScalar := by
  cases l with
  | absent => exact faultsIn_error (habsent rfl)
  | int n =>
    have hint := faultsIn_ofInt? (α := α) n h
    unfold Literal.toScalar
    simp only [Literal.toScalar?]
    rcases hn : (Scalar.ofInt? n : Except Fault α) with f | x
    · exact faultsIn_error (hint f hn)
    · exact faultsIn_ok x
  | real x => exact faultsIn_ok x
  | truth b => exact faultsIn_ok _

end DecisionModel
