import DecisionModel.Proofs.CpSat.Creation
import DecisionModel.Proofs.CpSat.Selection

/-!
# CP-SAT as a faithful back-end

What is posted amounts to what is meant (`posts_linear`, `posts_true`), and with the encodings this
makes the back-end of CP-SAT faithful (`faithful`), so that the theory of the walk applies to it.
-/

namespace DecisionModel.CpSat

open LowerM

variable {G : Set Expr} {s s' : CpSatState} {ρ ρ' : HandleId → ℤ}

theorem tables_congr (h : s.SameSolver s') (ht : Tables G s) : Tables G s' := by
  have hadmitted : ∀ {ρ}, Admitted ρ s' → Admitted ρ s := fun hρ =>
    ⟨h.solver_eq ▸ hρ.1, h.violated hρ.2⟩
  exact {
    calls := h.solver_eq ▸ ht.calls
    bounds_fresh := fun hb => lt_of_lt_of_le (ht.bounds_fresh (h.solver_eq ▸ hb)) h.next_le
    bounds := fun hc hb hk hid hρ =>
      ht.bounds (h.solver_eq ▸ hc) (h.solver_eq ▸ hb) hk hid (hadmitted hρ)
    literals_fresh := fun hl => lt_of_lt_of_le (ht.literals_fresh (h.solver_eq ▸ hl)) h.next_le
    literals := fun hl hk hid hρ => ht.literals (h.solver_eq ▸ hl) hk hid (hadmitted hρ)
    negations := h.solver_eq ▸ ht.negations }

theorem derives_mul {α : Type} (x : Expr) (k : ℤ) :
    semantics.Derives (α := α) (LowerM.mul x (.const (Numeral.ofInt k))) [x] fun ρ n =>
      n = value ρ x * k := by
  intro G s h s' hv hargs hr
  have hmul := derives_binary (α := α) (f := (· * ·)) (x := x) (y := .const k) .mul
    fun id ρ => value_mul
  obtain ⟨G', g, u, b, e⟩ := hmul hv (by
    simpa using ⟨hargs x (by simp), (usable_number hv k).toHeld⟩) hr
  exact ⟨G', g, u, fun ρ hρ => (b ρ hρ).trans (by rw [value_const]), e⟩

/-! ### Posting -/

theorem posts_linear {α : Type} (k : Comparison) (x y : Expr) :
    semantics.Posts (α := α) (require (linear k x y)) [x, y]
      (fun ρ => k.Relates (value ρ x) (value ρ y)) fun ρ => k.Relates (value ρ x) (value ρ y) := by
  simpa only [holds_linear] using posts_require (α := α) [x, y] (c := linear k x y)
    handles_linear

/-- A handle is required to differ from zero: for a literal, to be one. -/
theorem posts_true {α : Type} (x : Expr) : semantics.Posts (α := α) (postTrue x) [x]
    (fun ρ => value ρ x ≠ 0) fun ρ => value ρ x ≠ 0 := by
  intro G s s' hv hargs hr
  simp only [postTrue, runs_bind, runs_getSolver] at hr
  obtain ⟨_, s, ⟨rfl, rfl⟩, hr⟩ := hr
  split at hr
  · rename_i hliteral
    obtain ⟨id, hid, hmem⟩ : ∃ id, x.id? = some id ∧ s.solver.literals.contains id = true := by
      simpa [Option.any_eq_true] using hliteral
    have hbinary : ∀ ρ, Admitted ρ s → value ρ x = 0 ∨ value ρ x = 1 := fun ρ hρ =>
      hv.tables.literals (List.contains_iff_mem.mp hmem) (hargs x (by simp)).mem hid hρ
    obtain ⟨G', g, b, e⟩ := posts_require (α := α) [x] (c := .conjunction [x])
      (fun _ h => h) hv hargs hr
    refine ⟨G', g, fun ρ hρ => ?_, fun ρ hcalm hρ hne => e ρ hcalm hρ ?_⟩
    · have hone : value ρ x = 1 := b ρ hρ x (by simp)
      show value ρ x ≠ 0
      omega
    · simpa [Constraint.Holds] using (hbinary ρ hρ).resolve_left hne
  · obtain ⟨G', g, b, e⟩ := posts_linear (α := α) .ne x (.const 0) hv (by
      simpa using ⟨hargs x (by simp), (usable_number hv 0).toHeld⟩) hr
    refine ⟨G', g, fun ρ hρ => ?_, fun ρ hcalm hρ hne => e ρ hcalm hρ ?_⟩
    · simpa [Comparison.Relates] using b ρ hρ
    · simpa [Comparison.Relates] using hne

theorem posts_objective {α : Type} (sense : Sense) (x : Expr) :
    semantics.Posts (α := α) (postObjective sense x) [x] (fun _ => True) fun _ => True := by
  intro G s s' hv hargs hr
  obtain ⟨_, s₁, hcall, hmark⟩ := runs_bind.mp hr
  obtain ⟨g₁, -, e₁⟩ := step_call hv (by simp [Call.handles]) hcall
  obtain rfl := runs_modifySolver.mp hmark
  have ht := g₁.valid.tables
  obtain ⟨g₂, e₂⟩ : semantics.Step G s₁ G { s₁ with solver.hasObjective := true } ∧
      ∀ D, semantics.Extends s₁ { s₁ with solver.hasObjective := true } D :=
    step_of_calls subset_rfl
      ⟨g₁.valid.world, ⟨ht.calls, ht.bounds_fresh, ht.bounds, ht.literals_fresh, ht.literals,
        ht.negations⟩⟩ le_rfl rfl rfl rfl rfl (fun hc => hc) fun _ he => he
  refine ⟨G, g₁.trans g₂, fun _ _ => trivial, fun ρ hcalm hρ _ => ?_⟩
  have hnext : s.nextHandle ≤ s₁.nextHandle := g₁.next_le
  obtain ⟨ρ', ha, hρ'⟩ := e₂ (fun _ => True) ρ hcalm (e₁ ρ hρ trivial) trivial
  exact ⟨ρ', ha.mono hnext, hρ'⟩

/-! ### The back-end -/

theorem faithful (c : Context Exact) : Faithful backend semantics c where
  int_congr hw hh ha := value_congr hw hh ha
  satisfies_congr hv ha hs := satisfied_congr hv ha hs
  tables_congr := tables_congr
  const_noted _ _ _ h := nomatch h
  isZero_eq _ := by simp [semantics, Numeral.isZero]
  holds_eq {ρ x y} k _ _ := by simpa [semantics, Numeral.holds] using k.holdsExactly_int x y
  round_eq _ := by simp [semantics, Numeral.round]
  isNumber_ofInt := isNumber_const
  isNumber_const {ρ x} _ := by simpa [semantics] using isNumber_const x
  derives_add x y := derives_binary .add fun _ _ => value_add
  derives_sub x y := derives_binary .sub fun _ _ => value_sub
  derives_mul := derives_mul
  constant _ hr := constant_int hr
  constant? := constant?_int
  negate := computes_negate
  add := computes_add
  subtract := computes_subtract
  multiply := computes_multiply
  divide x y _ := computes_divide x y
  power x y _ := computes_power x y
  absolute := computes_absolute
  minimum := computes_minimum
  maximum := computes_maximum
  reify := computes_reify
  complement := computes_complement
  conjoin := computes_conjoin
  disjoin := computes_disjoin
  conditional := computes_conditional
  firstMatch := Semantics.computes_nestedConditionals computes_conditional
  membership := computes_membership
  lookup := computes_lookup
  keyedMembership _ h := nomatch h
  createVariable _ hv hr := by
    obtain ⟨G', g, u, hreach⟩ := createVariable_spec hv hr
    exact ⟨G', g, u, fun _ _ => trivial, hreach⟩
  createSequence := createSequence_spec
  newInteger hv hr := by
    obtain ⟨G', g, u, -, hwithin, hreach⟩ := newInteger_spec hv hr
    exact ⟨G', g, u, hwithin, fun n h h' => hreach n ⟨h, h'⟩⟩
  postEqual := posts_linear .eq
  postComparison k x y _ := posts_linear k x y
  postTrue x _ := posts_true x
  postDefinition _ := posts_linear .eq
  postObjective := posts_objective
  accepts h := h
  fits_member _ _ := trivial

end DecisionModel.CpSat
