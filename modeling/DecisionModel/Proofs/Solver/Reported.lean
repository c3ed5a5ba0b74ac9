import DecisionModel.Solver.Session
import DecisionModel.Proofs.Fault
import DecisionModel.Proofs.Number.Rounding

/-!
# Reported values

What is read for a variable is the value that the solver reports for its handle, rounded
(`LoweringState.Reads`). Solvers report numbers in different forms, and a handle that is a constant is
nothing that a solver is asked for; `Report.Gives` says for each solver what a report gives for a handle.
The readout computes it, or fails (`Readout.reads_of_readVariable`, `Report.gives_of_valueOf`).
-/

namespace DecisionModel

variable {α ν σ : Type} [Scalar α]

/-- What is read for a variable: the value given for its handle, rounded to so many places. -/
def LoweringState.Reads (s : LoweringState ν σ) (Gives : Handle ν → Number α → Prop) (places : ℤ)
    (v : VarId) (y : α) : Prop :=
  ∃ h x, s.handle? v = some h ∧ Gives h x ∧ x.RoundsTo places y

omit [Scalar α] in
theorem SolveError.lift_eq_ok {r : Except Fault α} {x : α} : SolveError.lift r = .ok x ↔ r = .ok x := by
  cases r <;> simp [SolveError.lift]

namespace Readout

variable {c : Context α} {s : LoweringState ν σ} {value : Handle ν → Except SolveError (Number α)}
  {Gives : Handle ν → Number α → Prop}

/-- A number is rounded to the places that the configuration asks for, or rounding fails. -/
theorem roundNumber_eq_ok {x : Number α} {y : α} :
    roundNumber c x = .ok y ↔ x.RoundsTo c.config.precision y :=
  SolveError.lift_eq_ok.trans Number.roundTo_eq_ok

/-- The readout is right as far as the values of the handles are. -/
theorem reads_of_readVariable (hgives : ∀ {h x}, value h = .ok x → Gives h x) {v : VarId} {y : α}
    (hread : readVariable c s value v = .ok y) : s.Reads Gives c.config.precision v y := by
  unfold readVariable at hread
  cases hh : s.handle? v with
  | none =>
    rw [hh] at hread
    obtain ⟨text, -, hread⟩ := exists_of_bind hread
    cases hread
  | some h =>
    rw [hh] at hread
    obtain ⟨x, hx, hread⟩ := exists_of_bind hread
    exact ⟨h, x, hh, hgives hx, roundNumber_eq_ok.mp hread⟩

end Readout

end DecisionModel

/-! ### SCIP -/

namespace DecisionModel.Scip

open SolveError (lift_eq_ok)

variable {α : Type} [Scalar α]

/-- The number that the solver reports for a handle; a constant is its own value, as a scalar. -/
inductive Report.Gives (r : Report α) : Handle (Number α) → Number α → Prop
  | const {n : Number α} {x : α} : n.Converts x → r.Gives (.const n) (.real x)
  | term {h : Handle (Number α)} : (∀ n, h ≠ .const n) → r.Gives h (r.value h)

theorem Report.gives_of_valueOf (r : Report α) {h : Handle (Number α)} {x : Number α}
    (hx : r.valueOf h = .ok x) : r.Gives h x := by
  cases h with
  | const n =>
    obtain ⟨y, hy, rfl⟩ := exists_of_map hx
    exact .const (Number.toScalar?_eq_ok.mp (lift_eq_ok.mp hy))
  | leaf | node =>
    cases hx
    exact .term fun _ h => nomatch h

end DecisionModel.Scip

/-! ### Z3 -/

namespace DecisionModel.Z3

open SolveError (lift_eq_ok)

variable {α : Type} [Scalar α]

/-- The scalar is the value; of an algebraic number, that of the quotient near it. -/
inductive Value.Converts : Value → α → Prop
  | integer {n : ℤ} : Scalar.isFinite (Scalar.nearest n : α) →
    Converts (.integer n) (Scalar.nearest n)
  | quotient {p : ℤ} {q : ℕ} : Scalar.isFinite (Scalar.nearest (p / q) : α) →
    Converts (.quotient p q) (Scalar.nearest (p / q))
  | algebraic {p : ℤ} {q : ℕ} : Scalar.isFinite (Scalar.nearest (p / q) : α) →
    Converts (.algebraic p q) (Scalar.nearest (p / q))

theorem ofQuotient_eq_ok {p : ℤ} {q : ℕ} {x : α} : Scalar.ofQuotient p q = .ok x ↔
    Scalar.isFinite (Scalar.nearest (p / q) : α) ∧ x = Scalar.nearest (p / q) := by
  unfold Scalar.ofQuotient
  rw [Rat.mkRat_eq_div]
  dsimp only
  split <;> simp [*, eq_comm]

theorem Value.converts_of_toScalar {v : Value} {x : α} (hx : v.toScalar = .ok x) : v.Converts x := by
  cases v with
  | integer n =>
    obtain ⟨hfinite⟩ := Number.ofInt?_eq_ok.mp (lift_eq_ok.mp hx)
    exact .integer hfinite
  | quotient p q =>
    obtain ⟨hfinite, rfl⟩ := ofQuotient_eq_ok.mp (lift_eq_ok.mp hx)
    exact .quotient hfinite
  | algebraic p q =>
    obtain ⟨hfinite, rfl⟩ := ofQuotient_eq_ok.mp (lift_eq_ok.mp hx)
    exact .algebraic hfinite
  | other text => cases hx

/-- The scalar that the solver reports for a handle; a constant is its own value. -/
inductive Report.Gives (r : Report α) : Handle (Number α) → Number α → Prop
  | const {n : Number α} {x : α} : n.Converts x → r.Gives (.const n) (.real x)
  | term {h : Handle (Number α)} {x : α} : (∀ n, h ≠ .const n) → (r.value h).Converts x →
    r.Gives h (.real x)

theorem Report.gives_of_valueOf (r : Report α) {h : Handle (Number α)} {x : Number α}
    (hx : r.valueOf h = .ok x) : r.Gives h x := by
  cases h with
  | const n =>
    obtain ⟨y, hy, rfl⟩ := exists_of_map hx
    exact .const (Number.toScalar?_eq_ok.mp (lift_eq_ok.mp hy))
  | leaf | node =>
    obtain ⟨y, hy, rfl⟩ := exists_of_map hx
    exact .term (fun _ h => nomatch h) (Value.converts_of_toScalar hy)

end DecisionModel.Z3

/-! ### CP-SAT -/

namespace DecisionModel.CpSat

open SolveError (lift_eq_ok)

variable {α : Type} [Scalar α]

/-- The number that the solver reports for a handle, as a scalar; a constant is its own value. -/
inductive Report.Gives (r : Report α) : Expr → Number α → Prop
  | const {n : ℤ} {x : α} : (Number.int n).Converts x → r.Gives (.const n) (.real x)
  | term {h : Expr} {x : α} : (∀ n, h ≠ .const n) → (r.value h).Converts x → r.Gives h (.real x)

theorem Report.gives_of_valueOf (r : Report α) {h : Expr} {x : Number α} (hx : r.valueOf h = .ok x) :
    r.Gives h x := by
  obtain ⟨y, hy, rfl⟩ := exists_of_map hx
  have hconverts := Number.toScalar?_eq_ok.mp (lift_eq_ok.mp hy)
  cases h with
  | const n => exact .const hconverts
  | leaf | node => exact .term (fun _ h => nomatch h) hconverts

end DecisionModel.CpSat
