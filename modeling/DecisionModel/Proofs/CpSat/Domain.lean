import DecisionModel.Proofs.CpSat.Creation

/-!
# The domain of an integer variable

An integer variable with finite bounds should get the integers between them as its domain, and a
bound that is infinite be replaced by `unboundedLimit`. The domain that CP-SAT gets is the part of
these integers within `unboundedLimit` (`mem_domain`), also where a bound is finite. So the integers
between the bounds are kept if and only if none of them is beyond that limit (`keepsDomain_iff`):
of a greater domain a part is lost, and a variable whose integers are all beyond it is refused as
if it had none.
-/

namespace DecisionModel.CpSat

open LowerM

variable {α : Type} [Scalar α] {d : Variable α} {l u : ℚ} {b : Bounds} {s : CpSatState}

/-- The least bound meant: the variable's own if it is finite. -/
def LowerEnd (d : Variable α) (l : ℚ) : Prop :=
  Scalar.exact d.lower = .finite l ∨ Scalar.exact d.lower = .negInf ∧ l = (-unboundedLimit : ℤ)

/-- The greatest bound meant: the variable's own if it is finite. -/
def UpperEnd (d : Variable α) (u : ℚ) : Prop :=
  Scalar.exact d.upper = .finite u ∨ Scalar.exact d.upper = .posInf ∧ u = unboundedLimit

/-- The domain of a variable whose bounds mean `l` and `u`. -/
theorem domainOf_ends (hlower : LowerEnd d l) (hupper : UpperEnd d u) :
    domainOf d = .ok ⟨max (-unboundedLimit) l.ceil, min unboundedLimit u.floor⟩ := by
  rcases hlower with hlower | ⟨hlower, rfl⟩ <;> rcases hupper with hupper | ⟨hupper, rfl⟩ <;>
    rw [domainOf, hlower, hupper]
  · rfl
  · simp [Exact.eq, Exact.ceil, Exact.toIntBy]
  · simp [Exact.eq, Exact.floor, Exact.toIntBy]
    rfl
  · simp [Exact.eq]
    rfl

theorem mem_domain {n : ℤ} :
    (⟨max (-unboundedLimit) l.ceil, min unboundedLimit u.floor⟩ : Bounds).Contains n ↔
      (l ≤ n ∧ n ≤ u) ∧ -unboundedLimit ≤ n ∧ n ≤ unboundedLimit := by
  rw [← Rat.ceil_le_iff, ← Rat.le_floor_iff, Bounds.Contains]
  dsimp only
  omega

/-- A domain with an integer in it becomes the domain of one new variable. -/
theorem createVariable_creates (hkind : d.kind = .integer) (hdomain : domainOf d = .ok b)
    (hsome : b.lower ≤ b.upper) (s : CpSatState) :
    ∃ h s', (backend.createVariable d).Runs s h s' ∧
      Makes s s' [.newInteger b.lower b.upper h] := by
  let h : Expr := .leaf ⟨s.nextHandle⟩ d.name true
  let s₁ : CpSatState := { s with nextHandle := s.nextHandle + 1 }
  let s₂ : CpSatState := { s₁ with
    solver := { s₁.solver with calls := s₁.solver.calls.push (.newInteger b.lower b.upper h) } }
  let s₃ : CpSatState := { s₂ with
    solver := { s₂.solver with bounds := (⟨s.nextHandle⟩, b) :: s₂.solver.bounds } }
  refine ⟨h, s₃, ?_, Array.toList_push ..⟩
  change (createVariable d).Runs s h s₃
  simp only [createVariable, hkind]
  rw [hdomain]
  refine runs_bind.mpr ⟨b, s, rfl, ?_⟩
  rw [if_neg (not_lt.mpr hsome)]
  exact runs_bind.mpr ⟨h, s₁, rfl, runs_bind.mpr ⟨(), s₂, rfl, rfl⟩⟩

/-- A variable with no integer in its domain is refused, and nothing changes. -/
theorem createVariable_refuses (hkind : d.kind = .integer) (hdomain : domainOf d = .ok b)
    (hnone : b.upper < b.lower) (s : CpSatState) :
    (backend.createVariable d : CpSatM α Expr).run.run s =
      (.error (.noIntegerValue d.name), s) := by
  change (createVariable d : CpSatM α Expr).run.run s = _
  simp only [createVariable, hkind]
  rw [hdomain, show (lift (.ok b) : CpSatM α Bounds) = pure b from rfl, pure_bind, if_pos hnone]
  rfl

/-- The integers from `l` to `u` are kept: they are the domain of a new variable, and the variable is
refused only if there is none. -/
structure KeepsDomain (d : Variable α) (l u : ℚ) (s : CpSatState) : Prop where
  creates : (∃ n : ℤ, l ≤ n ∧ n ≤ u) → ∃ (h : Expr) (b : Bounds) (s' : CpSatState),
    (backend.createVariable d).Runs s h s' ∧ Makes s s' [.newInteger b.lower b.upper h] ∧
      ∀ n : ℤ, b.Contains n ↔ l ≤ n ∧ n ≤ u
  refuses : (¬ ∃ n : ℤ, l ≤ n ∧ n ≤ u) →
    (backend.createVariable d : CpSatM α Expr).run.run s = (.error (.noIntegerValue d.name), s)

theorem KeepsDomain.limited (hkind : d.kind = .integer) (hlower : LowerEnd d l)
    (hupper : UpperEnd d u) (hkeeps : KeepsDomain d l u s) {n : ℤ} (hl : l ≤ n) (hu : n ≤ u) :
    -unboundedLimit ≤ n ∧ n ≤ unboundedLimit := by
  obtain ⟨h, b, s', hruns, hmakes, hb⟩ := hkeeps.creates ⟨n, hl, hu⟩
  have hdomain := domainOf_ends hlower hupper
  -- The domain has an integer, or the variable would have been refused.
  rcases le_or_gt (max (-unboundedLimit) l.ceil) (min unboundedLimit u.floor) with hsome | hnone
  · obtain ⟨h', s'', hruns', hmakes'⟩ := createVariable_creates hkind hdomain hsome s
    obtain ⟨rfl, rfl⟩ := runs_unique hruns hruns'
    have hcall := List.append_cancel_left (hmakes.symm.trans hmakes')
    simp only [List.cons.injEq, Call.newInteger.injEq, and_true] at hcall
    have hmem := (hb n).mpr ⟨hl, hu⟩
    rw [Bounds.Contains, hcall.1, hcall.2] at hmem
    exact (mem_domain.mp hmem).2
  · have hruns' := hruns.symm.trans (createVariable_refuses hkind hdomain hnone s)
    cases hruns'

/-- The integers between the bounds of an integer variable are kept, whatever was lowered before, if
and only if none of them is beyond the limit of variables without bounds. -/
theorem keepsDomain_iff (hkind : d.kind = .integer) (hlower : LowerEnd d l)
    (hupper : UpperEnd d u) (s : CpSatState) :
    KeepsDomain d l u s ↔
      ∀ n : ℤ, l ≤ n → n ≤ u → -unboundedLimit ≤ n ∧ n ≤ unboundedLimit := by
  have hdomain := domainOf_ends hlower hupper
  refine ⟨fun hkeeps n => hkeeps.limited hkind hlower hupper, fun hlimited => ⟨?_, fun hnone => ?_⟩⟩
  · rintro ⟨n, hn⟩
    have hmem := mem_domain.mpr ⟨hn, hlimited n hn.1 hn.2⟩
    obtain ⟨h, s', hruns, hmakes⟩ :=
      createVariable_creates hkind hdomain (hmem.1.trans hmem.2) s
    exact ⟨h, _, s', hruns, hmakes, fun m =>
      mem_domain.trans ⟨And.left, fun hm => ⟨hm, hlimited m hm.1 hm.2⟩⟩⟩
  · refine createVariable_refuses hkind hdomain (lt_of_not_ge fun hsome => hnone ?_) s
    exact ⟨_, (mem_domain.mp ⟨le_rfl, hsome⟩).1⟩

/-- A score with fractional bounds, to be rounded inwards. -/
def score : Variable Exact :=
  { kind := .integer, name := "score", lower := .finite (1 / 2), upper := .finite (15 / 2) }

theorem score_keepsDomain : KeepsDomain score (1 / 2) (15 / 2) initial := by
  refine (keepsDomain_iff rfl (.inl rfl) (.inl rfl) initial).mpr fun n hl hu => ?_
  have hpos : (0 : ℚ) < n := lt_of_lt_of_le (by norm_num) hl
  have hlt : (n : ℚ) < 8 := lt_of_le_of_lt hu (by norm_num)
  norm_cast at hpos hlt
  have hlimit : (8 : ℤ) ≤ unboundedLimit := by decide +kernel
  omega

/-- A count that may be greater than the limit of variables without bounds. -/
def population : Variable Exact :=
  { kind := .integer, name := "x", lower := .finite 0, upper := .finite 2000000000 }

/-- Its greater values are lost. -/
theorem population_not_keepsDomain : ¬ KeepsDomain population 0 2000000000 initial := by
  intro hkeeps
  have hlimited := hkeeps.limited rfl (.inl rfl) (.inl rfl) (n := 2000000000) (by norm_num)
    (by norm_num)
  exact absurd hlimited.2 (by decide +kernel)

end DecisionModel.CpSat
