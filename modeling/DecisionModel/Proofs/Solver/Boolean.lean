import DecisionModel.Proofs.CpSat.Meaning
import DecisionModel.Proofs.Tolerant.Response

/-!
# Truth values with bounds

A truth value of the model may have any bounds. For Z3 it becomes an integer between them
(`Z3.createBoolean_takes`), for CP-SAT zero or one, fixed if the bounds leave one integer
(`CpSat.createBoolean_takes`). So both take zero and one as far as the bounds allow them if the bounds
leave an integer and leave no integers but zero and one (`createsTruth`).
-/

namespace DecisionModel

/-- Zero and one, as far as they are between two bounds. -/
def TruthBetween (l u : ℚ) (n : ℤ) : Prop := (n = 0 ∨ n = 1) ∧ l ≤ n ∧ n ≤ u

/-! ### Z3 -/

namespace Z3

open LowerM Tolerant

variable {h : Expr} {rs : List (Relation (Number Exact))} {l u : ℚ} {d : Variable Exact}

/-- The values that a handle can take: those of its sort at points that meet the constraints. -/
def Takes (h : Expr) (rs : List (Relation (Number Exact))) (q : ℚ) : Prop :=
  ∃ ρ, value ρ h = .finite q ∧ (h.isIntegral = true → ∃ n : ℤ, q = n) ∧ ∀ r ∈ rs, Meets ρ r

/-- A truth value becomes an integer between its bounds. -/
theorem createBoolean_takes (hkind : d.kind = .boolean) (hlower : d.lower = .finite l)
    (hupper : d.upper = .finite u) (s : Z3State Exact) :
    ∃ h s' rs, ((Tolerant.backend primitives).createVariable d).Runs s h s' ∧ Collects s s' rs ∧
      ∀ q, Takes h rs q ↔ ∃ n : ℤ, q = n ∧ l ≤ n ∧ n ≤ u := by
  obtain ⟨s₁, rs, hnew, hcollects, hrs⟩ := runs_newVariable .binary l u d.name s
  have hcreate := runs_createVariable (P := primitives) hnew
  have hvariable : (Tolerant.backend primitives).createVariable d =
      createVariable primitives .binary (.finite l) (.finite u) d.name := by
    change createVariable primitives (Kind.ofVariable d.kind) d.lower d.upper d.name = _
    rw [hkind, hlower, hupper]
    rfl
  rw [← hvariable] at hcreate
  refine ⟨_, _, rs, hcreate, hcollects, fun q => ⟨?_, ?_⟩⟩
  · rintro ⟨ρ, hvalue, hsort, hmeets⟩
    obtain ⟨n, rfl⟩ := hsort rfl
    have hbetween := (hrs ρ).mp hmeets
    rw [← value_leaf, hvalue] at hbetween
    exact ⟨n, rfl, by simpa [Between] using hbetween⟩
  · rintro ⟨n, rfl, hl, hu⟩
    exact ⟨fun _ => n, value_leaf .., fun _ => ⟨n, rfl⟩,
      (hrs _).mpr (by simpa [Between] using ⟨hl, hu⟩)⟩

/-- A truth value gets a handle that takes zero and one, as far as the bounds allow them. -/
def CreatesTruth (d : Variable Exact) (l u : ℚ) (s : Z3State Exact) : Prop :=
  ∃ h s' rs, ((Tolerant.backend primitives).createVariable d).Runs s h s' ∧ Collects s s' rs ∧
    ∀ q, Takes h rs q ↔ ∃ n : ℤ, q = n ∧ TruthBetween l u n

end Z3

/-! ### CP-SAT -/

namespace CpSat

open LowerM

variable {h : Expr} {d : Variable Exact} {l u : ℚ}

/-- The values that a handle can take at points where the calls hold. -/
def Takes (h : Expr) (cs : List Call) (n : ℤ) : Prop :=
  ∃ ρ, value ρ h = n ∧ ∀ c ∈ cs, c.Holds ρ

/-- A literal that is fixed if its bounds leave one integer, and noted as zero or one. -/
theorem runs_fixed (id : HandleId) (name : String) (m n : ℤ) (s : CpSatState) :
    ∃ s', (if m = n then do
        require (linear .eq (.leaf id name true) (.const m))
        track (.leaf id name true) ⟨0, 1⟩
      else track (.leaf id name true) ⟨0, 1⟩ : CpSatM Exact Expr).Runs s (.leaf id name true) s' ∧
      Makes s s'
        (if m = n then [.require (linear .eq (.leaf id name true) (.const m)) none] else []) := by
  by_cases hfixed : m = n
  · rw [if_pos hfixed, if_pos hfixed]
    exact ⟨_, runs_bind.mpr ⟨(), _, rfl, rfl⟩, Array.toList_push ..⟩
  · rw [if_neg hfixed, if_neg hfixed]
    exact ⟨_, rfl, (List.append_nil _).symm⟩

/-- A truth value becomes zero or one, and its bounds fix it if they leave one integer. -/
theorem createBoolean_takes (hkind : d.kind = .boolean) (hlower : d.lower = .finite l)
    (hupper : d.upper = .finite u) (s : CpSatState) :
    ∃ h s' cs, (backend.createVariable d).Runs s h s' ∧ Makes s s' cs ∧
      ∀ n, Takes h cs n ↔ (n = 0 ∨ n = 1) ∧ (l.ceil = u.floor → n = l.ceil) := by
  let h : Expr := .leaf ⟨s.nextHandle⟩ d.name true
  let fixed : List Call :=
    if l.ceil = u.floor then [.require (linear .eq h (.const l.ceil)) none] else []
  let s₁ : CpSatState := { s with nextHandle := s.nextHandle + 1 }
  let s₂ : CpSatState :=
    { s₁ with solver := { s₁.solver with calls := s₁.solver.calls.push (.newBoolean h) } }
  let s₃ : CpSatState :=
    { s₂ with solver := { s₂.solver with literals := h.id?.toList ++ s₂.solver.literals } }
  have hceil : (Scalar.exact d.lower).ceil = .ok l.ceil := by rw [hlower]; rfl
  have hfloor : (Scalar.exact d.upper).floor = .ok u.floor := by rw [hupper]; rfl
  obtain ⟨s', hend, (hmakes : Makes s₃ s' fixed)⟩ :=
    runs_fixed ⟨s.nextHandle⟩ d.name l.ceil u.floor s₃
  have hcreate : (createBoolean d).Runs s h s' :=
    runs_bind.mpr ⟨h, s₁, rfl, runs_bind.mpr ⟨(), s₂, rfl, runs_bind.mpr ⟨(), s₃, rfl,
      runs_bind.mpr ⟨l.ceil, s₃, runs_lift.mpr ⟨hceil, rfl⟩,
        runs_bind.mpr ⟨u.floor, s₃, runs_lift.mpr ⟨hfloor, rfl⟩, hend⟩⟩⟩⟩⟩
  have hvariable : backend.createVariable d = createBoolean d := by
    change createVariable d = _
    simp only [createVariable, hkind]
  refine ⟨h, s', .newBoolean h :: fixed, hvariable ▸ hcreate, ?_, fun n => ?_⟩
  · rw [Makes, hmakes]
    simp [s₃, s₂, s₁]
  · have hfixed : ∀ ρ, (∀ c ∈ fixed, c.Holds ρ) ↔ (l.ceil = u.floor → ρ ⟨s.nextHandle⟩ = l.ceil) := by
      intro ρ
      by_cases heq : l.ceil = u.floor
      · simp [fixed, heq, Call.Holds, h, Comparison.Relates]
      · simp [fixed, heq]
    constructor
    · rintro ⟨ρ, rfl, hcalls⟩
      rw [List.forall_mem_cons, hfixed] at hcalls
      exact hcalls
    · rintro hn
      refine ⟨fun _ => n, value_leaf .., ?_⟩
      rw [List.forall_mem_cons, hfixed]
      exact hn

/-- A truth value gets a handle that takes zero and one, as far as the bounds allow them. -/
def CreatesTruth (d : Variable Exact) (l u : ℚ) (s : CpSatState) : Prop :=
  ∃ h s' cs, (backend.createVariable d).Runs s h s' ∧ Makes s s' cs ∧
    ∀ n, Takes h cs n ↔ TruthBetween l u n

end CpSat

/-! ### Both -/

/-- Whatever was lowered before, a truth value takes zero and one as far as its bounds allow them, for
both solvers, if its bounds leave an integer and leave no integers but zero and one. -/
theorem createsTruth {d : Variable Exact} {l u : ℚ} (hkind : d.kind = .boolean)
    (hlower : d.lower = .finite l) (hupper : d.upper = .finite u)
    (hsome : ∃ n : ℤ, l ≤ n ∧ n ≤ u) (htruth : ∀ n : ℤ, l ≤ n → n ≤ u → n = 0 ∨ n = 1)
    (s : Z3.Z3State Exact) (t : CpSat.CpSatState) :
    Z3.CreatesTruth d l u s ∧ CpSat.CreatesTruth d l u t := by
  constructor
  · obtain ⟨h, s', rs, hruns, hcollects, htakes⟩ :=
      Z3.createBoolean_takes hkind hlower hupper s
    refine ⟨h, s', rs, hruns, hcollects, fun q => (htakes q).trans (exists_congr fun n => ?_)⟩
    exact and_congr_right fun _ => ⟨fun hn => ⟨htruth n hn.1 hn.2, hn⟩, And.right⟩
  · obtain ⟨h, t', cs, hruns, hmakes, htakes⟩ :=
      CpSat.createBoolean_takes hkind hlower hupper t
    refine ⟨h, t', cs, hruns, hmakes, fun n => (htakes n).trans (and_congr_right fun hn => ?_)⟩
    simp only [← Rat.ceil_le_iff, ← Rat.le_floor_iff] at hsome htruth ⊢
    obtain ⟨m, hlm, hmu⟩ := hsome
    have hl := htruth l.ceil le_rfl (hlm.trans hmu)
    have hu := htruth u.floor (hlm.trans hmu) le_rfl
    omega

/-- A truth value whose bounds leave one only. -/
def narrow : Variable Exact :=
  { kind := .boolean, name := "b", lower := .finite (1 / 2), upper := .finite (3 / 2) }

theorem narrow_createsTruth : Z3.CreatesTruth narrow (1 / 2) (3 / 2) Z3.initial ∧
    CpSat.CreatesTruth narrow (1 / 2) (3 / 2) CpSat.initial := by
  refine createsTruth rfl rfl rfl ⟨1, by norm_num, by norm_num⟩ (fun n hl hu => ?_) _ _
  have hpos : (0 : ℚ) < n := lt_of_lt_of_le (by norm_num) hl
  have hlt : (n : ℚ) < 2 := lt_of_le_of_lt hu (by norm_num)
  norm_cast at hpos hlt
  omega

/-- A truth value with bounds that leave one and greater integers. -/
def loose : Variable Exact := { kind := .boolean, name := "b", lower := .finite 1, upper := .finite 5 }

/-- Z3 takes two for it, and CP-SAT takes zero. -/
theorem loose_not_createsTruth :
    ¬ Z3.CreatesTruth loose 1 5 Z3.initial ∧ ¬ CpSat.CreatesTruth loose 1 5 CpSat.initial := by
  constructor
  · rintro ⟨h, s', rs, hruns, hcollects, htakes⟩
    obtain ⟨h₂, s₂, rs₂, hruns₂, hcollects₂, htakes₂⟩ :=
      Z3.createBoolean_takes (d := loose) (l := 1) (u := 5) rfl rfl rfl Z3.initial
    obtain ⟨rfl, rfl⟩ := LowerM.runs_unique hruns hruns₂
    obtain rfl := List.append_cancel_left (hcollects.symm.trans hcollects₂)
    obtain ⟨n, hn, ⟨htruth, -⟩⟩ := (htakes 2).mp ((htakes₂ 2).mpr ⟨2, by norm_num, by norm_num, by norm_num⟩)
    norm_cast at hn
    omega
  · rintro ⟨h, s', cs, hruns, hmakes, htakes⟩
    obtain ⟨h₂, s₂, cs₂, hruns₂, hmakes₂, htakes₂⟩ :=
      CpSat.createBoolean_takes (d := loose) (l := 1) (u := 5) rfl rfl rfl CpSat.initial
    obtain ⟨rfl, rfl⟩ := LowerM.runs_unique hruns hruns₂
    obtain rfl := List.append_cancel_left (hmakes.symm.trans hmakes₂)
    obtain ⟨-, hl, -⟩ := (htakes 0).mp ((htakes₂ 0).mpr ⟨.inl rfl, by decide +kernel⟩)
    norm_num at hl

end DecisionModel
