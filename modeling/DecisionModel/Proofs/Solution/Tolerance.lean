import DecisionModel.Proofs.Builder.Names
import DecisionModel.Proofs.Fault
import DecisionModel.Proofs.Number.Double
import DecisionModel.Solution.Diagnostics

/-!
# What counts as a difference

A stored value is held against the value of its definition, and a reported objective against the one
expected, by one comparison (`Scalar.isClose`). It lets pass a distance within the absolute tolerance, and
also one within a share of either number. For doubles that stand for numbers this is computed as such
(`isClose_eq_false`), so that the two reports name exactly the differences beyond both allowances
(`Solution.reports_differences`); up to a size where the share is within the tolerance (`Scalar.Moderate`),
these are the differences beyond the tolerance. Of greater numbers they are not: a half is let pass at a
billion (`Large.half_passes`).
-/

namespace DecisionModel

/-! ### Comparing numbers -/

namespace Exact

theorem le_eq_false {x y : Exact} (hx : x ≠ nan) (hy : y ≠ nan) : x.le y = false ↔ y.lt x = true := by
  cases x <;> cases y <;> simp_all [le, lt, eq]
  grind

theorem lt_of_le_of_lt {x y z : Exact} (h : x.le y = true) (h' : y.lt z = true) : x.lt z = true := by
  cases x <;> cases y <;> cases z <;> simp_all [le, lt, eq]
  grind

end Exact

namespace Scalar

variable {α : Type} [Scalar α]

/-- The distance of two numbers as it is computed. -/
def gap (x y : α) : α := abs (sub y x)

/-- The share of a number that a difference may have. -/
def allowance (x : α) : α := abs (mul relativeTolerance x)

/-- The distance exceeds the tolerance. -/
def Apart (x y : α) : Prop := lt tolerance (gap x y) = true

/-- The distance also exceeds the allowances for both numbers. -/
def Differ (x y : α) : Prop :=
  Apart x y ∧ lt (allowance x) (gap x y) = true ∧ lt (allowance y) (gap x y) = true

instance (x y : α) : Decidable (Apart x y) := inferInstanceAs (Decidable (_ = true))

instance (x y : α) : Decidable (Differ x y) := inferInstanceAs (Decidable (Apart x y ∧ _ = true ∧ _ = true))

/-- The allowance for the number is within the tolerance. -/
def Moderate (x : α) : Prop := le (allowance x) tolerance = true

/-- For moderate numbers it is the tolerance that counts. -/
theorem differ_iff_apart {x y : α} (hx : Moderate x) (hy : Moderate y) : Differ x y ↔ Apart x y :=
  ⟨fun h => h.1, fun h => ⟨h, Exact.lt_of_le_of_lt hx h, Exact.lt_of_le_of_lt hy h⟩⟩

end Scalar

open Scalar

theorem isFinite_tolerance : isFinite (tolerance : Float) = true := by decide +kernel

theorem isFinite_relativeTolerance : isFinite (relativeTolerance : Float) = true := by decide +kernel

theorem exact_ne_nan_of_isFinite {x : Float} (h : isFinite x = true) : exact x ≠ .nan := fun hx => by
  rw [isFinite, hx] at h
  cases h

/-- Doubles that stand for numbers are not close to each other if and only if they differ. -/
theorem isClose_eq_false {x y : Float} (hx : isFinite x = true) (hy : isFinite y = true) :
    isClose x y = false ↔ Differ x y := by
  have hgap : exact (gap x y) ≠ .nan := Double.exact_abs_ne_nan (Double.exact_sub_ne_nan hy hx)
  have hallowance : ∀ {z : Float}, isFinite z = true → exact (allowance z) ≠ .nan := fun hz =>
    Double.exact_abs_ne_nan (Double.exact_mul_ne_nan isFinite_relativeTolerance hz)
  have htolerance := exact_ne_nan_of_isFinite isFinite_tolerance
  by_cases heq : eq x y = true
  · -- the distance of equal numbers is zero, and so within the tolerance
    obtain ⟨q, hq, hq'⟩ : ∃ q, exact x = .finite q ∧ exact y = .finite q := by
      rcases hex : exact x with _ | _ | _ | p <;> rcases hey : exact y with _ | _ | _ | q <;>
        simp_all [isFinite, eq, Exact.isFinite, Exact.eq]
    have hzero : exact (gap x y) = .finite 0 := Double.exact_abs_sub_of_exact hq' hq
    have hlt : lt tolerance (gap x y) = false := by
      rw [lt, hzero]
      decide +kernel
    simp [isClose, heq, Differ, Apart, hlt]
  · have hclose : isClose x y = (le (gap x y) (allowance y) || le (gap x y) (allowance x) ||
        le (gap x y) tolerance) := by
      simp [isClose, heq, hx, hy, gap, allowance]
    rw [hclose, Bool.or_eq_false_iff, Bool.or_eq_false_iff]
    unfold le Differ Apart lt
    rw [Exact.le_eq_false hgap (hallowance hy), Exact.le_eq_false hgap (hallowance hx),
      Exact.le_eq_false hgap htolerance]
    tauto

/-! ### What the reports say -/

namespace Solution

section

variable {α : Type} [Scalar α] {w : Workspace α} {s : Solution α} {v : VarId} {t : Term α}
  {ds : List (Diagnostic α)} {x y : α} {name text : String}

theorem checkConstraint_ne_inconsistent :
    s.checkConstraint w t ≠ .ok (some (.inconsistent name text x y)) := by
  intro h
  unfold checkConstraint at h
  obtain ⟨c, -, h⟩ := exists_of_bind h
  split at h
  · cases h
  · cases h
  · cases h
  · split at h <;> cases h

/-- A difference is found by the check of a variable. -/
theorem mem_diagnostics_inconsistent (h : s.diagnostics w = .ok ds) :
    .inconsistent name text x y ∈ ds ↔
      ∃ v ∈ w.allVariables s.model, s.checkVariable w v = .ok (some (.inconsistent name text x y)) := by
  obtain ⟨first, hfirst, h⟩ := exists_of_bind h
  obtain ⟨second, hsecond, h⟩ := exists_of_bind h
  obtain rfl := Except.ok.inj h
  constructor
  · intro hd
    obtain ⟨o, ho, rfl⟩ := List.mem_filterMap.mp hd
    rcases List.mem_append.mp ho with ho | ho
    · obtain ⟨t, -, hcheck⟩ := exists_of_mem_mapM hfirst ho
      exact absurd hcheck checkConstraint_ne_inconsistent
    · exact exists_of_mem_mapM hsecond ho
  · rintro ⟨v, hv, hcheck⟩
    obtain ⟨o, ho, hcheck'⟩ := exists_mem_of_mapM hsecond hv
    obtain rfl := Except.ok.inj (hcheck.symm.trans hcheck')
    exact List.mem_filterMap.mpr ⟨_, List.mem_append_right _ ho, rfl⟩

/-- The check names the variable and gives both values. -/
theorem checkVariable_eq (hdef : w.definition? v = some t) (hstored : s.stored? v = some x)
    (hy : s.evaluate w t = .ok (some y)) :
    s.checkVariable w v = if isClose x y then .ok none
      else (w.termText t).map fun text => some (.inconsistent (w.variableName v) text x y) := by
  unfold checkVariable
  rw [hdef, hstored]
  dsimp only
  rw [hy]
  simp only [Outcome.ignoringUndefined, bind, Except.bind, pure, Except.pure]
  split
  · rfl
  · cases w.termText t <;> rfl

theorem name_of_checkVariable {name' : String}
    (h : s.checkVariable w v = .ok (some (.inconsistent name' text x y))) : name' = w.variableName v := by
  unfold checkVariable at h
  split at h
  · obtain ⟨o, -, h⟩ := exists_of_bind h
    split at h
    · cases h
    · split at h
      · cases h
      · obtain ⟨c, -, h⟩ := exists_of_bind h
        cases h
        rfl
  · cases h

/-- Where names tell variables apart, a variable is named if and only if its values are not close. -/
theorem inconsistent_iff (hnames : ((w.allVariables s.model).map w.variableName).Nodup)
    (h : s.diagnostics w = .ok ds) (hv : v ∈ w.allVariables s.model) (hdef : w.definition? v = some t)
    (hstored : s.stored? v = some x) (hy : s.evaluate w t = .ok (some y)) :
    (∃ text x' y', .inconsistent (w.variableName v) text x' y' ∈ ds) ↔ isClose x y = false := by
  have hcheck := checkVariable_eq hdef hstored hy
  constructor
  · rintro ⟨text, x', y', hd⟩
    obtain ⟨u, hu, hfound⟩ := (mem_diagnostics_inconsistent h).mp hd
    obtain rfl : v = u := List.inj_on_of_nodup_map hnames hv hu (name_of_checkVariable hfound)
    rw [hcheck] at hfound
    split at hfound
    · cases hfound
    · rename_i hclose
      simpa using hclose
  · intro hclose
    rw [hclose, if_neg Bool.false_ne_true] at hcheck
    obtain ⟨first, hfirst, hrest⟩ := exists_of_bind h
    obtain ⟨second, hsecond, -⟩ := exists_of_bind hrest
    obtain ⟨o, -, ho⟩ := exists_mem_of_mapM hsecond hv
    rcases htext : w.termText t with f | text
    · rw [hcheck, htext] at ho
      cases ho
    · rw [htext] at hcheck
      exact ⟨text, x, y, (mem_diagnostics_inconsistent h).mpr ⟨v, hv, hcheck⟩⟩

end

/-- The objective is called wrong if the value reported differs from the one expected. -/
theorem objectiveLine_eq {s : Solution Float} {o x : Float} (hs : s.reported = some o)
    (ho : isFinite o = true) (hx : isFinite x = true) :
    s.objectiveLine (some x) =
      (if Differ o x then "wrong objective, expected: " else "objective: ") ++ fixedText 6 x := by
  unfold objectiveLine
  rw [hs]
  dsimp only
  congr 1
  by_cases hdiffer : Differ o x
  · rw [if_pos hdiffer, (isClose_eq_false ho hx).mpr hdiffer]
    rfl
  · have hclose : isClose o x = true := by
      simpa using fun h => hdiffer ((isClose_eq_false ho hx).mp h)
    rw [if_neg hdiffer, hclose]
    rfl

/-- After any calls: if the check of a solution comes to an end, then it names a defined variable whose stored
value and defined value are numbers if and only if the two differ, and `validate` calls the objective wrong
if and only if the number reported and the one expected differ. For moderate numbers this is to be apart. -/
theorem reports_differences (calls : List (Call Float)) (s : Solution Float)
    {ds : List (Diagnostic Float)} (h : s.diagnostics (.afterCalls {} calls) = .ok ds) :
    let w := Workspace.afterCalls {} calls
    s.errors w = .ok (ds.map Diagnostic.message) ∧
      (∀ v ∈ w.allVariables s.model, ∀ t x y, w.definition? v = some t → s.stored? v = some x →
        s.evaluate w t = .ok (some y) → isFinite x = true → isFinite y = true →
        ((∃ text x' y', .inconsistent (w.variableName v) text x' y' ∈ ds) ↔ Differ x y) ∧
          (Moderate x → Moderate y → (Differ x y ↔ Apart x y))) ∧
      ∀ given o x, s.reported = some o →
        given.toScalar? = .ok (some x) ∨
          given.toScalar? = .ok none ∧ s.evaluatedObjective w = .ok (some x) →
        isFinite o = true → isFinite x = true →
        s.validate w given = .ok ("\n".intercalate
            (((ds.map Diagnostic.message).filter ("infeasible: ".isPrefixOf ·)) ++
              [(if Differ o x then "wrong objective, expected: " else "objective: ") ++ fixedText 6 x])) ∧
          (Moderate o → Moderate x → (Differ o x ↔ Apart o x)) := by
  intro w
  have herrors : s.errors w = .ok (ds.map Diagnostic.message) := by
    unfold errors
    rw [h]
    rfl
  refine ⟨herrors, fun v hv t x y hdef hstored hy hx hy' => ⟨?_, differ_iff_apart⟩,
    fun given o x hs hgiven ho hx => ⟨?_, differ_iff_apart⟩⟩
  · have hnames : ((w.allVariables s.model).map w.variableName).Nodup := by
      rcases hm : w.findModel s.model with _ | model
      · simp [Workspace.allVariables, hm]
      · exact (namespaces_of_calls calls hm).variable_distinct
    rw [inconsistent_iff hnames h hv hdef hstored hy, isClose_eq_false hx hy']
  · have hvalidate : s.validate w given = .ok ("\n".intercalate
        (((ds.map Diagnostic.message).filter ("infeasible: ".isPrefixOf ·)) ++
          [s.objectiveLine (some x)])) := by
      unfold validate
      rw [herrors]
      rcases hgiven with hgiven | ⟨hgiven, hevaluated⟩
      · simp [hgiven, bind, Except.bind, pure, Except.pure]
      · simp [hgiven, hevaluated, bind, Except.bind, pure, Except.pure]
    rw [hvalidate, objectiveLine_eq hs ho hx]

end Solution

/-! ### Small and large numbers -/

namespace Large

/-- A variable to minimize, and another one that is a half more. -/
def calls : List (Call Float) :=
  [.newModel .minimize, .addVariable ⟨0⟩ .real "x" .absent .absent (.literal .absent),
    .add (.term (.var ⟨0⟩)) (.literal (.real (nearest (1 / 2)))),
    .addVariable ⟨0⟩ .real "d" .absent .absent
      (.term (.node ⟨1⟩ .sum [.var ⟨0⟩, .const (nearest (1 / 2))])),
    .setObjective ⟨0⟩ .minimize (.term (.var ⟨0⟩))]

/-- Both variables are stored, and the objective is reported, with the same value. -/
def filled (x : Float) : Solution Float :=
  ((({ model := ⟨0⟩ } : Solution Float).set ⟨0⟩ x).set ⟨1⟩ x).report (some x)

/-- At ten a difference of a half is found. -/
theorem half_reported : ∃ ds, (filled (nearest 10)).diagnostics (.afterCalls {} calls) = .ok ds ∧
    (∃ text x y, .inconsistent "d" text x y ∈ ds) ∧
      (filled (nearest 10)).validate (.afterCalls {} calls) (.real (nearest (21 / 2))) =
        .ok "wrong objective, expected: 10.500000" := by
  have herrors : (filled (nearest 10)).errors (.afterCalls {} calls) =
      .ok ["inconsistent: d = 10.000000 but x + 0.50 = 10.500000"] := by decide +kernel
  obtain ⟨ds, hds, hlines⟩ := exists_of_bind herrors
  have hreports := Solution.reports_differences calls (filled (nearest 10)) hds
  have hlines : ds.map Diagnostic.message =
      ["inconsistent: d = 10.000000 but x + 0.50 = 10.500000"] := Except.ok.inj hlines
  rw [hlines] at hreports
  refine ⟨ds, hds, ?_, ?_⟩
  · exact (hreports.2.1 ⟨1⟩ (by decide +kernel) _ (nearest 10) (nearest (21 / 2)) rfl (by decide +kernel)
      (by decide +kernel) (by decide +kernel) (by decide +kernel)).1.mpr (by decide +kernel)
  · rw [(hreports.2.2 (.real (nearest (21 / 2))) (nearest 10) (nearest (21 / 2)) rfl (.inl rfl)
      (by decide +kernel) (by decide +kernel)).1]
    decide +kernel

/-- At a billion it passes. -/
theorem half_passes :
    Apart (nearest 1000000000 : Float) (nearest (2000000001 / 2)) ∧
      (filled (nearest 1000000000)).evaluate (.afterCalls {} calls)
        (.node ⟨1⟩ .sum [.var ⟨0⟩, .const (nearest (1 / 2))]) = .ok (some (nearest (2000000001 / 2))) ∧
      (filled (nearest 1000000000)).errors (.afterCalls {} calls) = .ok [] ∧
      (filled (nearest 1000000000)).validate (.afterCalls {} calls) (.real (nearest (2000000001 / 2))) =
        .ok "objective: 1000000000.500000" := by
  refine ⟨?_, ?_, ?_, ?_⟩
  all_goals decide +kernel

end Large

end DecisionModel
