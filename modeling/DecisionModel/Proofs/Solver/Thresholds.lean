import DecisionModel.Proofs.Tolerant.Thresholds
import DecisionModel.Proofs.Tolerant.Truths

/-!
# The two thresholds tell truth apart

Whatever was lowered before, with SCIP and with Z3 a comparison of terms can be reified and posted, and
the binary variable that it becomes can be one exactly where the comparison that is posted holds, and
zero exactly where its negation does (`Decides`); the truth value of a term is forced by its absolute
value (`Forces`). Between the thresholds no value is left (`thresholds_separate`).
-/

namespace DecisionModel.Tolerant

open LowerM

variable {σ β : Type} {P : Primitives Exact σ} {G : Set Expr} {s : TolerantState σ} {h x y : Expr}
  {ε q : ℚ} {id : HandleId}

/-! ### Encodings of truth return -/

theorem returns_epsilon : Returns (epsilon : TolerantM Exact σ (Number Exact)) :=
  fun s => ⟨_, s, rfl⟩

theorem returns_threshold : Returns (threshold : TolerantM Exact σ (Number Exact)) :=
  fun s => ⟨_, s, rfl⟩

theorem returns_negatedThreshold : Returns (negatedThreshold : TolerantM Exact σ (Number Exact)) :=
  fun s => ⟨_, s, rfl⟩

theorem Serves.returns_gated (hP : Serves P) (b h : Expr) : Returns (gated P b h) := by
  unfold gated
  split
  · exact returns_pure _
  · exact returns_if (fun _ => returns_pure _) fun _ => returns_binary _ _ _ _
  · exact hP.gate b h

theorem Serves.returns_requireGated (hP : Serves P) (b h : Expr) : Returns (requireGated P b h) :=
  returns_bind (hP.returns_gated b h) fun _ => returns_constrain fun name => hP.addAbove _ name rfl

theorem Serves.returns_gates (hP : Serves P) (k : Comparison) (b notB δ : Expr)
    (e a c : Number Exact) : Returns (gates P k b notB δ e a c) := by
  have hsub : ∀ x y : Expr, Returns (LowerM.sub x y : TolerantM Exact σ Expr) :=
    returns_binary Number.sub .sub
  have hadd : ∀ x y : Expr, Returns (LowerM.add x y : TolerantM Exact σ Expr) :=
    returns_binary Number.add .add
  have hrequire := hP.returns_requireGated
  cases k with
  | le => exact returns_bind (hsub _ _) fun _ => returns_bind (hrequire _ _) fun _ =>
      returns_bind (hsub _ _) fun _ => hrequire _ _
  | lt => exact returns_bind (hsub _ _) fun _ => returns_bind (hrequire _ _) fun _ =>
      returns_bind (hadd _ _) fun _ => hrequire _ _
  | ge => exact returns_bind (hadd _ _) fun _ => returns_bind (hrequire _ _) fun _ =>
      returns_bind (hsub _ _) fun _ => hrequire _ _
  | gt => exact returns_bind (hsub _ _) fun _ => returns_bind (hrequire _ _) fun _ =>
      returns_bind (hsub _ _) fun _ => hrequire _ _
  | eq => exact returns_bind (hsub _ _) fun _ => returns_bind (hrequire _ _) fun _ =>
      returns_bind (hadd _ _) fun _ => returns_bind (hrequire _ _) fun _ =>
        returns_bind (hP.absolute _) fun _ => returns_bind (hsub _ _) fun _ => hrequire _ _
  | ne => exact returns_bind (hP.absolute _) fun _ => returns_bind (hsub _ _) fun _ =>
      returns_bind (hrequire _ _) fun _ => returns_bind (hsub _ _) fun _ => hrequire _ _

theorem Serves.returns_reify (hP : Serves P) (k : Comparison) (x y : Expr) :
    Returns (reify P k x y) := by
  refine returns_bind returns_epsilon fun e => returns_bind returns_threshold fun a =>
    returns_bind returns_negatedThreshold fun c => returns_bind (returns_binary _ _ _ _) fun δ =>
      returns_bind (hP.responds.newBinary _) fun b => returns_bind (returns_binary _ _ _ _) fun notB => ?_
  have hgates : Returns (do gates P k b notB δ e a c; return b) :=
    returns_bind (hP.returns_gates k b notB δ e a c) fun _ => returns_pure b
  cases k <;> simpa only [gates, bind_assoc] using hgates

theorem Serves.returns_newTruth (hP : Serves P) (h : Expr) : Returns (newTruth P h) :=
  returns_bind returns_epsilon fun _ => returns_bind returns_threshold fun _ =>
    returns_bind (hP.responds.newBinary _) fun _ => returns_bind (hP.absolute h) fun _ =>
      returns_bind (returns_binary _ _ _ _) fun _ => returns_bind (returns_binary _ _ _ _) fun _ =>
        returns_bind (returns_constrain fun name => hP.addAbove _ name rfl) fun _ =>
          returns_bind (returns_binary _ _ _ _) fun _ => returns_bind (returns_binary _ _ _ _) fun _ =>
            returns_bind (hP.returns_gated _ _) fun _ =>
              returns_bind (returns_constrain fun name => hP.addBelow _ name rfl) fun _ => returns_pure _

theorem Serves.returns_truth (hP : Serves P) (h : Expr) : Returns (truth P h) := by
  unfold truth
  split
  · exact returns_pure _
  · exact returns_pure _
  · refine returns_bind returns_getSolver fun e => returns_if (fun _ => returns_pure _) fun _ => ?_
    split
    · exact returns_pure _
    · exact returns_bind (hP.returns_newTruth h) fun b => returns_bind (returns_modifySolver _)
        fun _ => returns_pure _

/-- A comparison of terms can be posted if the first threshold is finite. -/
theorem postComparison_returns (hP : Serves P) (hw : World G s.nextHandle) (hx : x ∈ G) (hy : y ∈ G)
    (hε : s.solver.epsilon.exact = .finite ε) (k : Comparison) :
    ∃ s', (postComparison P k x y).Runs s () s' := by
  obtain ⟨δ, s₁, hsub⟩ := returns_binary Number.sub .sub x y s
  obtain ⟨G₁, hs, hδ, -⟩ := gives_sub hw hx hy hsub
  have hε₁ : s₁.solver.epsilon.exact = .finite ε := by rw [hs.epsilon_eq, hε]
  have habove := fun {l : Number Exact} {q : ℚ} (hl : l.exact = .finite q) (h : Expr) =>
    returns_constrain (P := P) (h := h) fun name => hP.addAbove h name hl
  have hbelow := fun {u : Number Exact} {q : ℚ} (hu : u.exact = .finite q) (h : Expr) =>
    returns_constrain (P := P) (h := h) fun name => hP.addBelow h name hu
  have hnegated : s.solver.epsilon.neg.exact = .finite (-ε) := by rw [exact_neg, hε]; rfl
  cases k with
  | le =>
    obtain ⟨_, s', hr⟩ := hbelow hε δ s₁
    exact ⟨s', runs_bind.mpr ⟨_, s, rfl, runs_bind.mpr ⟨δ, s₁, hsub, hr⟩⟩⟩
  | lt =>
    obtain ⟨-, hc⟩ := runs_negatedThreshold hε₁ rfl
    obtain ⟨_, s', hr⟩ := hbelow hc δ s₁
    exact ⟨s', runs_bind.mpr ⟨_, s, rfl, runs_bind.mpr ⟨δ, s₁, hsub,
      runs_bind.mpr ⟨_, s₁, rfl, hr⟩⟩⟩⟩
  | ge =>
    obtain ⟨_, s', hr⟩ := habove hnegated δ s₁
    exact ⟨s', runs_bind.mpr ⟨_, s, rfl, runs_bind.mpr ⟨δ, s₁, hsub, hr⟩⟩⟩
  | gt =>
    obtain ⟨-, ha⟩ := runs_threshold hε₁ rfl
    obtain ⟨_, s', hr⟩ := habove ha δ s₁
    exact ⟨s', runs_bind.mpr ⟨_, s, rfl, runs_bind.mpr ⟨δ, s₁, hsub,
      runs_bind.mpr ⟨_, s₁, rfl, hr⟩⟩⟩⟩
  | eq =>
    obtain ⟨_, s', hr⟩ := hP.responds.constrain δ hnegated hε s₁
    exact ⟨s', runs_bind.mpr ⟨_, s, rfl, runs_bind.mpr ⟨δ, s₁, hsub, hr⟩⟩⟩
  | ne =>
    obtain ⟨m, s₂, habsolute⟩ := hP.absolute δ s₁
    obtain ⟨G₂, hs₂, -, -⟩ := hP.documented.absolute hs.world hδ habsolute
    obtain ⟨-, ha⟩ := runs_threshold (s := s₂) (by rw [hs₂.epsilon_eq, hε₁]) rfl
    obtain ⟨_, s', hr⟩ := habove ha m s₂
    exact ⟨s', runs_bind.mpr ⟨_, s, rfl, runs_bind.mpr ⟨δ, s₁, hsub, runs_bind.mpr ⟨m, s₂, habsolute,
      runs_bind.mpr ⟨_, s₂, rfl, hr⟩⟩⟩⟩⟩

/-! ### What is told apart -/

/-- A run of `m` from `s` returns `x` and adds the variables `cs` and the ranges `rs`. -/
def RunsAdding (m : TolerantM Exact σ β) (s : TolerantState σ) (x : β) (cs : List (Created Exact))
    (rs : List (Range Exact)) : Prop :=
  ∃ s', m.Runs s x s' ∧ s'.solver.created.toList = s.solver.created.toList ++ cs ∧
    s'.solver.posted.toList = s.solver.posted.toList ++ rs ∧ s'.violated = s.violated

/-- The values left to a binary variable, for a comparison whose difference is `d`, where it is posted
and where its negation is. -/
structure Decides (ε : ℚ) (k : Comparison) (d : ℚ) (choices : Set ℚ) (posted negated : Prop) : Prop where
  posted_iff : posted ↔ Accepts ε k d
  one_iff : 1 ∈ choices ↔ posted
  zero_iff : 0 ∈ choices ↔ negated
  binary : choices ⊆ {0, 1}
  not_both : ¬ (1 ∈ choices ∧ 0 ∈ choices)
  empty_iff : choices = ∅ ↔ ε < excess k d ∧ excess k d < 11 / 10 * ε

/-- The values left to the truth value of a term whose value is `q`. -/
structure Forces (ε q : ℚ) (choices : Set ℚ) : Prop where
  one_iff : choices = {1} ↔ 11 / 10 * ε ≤ |q|
  zero_iff : choices = {0} ↔ |q| ≤ ε
  empty_iff : choices = ∅ ↔ ε < |q| ∧ |q| < 11 / 10 * ε

/-- Reified and posted, a comparison and its negation go together. -/
def SeparatesComparison (P : Primitives Exact σ) (ε : ℚ) (s : TolerantState σ) (k : Comparison)
    (x y : Expr) : Prop :=
  ∃ b cs rs ts us, RunsAdding (reify P k x y) s b cs rs ∧
    RunsAdding (postComparison P k x y) s () [] ts ∧
    RunsAdding (postComparison P k.negate x y) s () [] us ∧
    ∀ ρ p q, value ρ x = .finite p → value ρ y = .finite q → Decides ε k (p - q)
      (Choices s.nextHandle b cs rs ρ) (∀ r ∈ ts, r.Holds ρ) (∀ r ∈ us, r.Holds ρ)

/-- A term gets a truth value that its absolute value forces. -/
def SeparatesTruth (P : Primitives Exact σ) (ε : ℚ) (s : TolerantState σ) (h : Expr) : Prop :=
  ∃ b cs rs, RunsAdding (truth P h) s b cs rs ∧ ∀ ρ q, value ρ h = .finite q →
    Forces ε q (Choices s.nextHandle b cs rs ρ)

/-- Values are told apart with the first threshold `ε`, for handles in circulation. A term that is known
to be binary is its own truth value, and a truth value that was made before is not made again. -/
structure Separates (P : Primitives Exact σ) (ε : ℚ) : Prop where
  comparison {G : Set Expr} {s : TolerantState σ} {x y : Expr} (k : Comparison) :
    World G s.nextHandle → s.solver.epsilon.exact = .finite ε → x ∈ G → y ∈ G →
      x.number? = none ∨ y.number? = none → SeparatesComparison P ε s k x y
  truth {G : Set Expr} {s : TolerantState σ} {h : Expr} {id : HandleId} :
    World G s.nextHandle → s.solver.epsilon.exact = .finite ε → h ∈ G → h.id? = some id →
      id ∉ s.solver.binaries → s.solver.boolean? id = none → SeparatesTruth P ε s h

theorem decides_choices {k : Comparison} {d : ℚ} {choices : Set ℚ} {posted negated : Prop} (hε : 0 < ε)
    (hchoices : choices = {v | v = 1 ∧ Accepts ε k d ∨ v = 0 ∧ Accepts ε k.negate d})
    (hposted : posted ↔ Accepts ε k d) (hnegated : negated ↔ Accepts ε k.negate d) :
    Decides ε k d choices posted negated := by
  have hone : 1 ∈ choices ↔ Accepts ε k d := by simp [hchoices]
  have hzero : 0 ∈ choices ↔ Accepts ε k.negate d := by simp [hchoices]
  have hbinary : choices ⊆ {0, 1} := by
    rw [hchoices]
    rintro v (⟨rfl, -⟩ | ⟨rfl, -⟩) <;> simp
  refine ⟨hposted, hone.trans hposted.symm, hzero.trans hnegated.symm, hbinary, ?_, ?_⟩
  · rw [hone, hzero]
    exact not_accepts_both hε
  · rw [← accepts_neither_iff, ← hone, ← hzero]
    constructor
    · rintro rfl
      simp
    · rintro ⟨h1, h0⟩
      refine Set.eq_empty_of_forall_notMem fun v hv => ?_
      rcases hbinary hv with rfl | rfl
      · exact h0 hv
      · exact h1 hv

theorem forces_choices {choices : Set ℚ} (hε : 0 < ε)
    (hchoices : choices = {v | v = 1 ∧ 11 / 10 * ε ≤ |q| ∨ v = 0 ∧ |q| ≤ ε}) :
    Forces ε q choices := by
  have hone : 1 ∈ choices ↔ 11 / 10 * ε ≤ |q| := by simp [hchoices]
  have hzero : 0 ∈ choices ↔ |q| ≤ ε := by simp [hchoices]
  refine ⟨⟨fun h => hone.mp (h ▸ rfl), fun h => ?_⟩, ⟨fun h => hzero.mp (h ▸ rfl), fun h => ?_⟩,
    ⟨fun h => ?_, fun h => ?_⟩⟩
  · have hnot : ¬ |q| ≤ ε := by linarith
    ext v
    simp [hchoices, h, hnot]
  · have hnot : ¬ 11 / 10 * ε ≤ |q| := by linarith
    ext v
    simp [hchoices, h, hnot]
  · rw [← not_le, ← not_le, ← hone, ← hzero, h]
    exact ⟨Set.notMem_empty 0, Set.notMem_empty 1⟩
  · ext v
    simp [hchoices, not_le.mpr h.1, not_le.mpr h.2]

theorem separates (hP : Serves P) (hε : 0 < ε) : Separates P ε where
  comparison {G s x y} k hw heps hx hy hterm := by
    obtain ⟨b, s₁, hreify⟩ := hP.returns_reify k x y s
    obtain ⟨s₂, hpost⟩ := postComparison_returns hP hw hx hy heps k
    obtain ⟨s₃, hnegate⟩ := postComparison_returns hP hw hx hy heps k.negate
    obtain ⟨_, cs, rs, hadds, hchoices⟩ := choices_reify hP hw hx hy hterm heps hreify
    obtain ⟨_, ts, hposted, hts⟩ := postComparison_adds hP hw hx hy hterm heps hpost
    obtain ⟨_, us, hnegated, hus⟩ := postComparison_adds hP hw hx hy hterm heps hnegate
    exact ⟨b, cs, rs, ts, us, ⟨s₁, hreify, hadds.created, hadds.posted, hadds.violated⟩,
      ⟨s₂, hpost, hposted.created, hposted.posted, hposted.violated⟩,
      ⟨s₃, hnegate, hnegated.created, hnegated.posted, hnegated.violated⟩, fun ρ p q hp hq =>
        decides_choices hε (hchoices ρ p q hp hq) (hts ρ p q hp hq) (hus ρ p q hp hq)⟩
  truth {G s h id} hw heps hh hid hbinary hnone := by
    obtain ⟨b, s₁, hnew⟩ := hP.returns_newTruth h s
    obtain ⟨_, cs, rs, hadds, hchoices⟩ := choices_newTruth hP hw hh heps hnew
    have hruns : (Tolerant.truth P h).Runs s b
        { s₁ with solver := { s₁.solver with booleans := (id, b) :: s₁.solver.booleans } } := by
      rw [runs_truth_term hid, if_neg hbinary]
      exact .inr ⟨hnone, s₁, hnew, rfl⟩
    exact ⟨b, cs, rs, ⟨_, hruns, hadds.created, hadds.posted, hadds.violated⟩, fun ρ q hq =>
      forces_choices hε (hchoices ρ q hq)⟩

end DecisionModel.Tolerant

/-! ### SCIP and Z3 -/

namespace DecisionModel

open LowerM Tolerant

theorem Scip.serves : Serves (Scip.primitives : Primitives Exact (Scip.Solver Exact)) where
  documented := Scip.documented
  responds := Scip.responds
  addAbove h _ _ name _ := Scip.returns_addRange h _ noUpper name
  addBelow h _ _ name _ := Scip.returns_addRange h noLower _ name
  absolute _ := returns_node _ _
  absolute_term hr := by
    obtain ⟨rfl, -⟩ := runs_node.mp hr
    rfl
  gate _ _ := returns_binary _ _ _ _

theorem Z3.returns_require (c : Comparison) (h : Expr) {x : Number Exact} {q : ℚ}
    (hx : x.exact = .finite q) :
    Returns (do Z3.require c h (← Z3.exactTerm x) : Z3.Z3M Exact Unit) := fun s => by
  obtain ⟨s', -, hruns, -⟩ := Z3.runs_require c h hx s
  exact ⟨(), s', hruns⟩

theorem Z3.returns_requireAbove (h : Expr) {lower : Number Exact} {l : ℚ}
    (hlower : lower.exact = .finite l) : Returns (Z3.requireBounds h lower noUpper) := by
  have hnegInf : (!lower.exact.eq .negInf) = true := by rw [hlower]; rfl
  have hposInf : ¬ (!(noUpper : Number Exact).exact.eq .posInf) = true := by decide
  unfold Z3.requireBounds
  simp only [← bind_assoc]
  rw [if_pos hnegInf, if_neg hposInf]
  exact returns_bind (Z3.returns_require .ge h hlower) fun _ => returns_pure _

theorem Z3.returns_requireBelow (h : Expr) {upper : Number Exact} {u : ℚ}
    (hupper : upper.exact = .finite u) : Returns (Z3.requireBounds h noLower upper) := by
  have hnegInf : ¬ (!(noLower : Number Exact).exact.eq .negInf) = true := by decide
  have hposInf : (!upper.exact.eq .posInf) = true := by rw [hupper]; rfl
  unfold Z3.requireBounds
  rw [if_neg hnegInf, if_pos hposInf]
  exact Z3.returns_require .le h hupper

theorem Z3.serves : Serves (Z3.primitives : Primitives Exact (Z3.Solver Exact)) where
  documented := Z3.documented
  responds := Z3.responds
  addAbove h lower l name hlower :=
    returns_if (fun _ => Z3.returns_require .eq h hlower) fun _ => Z3.returns_requireAbove h hlower
  addBelow h upper u name hupper := by
    refine returns_if (fun heq => ?_) fun _ => Z3.returns_requireBelow h hupper
    have hne : Numeral.holds .eq (noLower : Number Exact) upper = false := by
      simp [Numeral.holds, Comparison.holdsExactly, noLower, hupper, Exact.eq]
    rw [hne] at heq
    cases heq
  absolute h := by
    refine returns_bind ?_ fun _ => returns_node _ _
    unfold LowerM.neg
    split
    · exact returns_pure _
    · exact returns_node _ _
  absolute_term hr := by
    obtain ⟨_, _, -, hnode⟩ := runs_bind.mp hr
    obtain ⟨rfl, -⟩ := runs_node.mp hnode
    rfl
  gate _ _ := returns_node _ _

/-- With any positive first threshold, values are told apart for both solvers. -/
theorem thresholds_separate {ε : ℚ} (hε : 0 < ε) :
    Separates (Scip.primitives : Primitives Exact (Scip.Solver Exact)) ε ∧
      Separates (Z3.primitives : Primitives Exact (Z3.Solver Exact)) ε :=
  ⟨separates Scip.serves hε, separates Z3.serves hε⟩

/-! ### Two real variables -/

namespace Reals

def first : Tolerant.Expr := .leaf ⟨0⟩ "x" false

def second : Tolerant.Expr := .leaf ⟨1⟩ "y" false

def handles : Set Tolerant.Expr := insert second (insert first World.numbers)

theorem world : World handles 2 := ((World.of_numbers 0).insert_leaf "x" false).insert_leaf "y" false

/-- A solver that was given the variables, with a millionth as the first threshold. -/
def lowered {σ : Type} (own : σ) : TolerantState σ :=
  { nextHandle := 2, solver := { epsilon := .real (.finite (1 / 1000000)), solver := own } }

theorem separated :
    SeparatesComparison Scip.primitives (1 / 1000000) (lowered {}) .ne first second ∧
      SeparatesTruth Z3.primitives (1 / 1000000) (lowered {}) first :=
  have h := thresholds_separate (by norm_num : (0 : ℚ) < 1 / 1000000)
  ⟨h.1.comparison .ne world rfl (.inr (.inl rfl)) (.inl rfl) (.inl rfl),
    h.2.truth world rfl (.inr (.inl rfl)) rfl (by simp [lowered]) rfl⟩

end Reals

end DecisionModel
