import DecisionModel.Proofs.Builder.History
import DecisionModel.Proofs.Solver.Idempotent
import DecisionModel.Proofs.Tolerant.ConstraintFolding

/-!
# Constant terms fold to their values

A term without variables is computed while it is lowered for SCIP or Z3, and evaluation computes it as
well. The two agree (`History.folds_exactly`) if the operands of its sums add up: lowering adds from
left to right and rounds each time, evaluation rounds a sum once. One, two and three tenths are where
they part (`Fractions.tenths_differ`).

What carries the proof over all that was lowered before is that the memo stays sound
(`Tolerant.memoSound_after`).
-/

namespace DecisionModel

open LowerM Backend Build

variable {α ν σ : Type}

/-! ### The memo stays sound -/

namespace Tolerant

variable [Scalar α] [Scalar.Congruent α] [Scalar.Decisive α] {P : Primitives α σ} {c : Context α}
  {a : Assignment α} {origin : NodeId → Option (Term α)}

/-- What lowering a well-built term enters in the memo is sound. -/
theorem keepsWithin_memo (hP : (backend P).Preserves (Upholds (MemoSound P c a origin)))
    (hmodel : a.model = c.model) {t : Term α} (ht : t.WellBuilt origin) :
    KeepsWithin (Upholds (MemoSound P c a origin)) (backend P) c t := by
  refine keepsWithin_of_enters hP fun u hu id s k s₁ hid _ hs hr hmemo => ?_
  have horigin : origin id = some u := (ht.within hu).registered (.refl u) (by cases u <;> exact hid)
  exact (hs hmemo).insert horigin fun hu => (folds_translate hmodel hu hmemo hr).2.2

/-- The memo is sound after any requests. -/
theorem memoSound_after (hP : P.Contained) (hmodel : a.model = c.model)
    (hw : c.workspace.WellFormed origin) {known : List (Term α)} (hk : ∀ t ∈ known, t.WellBuilt origin)
    {requests : List (Request α)}
    (hrequests : ∀ r ∈ requests, ∀ x, r.input? = some x → x.Available known)
    {start : LoweringState (Number α) (Encoding α σ)} (hstart : start.memo = []) :
    MemoSound P c a origin
      (after ((backend P).answer (lowerModel P)) (requests.map (c, ·)) start).memo := by
  have hown : ∀ f : σ → σ, Keeps (Upholds (MemoSound P c a origin)) (modifyOwn f : TolerantM α σ Unit) :=
    fun _ => upholds_modifySolver _ _
  have hcreates := (hP.keep hown).creates
  have hpreserves := hcreates.toEncodes.preserves
  refine related_after (R := Upholds (MemoSound P c a origin)) (fun request hrequest => ?_) start ?_
  · obtain ⟨r, hr, rfl⟩ := List.mem_map.mp hrequest
    refine Backend.keeps_answer hpreserves ?_ fun t ht => ?_
    · exact keeps_lowerModel hcreates (hP.tolerance hown) (fun x => upholds_modifySolver _ _) .of_entered
        fun t ht => keepsWithin_memo hpreserves hmodel (hw.contains ht)
    · exact keepsWithin_memo hpreserves hmodel ((hrequests r hr _ ht).known hk)
  · rw [hstart]
    exact fun _ _ _ h => nomatch h

/-- Whatever was requested of the solver before: lowering the term gives a number, which is the value
of the term, if it has one, and posting it reports a violation exactly if this is zero. -/
structure FoldsExactly (P : Primitives α σ) (start : LoweringState (Number α) (Encoding α σ))
    (c : Context α) (known : List (Term α)) (s : Solution α) (t : Term α) : Prop where
  value {requests : List (Request α)} {before s' : LoweringState (Number α) (Encoding α σ)}
    {h : Handle (Number α)} : (∀ r ∈ requests, ∀ x, r.input? = some x → x.Available known) →
      before = after ((backend P).answer (lowerModel P)) (requests.map (c, ·)) start →
        (Backend.translate (backend P) c t).Runs before h s' → ∃ y, h = scalar y ∧
          ∀ x, s.evaluate c.workspace t = .ok (some x) → Scalar.exact y = Scalar.exact x
  verdict {requests : List (Request α)} {before s' : LoweringState (Number α) (Encoding α σ)} :
    (∀ r ∈ requests, ∀ x, r.input? = some x → x.Available known) →
      before = after ((backend P).answer (lowerModel P)) (requests.map (c, ·)) start →
        (Backend.post (backend P) c t).Runs before () s' →
          ∀ x, s.evaluate c.workspace t = .ok (some x) →
            (s'.violated ≠ before.violated ↔ Scalar.isZero x = true)

theorem foldsExactly {start : LoweringState (Number α) (Encoding α σ)} {known : List (Term α)}
    {s : Solution α} {t : Term α} (hstart : start.memo = []) (hP : P.Contained)
    (hmodel : s.model = c.model) (h : History c.workspace known) (ht : (Input.term t).Available known)
    (hregular : s.assignment.Regular c.workspace t)
    (hfirst : ∀ id ts, Term.Within (.node id (.custom "n_ary_if") ts) t → P.total = chainedSum) :
    FoldsExactly P start c known s t := by
  obtain ⟨origin, hw, hk⟩ := h.wellFormed
  have hfoldable : Foldable P c s.assignment origin t := ⟨hregular, ht.known hk, hfirst _ _⟩
  have hsound {requests : List (Request α)}
      (hrequests : ∀ r ∈ requests, ∀ x, r.input? = some x → x.Available known) :=
    memoSound_after (a := s.assignment) hP hmodel hw hk hrequests hstart
  refine ⟨fun hrequests hbefore hr => ?_, fun hrequests hbefore hr x hx => ?_⟩
  · subst hbefore
    exact (folds_translate hmodel hfoldable (hsound hrequests) hr).2.2
  · subst hbefore
    obtain ⟨-, texts, hviolated, htexts⟩ := judges_post hmodel hfoldable none (hsound hrequests) hr
    obtain ⟨r, hread, rfl⟩ := Assignment.exists_reading none none hx
    have hverdict : texts = [] ↔ Scalar.isZero r.value = false := htexts r hread
    rw [hviolated, Ne, List.append_right_eq_self, hverdict, Bool.not_eq_false]

end Tolerant

variable [Scalar α] [Scalar.Congruent α] [Scalar.Decisive α]

/-- A term without variables that builders made folds to its value for Z3 and, unless it has a first
match, for SCIP, and a constraint without variables is reported as violated exactly if it evaluates to
zero. -/
theorem History.folds_exactly {w : Workspace α} {known : List (Term α)} (h : History w known)
    {t : Term α} (ht : (Input.term t).Available known) (s : Solution α)
    (hregular : s.assignment.Regular w t) (config : Config α) :
    Tolerant.FoldsExactly Z3.primitives Z3.initial ⟨w, s.model, config⟩ known s t ∧
      ((∀ id ts, ¬ Term.Within (.node id (.custom "n_ary_if") ts) t) →
        Tolerant.FoldsExactly Scip.primitives ((Scip.openModel config).run.run Scip.initial).2
          ⟨w, s.model, config⟩ known s t) := by
  refine ⟨Tolerant.foldsExactly rfl Z3.contained rfl h ht hregular fun _ _ _ => rfl, fun hfirst => ?_⟩
  refine Tolerant.foldsExactly ?_ Scip.contained rfl h ht hregular fun id ts hw => absurd hw (hfirst id ts)
  exact Scip.keeps_openModel (R := Upholds (· = [])) (fun f => upholds_modifySolver _ _) config _ rfl

/-! ### Sums of fractions -/

namespace Fractions

open Scalar

/-- The sum of the first three fractions with a denominator. -/
def total (d : Rat) : Term Float :=
  .node ⟨1⟩ (.custom "sum") [.const (nearest (1 / d)), .const (nearest (2 / d)),
    .const (nearest (3 / d))]

/-- The constraint that they add up to six times the first. -/
def constraint (d : Rat) : Term Float :=
  .node ⟨2⟩ (.comparison .eq) [total d, .const (nearest (6 / d))]

/-- A model, and the two terms built. -/
def workspace (d : Rat) : Workspace Float := ((do
  let _ ← newModel .feasible
  let total ← Build.aggregate "sum" [.literal (.real (nearest (1 / d))),
    .literal (.real (nearest (2 / d))), .literal (.real (nearest (3 / d)))]
  let _ ← Build.relate .eq (.term total) (.literal (.real (nearest (6 / d)))) :
    Build Float Unit).run.run {}).2

/-- The terms that the calls returned. -/
def known (d : Rat) : List (Term Float) := [total d, constraint d]

theorem history (d : Rat) : History (workspace d) (known d) := by
  refine (.returned (.relate .eq (.term (total d)) (.literal (.real (nearest (6 / d)))))
    (.returned (.aggregate "sum" [.literal (.real (nearest (1 / d))),
        .literal (.real (nearest (2 / d))), .literal (.real (nearest (3 / d)))])
      (.returned (.newModel .feasible) .start ?_ rfl) ?_ rfl) ?_ rfl :
    History (workspace d) ([] ++ [total d] ++ [constraint d]))
  all_goals simp [Call.inputs, Input.Available, total]

/-- A solution without values. -/
def solution : Solution Float := { model := ⟨0⟩ }

def context (d : Rat) : Context Float := ⟨workspace d, ⟨0⟩, {}⟩

/-- The nodes of the constraint are itself and the sum. -/
theorem op_of_within {d : Rat} {id : NodeId} {op : Operator} {ts : List (Term Float)}
    (h : Term.Within (.node id op ts) (constraint d)) : op = .comparison .eq ∨ op = .custom "sum" ∧
      ts = [.const (nearest (1 / d)), .const (nearest (2 / d)), .const (nearest (3 / d))] := by
  rcases h with _ | ⟨hm, h⟩
  · exact .inl rfl
  · simp only [List.mem_cons, List.not_mem_nil, or_false] at hm
    rcases hm with rfl | rfl
    · rcases h with _ | ⟨hm, h⟩
      · exact .inr ⟨rfl, rfl⟩
      · simp only [List.mem_cons, List.not_mem_nil, or_false] at hm
        rcases hm with rfl | rfl | rfl <;> cases h
    · cases h

theorem regular {d : Rat} (h : AddsUp [(nearest (1 / d) : Float), nearest (2 / d), nearest (3 / d)]) :
    solution.assignment.Regular (workspace d) (constraint d) where
  closed := rfl
  builtin _ := rfl
  adds hw hop xs hxs := by
    obtain rfl | ⟨rfl, rfl⟩ := op_of_within hw
    · simp at hop
    · rcases hxs with _ | ⟨hx, _ | ⟨hy, _ | ⟨hz, _ | _⟩⟩⟩
      cases hx
      cases hy
      cases hz
      exact h
  number hw hop := by
    obtain rfl | ⟨rfl, -⟩ := op_of_within hw <;> simp at hop

theorem quarters_addUp : AddsUp [(nearest (1 / 4) : Float), nearest (2 / 4), nearest (3 / 4)] := by
  have hsum : sum [(nearest (1 / 4) : Float), nearest (2 / 4), nearest (3 / 4)] =
      .ok (nearest (6 / 4)) := by decide +kernel
  intro z hz
  obtain rfl := Except.ok.inj (hsum.symm.trans hz)
  change exact _ = exact _
  decide +kernel

/-- Z3 with the model and the sum lowered into it. -/
def lowered (d : Rat) : Z3.Z3State Float :=
  after ((Tolerant.backend Z3.primitives).answer (Tolerant.lowerModel Z3.primitives))
    ([.model, .term (.term (total d))].map (context d, ·)) Z3.initial

/-- Quarters add up. After the sum was lowered, the constraint folds to one, and posting it reports
nothing. -/
theorem quarters_hold : ∃ h s s',
    (Backend.translate (Tolerant.backend Z3.primitives) (context 4) (constraint 4)).Runs
        (lowered 4) h s ∧
      (∃ y, h = Tolerant.scalar y ∧ exact y = .finite 1) ∧
        (Backend.post (Tolerant.backend Z3.primitives) (context 4) (constraint 4)).Runs
          (lowered 4) () s' ∧ s'.violated = (lowered 4).violated := by
  have hknown : (Input.term (constraint 4)).Available (known 4) := by
    simp [Input.Available, known, constraint]
  have hrequests : ∀ r ∈ [Request.model, .term (.term (total 4))], ∀ x, r.input? = some x →
      x.Available (known 4) := by simp [Request.input?, Input.Available, known, total]
  have hfolds := ((history 4).folds_exactly hknown solution (regular quarters_addUp) {}).1
  have hone : solution.evaluate (workspace 4) (constraint 4) = .ok (some (nearest 1)) := by
    decide +kernel
  obtain ⟨h, hh⟩ := Option.isSome_iff_exists.mp (show (((Backend.translate
    (Tolerant.backend Z3.primitives) (context 4) (constraint 4)).run.run
      (lowered 4)).1.toOption).isSome by decide +kernel)
  obtain ⟨u, hu⟩ := Option.isSome_iff_exists.mp (show (((Backend.post
    (Tolerant.backend Z3.primitives) (context 4) (constraint 4)).run.run
      (lowered 4)).1.toOption).isSome by decide +kernel)
  have hr := runs_of_toOption hh
  have hposted := runs_of_toOption hu
  obtain ⟨y, hy, hvalue⟩ := hfolds.value hrequests rfl hr
  have hverdict := hfolds.verdict hrequests rfl hposted _ hone
  refine ⟨h, _, _, hr, ⟨y, hy, (hvalue _ hone).trans (by decide +kernel)⟩, hposted, ?_⟩
  exact not_ne_iff.mp (hverdict.not.mpr (by decide +kernel))

/-- The sum of tenths folds to another number than it evaluates to, and the constraint is reported as
violated. -/
def Differs {σ : Type} (P : Tolerant.Primitives Float σ)
    (start : LoweringState (Number Float) (Tolerant.Encoding Float σ)) : Prop :=
  (∃ y s, (Backend.translate (Tolerant.backend P) (context 10) (total 10)).Runs start
      (Tolerant.scalar y) s ∧ exact y ≠ exact (nearest (6 / 10) : Float)) ∧
  ∃ s, (Backend.post (Tolerant.backend P) (context 10) (constraint 10)).Runs start () s ∧
    s.violated = ["sum( 0.10, 0.20, 0.30 ) == 0.60"]

/-- Tenths do not add up: the sum of three evaluates to six tenths, so that the constraint holds, but
it folds to the next greater double, and the constraint is reported as violated. -/
theorem tenths_differ : History (workspace 10) (known 10) ∧ (constraint 10).mentions = [] ∧
    solution.evaluate (workspace 10) (total 10) = .ok (some (nearest (6 / 10))) ∧
    solution.evaluate (workspace 10) (constraint 10) = .ok (some (nearest 1)) ∧
    Differs Z3.primitives Z3.initial ∧
    Differs Scip.primitives ((Scip.openModel {}).run.run Scip.initial).2 := by
  refine ⟨history 10, rfl, by decide +kernel, by decide +kernel,
    ⟨⟨_, _, rfl, ?_⟩, _, runs_of_toOption ?_, ?_⟩,
    ⟨_, _, rfl, ?_⟩, _, runs_of_toOption ?_, ?_⟩
  all_goals decide +kernel

end Fractions

end DecisionModel
