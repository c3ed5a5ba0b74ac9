import DecisionModel.Proofs.Solver.Idempotent
import DecisionModel.Proofs.Tolerant.Checked
import DecisionModel.Proofs.Tolerant.Model

/-!
# Marked handles are zero or one

A session with SCIP or Z3 goes on for as long as it is asked to: a model is lowered, and more terms and
constraints after it, and any of the requests may fail halfway. If the truth values among the variables
of the models have bounds between zero and one, then at each moment every marked handle is zero or one at
all points that fit the variables and the ranges so far. The products that SCIP gets and the choices that
Z3 gets in their place therefore mean the same (`marks_are_binary`).
-/

namespace DecisionModel.Tolerant

open LowerM

variable {σ : Type} {P : Primitives Exact σ} {w : Stage (Number Exact) ℚ}

/-! ### Requests -/

/-- A handle that the state holds. -/
inductive Holds (s : TolerantState σ) : Expr → Prop
  | handle {p : VarId × Expr} : p ∈ s.handles → Holds s p.2
  | memo {p : NodeId × Expr} : p ∈ s.memo → Holds s p.2
  | created {c : Created Exact} : c ∈ s.solver.created.toList → Holds s c.handle
  | posted {r : Range Exact} : r ∈ s.solver.posted.toList → Holds s r.expression
  | objective {h : Expr} : s.solver.objective = some h → Holds s h
  | truth {p : HandleId × Expr} : p ∈ s.solver.booleans → Holds s p.2

/-- A handle that one of the requests returned at its turn. -/
inductive Returned (P : Primitives Exact σ) :
    List (Context Exact × Request Exact) → TolerantState σ → Expr → Prop
  | now {c x requests s h s'} : (Backend.translateInput (backend P) c x).Runs s h s' →
    Returned P ((c, .term x) :: requests) s h
  | later {request requests s h} :
    Returned P requests (((backend P).answer (lowerModel P) request).run.run s).2 h →
    Returned P (request :: requests) s h

/-- Marks are right for the handles of `G`: each mark is the identity of one of them, and a marked handle
is zero or one at all points that fit. -/
structure MarksBinary (G : Set Expr) (s : TolerantState σ) : Prop where
  world : World G s.nextHandle
  holds {h : Expr} : Holds s h → h ∈ G
  made {id : HandleId} : id ∈ s.solver.binaries → ∃ h ∈ G, h.id? = some id
  binary {h : Expr} {id : HandleId} {ρ : HandleId → ℚ} : h ∈ G → h.id? = some id →
    id ∈ s.solver.binaries → s.solver.Fits ρ → IsBinary (value ρ h)

theorem marksBinary_of_circulates {s : TolerantState σ} (hs : Circulates Trusted w s) :
    MarksBinary w.handles s where
  world := hs.own.world
  holds hh := by
    cases hh with
    | handle hp => exact hs.handles hp
    | memo hp => exact hs.memo hp
    | created hc => exact hs.own.created hc
    | posted hr => exact hs.own.posted hr
    | objective h => exact hs.own.objective h
    | truth hp => exact (hs.own.booleans hp).1.has
  made hid := by
    obtain ⟨h, hh, heq⟩ := hs.own.binaries hid
    exact ⟨h, hh.has, heq⟩
  binary hh hid hm hρ := (hs.own.isTruth hh hid hm).binary (hs.own.points hρ)

theorem circulates_initial (own : σ) : Circulates Trusted Stage.initial (initial own) where
  handles hp := nomatch hp
  memo hp := nomatch hp
  own := {
    world := World.of_numbers _
    points := fun _ => Set.mem_univ _
    created := fun hc => nomatch hc
    posted := fun hr => nomatch hr
    objective := fun hh => nomatch hh
    binaries := fun hid => nomatch hid
    booleans := fun hp => nomatch hp }

/-- A request does the same with checked products. -/
theorem alike_answer (hP : P.Closed) {request : Context Exact × Request Exact}
    (hunit : request.2 = .model → BooleansWithinUnit request.1) :
    Alike Trusted w ((backend P).answer (lowerModel P) request)
      ((backend P.checked).answer (lowerModel P.checked) request) Stage.Admits := by
  obtain ⟨c, request⟩ := request
  have hB := agree_checked hP
  cases request with
  | model => exact alike_bind (alike_lowerModel hP (hunit rfl)) fun _ _ _ _ => alike_pure trivial
  | constraint x => exact alike_bind (Backend.alike_postInput hB x) fun _ _ _ _ => alike_pure trivial
  | term x => exact alike_bind (Backend.alike_translateInput hB x) fun _ _ _ _ => alike_pure trivial

/-- The step lemma: a request ends in a later stage, and the handle that it returned circulates there. -/
theorem circulates_answer (hP : P.Closed) {request : Context Exact × Request Exact}
    (hunit : request.2 = .model → BooleansWithinUnit request.1) {s : TolerantState σ}
    (hs : Circulates Trusted w s) : ∃ w', w ≤ w' ∧
      Circulates Trusted w' (((backend P).answer (lowerModel P) request).run.run s).2 ∧
      ∀ c x h s', request = (c, .term x) → (Backend.translateInput (backend P) c x).Runs s h s' →
        w'.Has h := by
  obtain ⟨c, request | x | x⟩ := request
  case term =>
    obtain ⟨-, w', hw, hs', hh⟩ := Backend.alike_translateInput (c := c) (agree_checked hP) x s hs
    refine ⟨w', hw, ?_, ?_⟩
    -- Writing the handle out does not change the state.
    · have hrun : (((backend P).answer (lowerModel P) (c, .term x)).run.run s).2 =
          ((Backend.translateInput (backend P) c x).run.run s).2 := by
        rcases hr : (Backend.translateInput (backend P) c x).run.run s with ⟨e | h, s'⟩
        · exact congrArg Prod.snd (run_bind_of_error hr)
        · exact congrArg Prod.snd (run_bind_of_ok hr)
      rw [hrun]
      exact hs'
    · rintro _ _ h s' ⟨⟩ hr
      exact hh h (congrArg Prod.fst hr)
  all_goals
    obtain ⟨-, w', hw, hs', -⟩ := alike_answer hP hunit s hs
    exact ⟨w', hw, hs', fun _ _ _ _ heq => by cases heq⟩

/-- The run lemma, by induction over the requests. -/
theorem circulates_after (hP : P.Closed) {requests : List (Context Exact × Request Exact)}
    (hunit : ∀ c, (c, Request.model) ∈ requests → BooleansWithinUnit c) {s : TolerantState σ}
    (hs : Circulates Trusted w s) : ∃ w', w ≤ w' ∧
      Circulates Trusted w' (after ((backend P).answer (lowerModel P)) requests s) ∧
      ∀ h, Returned P requests s h → w'.Has h := by
  induction requests generalizing w s with
  | nil => exact ⟨w, le_rfl, hs, fun h hh => nomatch hh⟩
  | cons request requests ih =>
    have hfirst : request.2 = .model → BooleansWithinUnit request.1 :=
      fun hm => hunit _ (hm ▸ List.mem_cons_self)
    obtain ⟨w₁, hw₁, hs₁, hnow⟩ := circulates_answer hP hfirst hs
    obtain ⟨w₂, hw₂, hs₂, hlater⟩ := ih (fun c hc => hunit c (List.mem_cons_of_mem _ hc)) hs₁
    refine ⟨w₂, hw₁.trans hw₂, hs₂, fun h hh => ?_⟩
    cases hh with
    | now hr => exact (hnow _ _ h _ rfl hr).mono hw₂
    | later hh => exact hlater h hh

/-- Marks are right after the requests, for the handles that were returned as well; and each request in
turn does the same if products are refused unless their first factor is zero or one. -/
structure Trustworthy (P : Primitives Exact σ) (start : TolerantState σ)
    (requests : List (Context Exact × Request Exact)) : Prop where
  marks : ∃ G, MarksBinary G (after ((backend P).answer (lowerModel P)) requests start) ∧
    ∀ h, Returned P requests start h → h ∈ G
  products {before later : List (Context Exact × Request Exact)}
    {request : Context Exact × Request Exact} : requests = before ++ request :: later →
    ((backend P.checked).answer (lowerModel P.checked) request).run.run
        (after ((backend P).answer (lowerModel P)) before start) =
      ((backend P).answer (lowerModel P) request).run.run
        (after ((backend P).answer (lowerModel P)) before start)

theorem trustworthy (hP : P.Closed) {requests : List (Context Exact × Request Exact)}
    (hunit : ∀ c, (c, Request.model) ∈ requests → BooleansWithinUnit c) {start : TolerantState σ}
    (hstart : Circulates Trusted w start) : Trustworthy P start requests where
  marks := by
    obtain ⟨w', -, hs, hreturned⟩ := circulates_after hP hunit hstart
    exact ⟨w'.handles, marksBinary_of_circulates hs, hreturned⟩
  products {before later request} heq := by
    subst heq
    have hbefore : ∀ c, (c, Request.model) ∈ before → BooleansWithinUnit c :=
      fun c hc => hunit c (List.mem_append_left _ hc)
    have hrequest : request.2 = .model → BooleansWithinUnit request.1 :=
      fun hm => hunit _ (List.mem_append_right _ (hm ▸ List.mem_cons_self))
    obtain ⟨w', -, hs, -⟩ := circulates_after hP hbefore hstart
    exact (alike_answer hP hrequest _ hs).1

/-! ### Sums -/

theorem alike_chainedSum {hs : List Expr} (hhs : w.HasAll hs) :
    Alike Trusted w (chainedSum hs : TolerantM Exact σ Expr) (chainedSum hs) Stage.Has := by
  cases hs with
  | nil => exact alike_const _
  | cons h hs =>
    obtain ⟨hfirst, hrest⟩ := Stage.hasAll_cons.mp hhs
    exact alike_foldlM (fun w' hw k hk x hx => alike_add hk ((hrest x hx).mono hw)) hfirst

end DecisionModel.Tolerant

/-! ### SCIP -/

namespace DecisionModel.Scip

open LowerM Tolerant

variable {w : Stage (Number Exact) ℚ}

theorem alike_call (c : Call Exact) : Alike Trusted w (call c) (call c) Stage.Admits :=
  alike_modifyOwn _

theorem alike_setParameter (name : String) (value : Setting Exact) :
    Alike Trusted w (setParameter name value) (setParameter name value) Stage.Admits :=
  alike_bind (alike_call _) fun _ _ _ _ => alike_modifyOwn _

theorem alike_tolerance : Alike Trusted w (tolerance : ScipM Exact _) tolerance Stage.Admits := by
  refine alike_withEncoding fun n e _ => ?_
  dsimp only
  split
  · exact alike_pure trivial
  · exact alike_fail _

theorem closed : (primitives : Primitives Exact (Solver Exact)).Closed where
  documented := documented
  newVariable _ _ _ _ := alike_bind (alike_call _) fun _ _ _ _ => alike_leaf _ _
  addRange _ _ _ _ := by
    refine alike_ite (alike_call _) (alike_when (alike_call _) fun _ _ => ?_)
    exact alike_ite (alike_call _) (alike_pure trivial)
  absolute hh := alike_node _ (by simp [hh])
  power x hh := alike_node _ (by simp [hh, scalar])
  gate := alike_mul
  quotient hx hy := alike_bind (alike_node _ (by simp [hy, scalar])) fun _ hw _ hr =>
    alike_mul (hx.mono hw) hr
  total {w hs} hhs := by
    cases hs with
    | nil => exact alike_const _
    | cons h hs => exact alike_node _ hhs
  tolerance := alike_tolerance
  setObjective _ _ := alike_call _

theorem alike_openModel (c : Config Exact) :
    Alike Trusted w (openModel c) (openModel c) Stage.Admits := by
  refine alike_bind (alike_call _) fun _ _ _ _ => alike_when (alike_call _) fun _ _ => ?_
  exact alike_forM fun _ _ p _ => alike_setParameter _ _

end DecisionModel.Scip

/-! ### Z3 -/

namespace DecisionModel.Z3

open LowerM Tolerant

variable {w : Stage (Number Exact) ℚ} {h : Expr}

theorem alike_require (c : Comparison) (x y : Expr) :
    Alike Trusted w (require c x y) (require c x y) Stage.Admits := alike_modifyOwn _

theorem alike_exactTerm (x : Number Exact) :
    Alike Trusted w (exactTerm x) (exactTerm x) Stage.Has :=
  alike_bind (alike_lift _) fun _ _ _ _ => alike_ite (alike_const _) (alike_node _ (by simp))

theorem alike_realTerm (hh : w.Has h) : Alike Trusted w (realTerm h) (realTerm h) Stage.Has :=
  alike_ite (alike_node _ (by simp [hh])) (alike_pure hh)

theorem alike_requireBounds (h : Expr) (lower upper : Number Exact) :
    Alike Trusted w (requireBounds h lower upper) (requireBounds h lower upper) Stage.Admits := by
  have hterm {w : Stage (Number Exact) ℚ} (x : Number Exact) :
      Alike Trusted w (exactTerm x) (exactTerm x) Stage.Admits :=
    (alike_exactTerm x).mono fun _ _ _ _ => trivial
  unfold requireBounds
  dsimp only
  refine alike_whenAfter (hterm lower) (fun _ _ _ => alike_require _ _ _) fun _ _ => ?_
  exact alike_ite (alike_bind (hterm _) fun _ _ _ _ => alike_require _ _ _) (alike_pure trivial)

theorem alike_repeatedProduct (hh : w.Has h) (n : ℕ) :
    Alike Trusted w (repeatedProduct h n) (repeatedProduct h n) Stage.Has := by
  induction n with
  | zero => exact alike_pure hh
  | succ n ih => exact alike_bind ih fun _ hw _ hp => alike_mul hp (hh.mono hw)

theorem alike_power (hh : w.Has h) (x : Exact) :
    Alike Trusted w (power h x) (power h x) Stage.Has := by
  refine alike_ite ?_ ?_
  · refine alike_bind (alike_lift _) fun w₁ hw₁ n _ => ?_
    refine alike_bind (alike_repeatedProduct (hh.mono hw₁) _) fun w₂ hw₂ p hp => ?_
    refine alike_ite (alike_bind (alike_realTerm hp) fun w₃ _ r hr => alike_node _ ?_) (alike_pure hp)
    simp [integer, hr]
  · refine alike_bind (alike_realTerm hh) fun w₁ hw₁ b hb => ?_
    refine alike_bind (alike_lift _) fun w₂ hw₂ q _ => ?_
    refine alike_bind (alike_node _ (by simp)) fun w₃ hw₃ f hf => alike_node _ ?_
    simp [hb.mono (hw₂.trans hw₃), hf]

theorem closed : (primitives : Primitives Exact (Solver Exact)).Closed where
  documented := documented
  newVariable _ _ _ _ := by
    refine alike_bind (alike_modifyOwn _) fun _ _ _ _ => alike_bind (alike_leaf _ _) fun _ _ _ hh => ?_
    exact alike_bind (alike_requireBounds _ _ _) fun _ hw _ _ => alike_pure (hh.mono hw)
  addRange _ _ _ _ := by
    refine alike_ite (alike_bind (alike_exactTerm _) fun _ _ _ _ => alike_require _ _ _) ?_
    exact alike_requireBounds _ _ _
  absolute hh := by
    refine alike_bind (alike_neg hh) fun w₁ hw₁ n hn => alike_node _ ?_
    simp [integer, hh.mono hw₁, hn]
  power x hh := alike_power hh x
  gate hb hh := alike_node _ (by simp [integer, hb, hh])
  quotient hx hy := by
    refine alike_bind (alike_realTerm hy) fun w₁ hw₁ r hr => alike_node _ ?_
    simp [hx.mono hw₁, hr]
  total := alike_chainedSum
  tolerance := alike_pure trivial
  setObjective sense _ := alike_modifyOwn fun t : Solver Exact => { t with sense := some sense }

end DecisionModel.Z3

/-! ### Both solvers -/

namespace DecisionModel

open LowerM Tolerant

/-- Whatever is requested of SCIP or Z3, if the models that are lowered have truth values between zero
and one, then every marked handle is zero or one at all points that fit, and the solver is given no
product whose first factor is anything else: there, a product and a choice mean the same. -/
theorem marks_are_binary (config : Config Exact) (requests : List (Context Exact × Request Exact))
    (hunit : ∀ c, (c, Request.model) ∈ requests → BooleansWithinUnit c) :
    Trustworthy Scip.primitives ((Scip.openModel config).run.run Scip.initial).2 requests ∧
      Trustworthy Z3.primitives Z3.initial requests := by
  refine ⟨?_, trustworthy Z3.closed hunit (circulates_initial (σ := Z3.Solver Exact) {})⟩
  obtain ⟨-, w, -, hs, -⟩ := Scip.alike_openModel config Scip.initial (circulates_initial _)
  exact trustworthy Scip.closed hunit hs

namespace Marked

def atLeast : Term Exact := .node ⟨1⟩ (.comparison .ge) [.var ⟨1⟩, .const (.finite 3)]

/-- A truth value of the model, and a comparison. -/
def both : Term Exact := .node ⟨2⟩ .conjunction [.var ⟨0⟩, atLeast]

def model : Model Exact where
  sense := .feasible
  objective := .node ⟨0⟩ .wrapper [.const (.finite 0)]
  vars := [⟨0⟩, ⟨1⟩]
  variableNames := ["x", "b"]

def workspace : Workspace Exact where
  vars := #[{ kind := .boolean, name := "b", lower := .finite 0, upper := .finite 1 },
    { kind := .integer, name := "x", lower := .finite 1, upper := .finite 5 }]
  models := #[model]
  nextNode := 3

def context : Context Exact := ⟨workspace, ⟨0⟩, {}⟩

/-- The model is lowered, and then the term. -/
def requests : List (Context Exact × Request Exact) :=
  [(context, .model), (context, .term (.term both))]

/-- Both solvers mark the truth value, the one of the comparison, and their conjunction. -/
theorem marks_three : BooleansWithinUnit context ∧
    (after ((backend Scip.primitives).answer Scip.lowerModel) requests
      ((Scip.openModel {}).run.run Scip.initial).2).solver.binaries.length = 3 ∧
    (after ((backend Z3.primitives).answer Z3.lowerModel) requests
      Z3.initial).solver.binaries.length = 3 ∧
    Trustworthy Scip.primitives ((Scip.openModel {}).run.run Scip.initial).2 requests ∧
    Trustworthy Z3.primitives Z3.initial requests := by
  have hunit : BooleansWithinUnit context := by decide +kernel
  refine ⟨hunit, by decide +kernel, by decide +kernel, marks_are_binary {} requests fun c hc => ?_⟩
  obtain rfl : c = context := by simpa [requests] using hc
  exact hunit

end Marked

end DecisionModel
