import DecisionModel.Solver.Session
import DecisionModel.Proofs.CpSat.Memo
import DecisionModel.Proofs.Lowering.Solution
import DecisionModel.Proofs.Tolerant.Truths

/-!
# Lowering is idempotent

A solver is asked again and again to lower the model, terms and constraints, and a request may fail
halfway. For each of the three solvers a node that was lowered once has its handle for good: lowering it
again returns that handle and leaves the whole state as it is, so no call into the solver is made and no
counter moves (`lowers_once`). For the tolerant solvers the same holds of the truth value of a handle.
-/

namespace DecisionModel

open LowerM

variable {α ν σ β ρ : Type}

/-- The state after several steps, each taken whether or not the one before failed. -/
def after (run : ρ → LowerM α ν σ β) (steps : List ρ) (s : LoweringState ν σ) : LoweringState ν σ :=
  steps.foldl (fun s step => ((run step).run.run s).2) s

theorem related_after {R : LoweringState ν σ → LoweringState ν σ → Prop}
    [IsPreorder (LoweringState ν σ) R] {run : ρ → LowerM α ν σ β} {steps : List ρ}
    (hrun : ∀ step ∈ steps, Keeps R (run step)) (s : LoweringState ν σ) : R s (after run steps s) := by
  induction steps generalizing s with
  | nil => exact keeps_refl s
  | cons step steps ih =>
    obtain ⟨hstep, hsteps⟩ := List.forall_mem_cons.mp hrun
    exact keeps_trans (hstep s) (ih hsteps _)

variable [Scalar α] [Numeral ν]

/-- Runs a request for the model as it stands then. -/
def Backend.answer (B : Backend α ν σ) (lowerModel : Context α → LowerM α ν σ Unit)
    (request : Context α × Request α) : LowerM α ν σ String :=
  request.2.run B (lowerModel request.1) request.1

/-- What is requested to be lowered, if it is not the model. -/
def Request.input? : Request α → Option (Input α)
  | .model => none
  | .constraint x => some x
  | .term x => some x

theorem Backend.keeps_answer {R : LoweringState ν σ → LoweringState ν σ → Prop} [Unaffected R]
    {B : Backend α ν σ} (hB : B.Preserves R) {lowerModel : Context α → LowerM α ν σ Unit}
    {request : Context α × Request α} (hmodel : Keeps R (lowerModel request.1))
    (hterm : ∀ t, request.2.input? = some (.term t) → B.KeepsWithin R request.1 t) :
    Keeps R (B.answer lowerModel request) := by
  obtain ⟨c, request⟩ := request
  cases request with
  | model => exact keeps_bind hmodel fun _ => keeps_pure _
  | constraint x =>
    exact keeps_bind (keeps_postInput hB fun t ht => hterm t (congrArg some ht)) fun _ => keeps_pure _
  | term x =>
    exact keeps_bind (keeps_translateInput hB fun t ht => hterm t (congrArg some ht)) fun _ => keeps_pure _

/-- A node keeps its handle: whatever is requested after it was lowered, lowering it again returns the
handle and changes nothing. So it is also for a node that was lowered inside another one, or in a
request that failed afterwards; its handle is in the memo. -/
structure Backend.LowersOnce (B : Backend α ν σ) (lowerModel : Context α → LowerM α ν σ Unit) :
    Prop where
  again {t : Term α} {id : NodeId} (c c' : Context α) {s s₁ : LoweringState ν σ} {h : Handle ν}
    (requests : List (Context α × Request α)) : t.identity? = some id →
    (B.translate c t).Runs s h s₁ →
    (B.translate c' t).Runs (after (B.answer lowerModel) requests s₁) h
      (after (B.answer lowerModel) requests s₁)
  nested {t : Term α} {id : NodeId} (c : Context α) {s : LoweringState ν σ} {h : Handle ν}
    (requests : List (Context α × Request α)) : t.identity? = some id → s.memo? id = some h →
    (B.translate c t).Runs (after (B.answer lowerModel) requests s) h
      (after (B.answer lowerModel) requests s)

theorem Backend.lowersOnce {R : LoweringState ν σ → LoweringState ν σ → Prop} [Traversed R]
    {B : Backend α ν σ} (hB : B.Preserves R) {lowerModel : Context α → LowerM α ν σ Unit}
    (hmodel : ∀ c, Keeps R (lowerModel c)) (hR : ∀ s s', R s s' → Remembers s s') :
    B.LowersOnce lowerModel := by
  have hnested {t : Term α} {id : NodeId} (c : Context α) {s : LoweringState ν σ} {h : Handle ν}
      (requests : List (Context α × Request α)) (hid : t.identity? = some id)
      (hm : s.memo? id = some h) := by
    have hs : R s (after (B.answer lowerModel) requests s) := related_after
      (fun request _ => keeps_answer hB (hmodel request.1) fun t _ => keepsWithin hB t) s
    exact runs_translate_of_memo? (B := B) (c := c) hid (hR _ _ hs id h hm)
  exact ⟨fun c c' s s₁ h requests hid hr => hnested c' requests hid (memo?_of_runs_translate hid hr),
    hnested⟩

/-! ### Truth values -/

namespace Tolerant

variable {P : Primitives α σ}

/-- A request, or taking the truth value of a handle. -/
inductive Step (α : Type) where
  | request (c : Context α) (r : Request α)
  | truth (h : Handle (Number α))

/-- Runs a step; the text of the handle comes back. -/
def Step.run (P : Primitives α σ) (lowerModel : Context α → TolerantM α σ Unit) :
    Step α → TolerantM α σ String
  | .request c r => (backend P).answer lowerModel (c, r)
  | .truth h => do return (← Tolerant.truth P h).text

theorem keeps_step (hP : P.Retain) {lowerModel : Context α → TolerantM α σ Unit}
    (hmodel : ∀ c, Keeps Retains (lowerModel c)) (step : Step α) :
    Keeps Retains (step.run P lowerModel) := by
  cases step with
  | request c r =>
    exact Backend.keeps_answer (preserves hP) (hmodel c) fun t _ => Backend.keepsWithin (preserves hP) t
  | truth h => exact keeps_bind (keeps_truth hP h) fun _ => keeps_pure _

/-- A handle keeps its truth value: in all that follows on `start`, once the truth value of a handle was
taken, taking it again returns the same binary variable and changes nothing. -/
def DecidesOnce (P : Primitives α σ) (lowerModel : Context α → TolerantM α σ Unit)
    (start : LoweringState (Number α) (Encoding α σ)) : Prop :=
  ∀ (before later : List (Step α)) (h b : Handle (Number α)) (s s₁ s' : LoweringState _ _),
    s = after (Step.run P lowerModel) before start →
    (∀ id, h.id? = some id → id.index < s.nextHandle) →
    (truth P h).Runs s b s₁ → s' = after (Step.run P lowerModel) later s₁ →
    (truth P h).Runs s' b s'

theorem decidesOnce (hP : P.Retain) {lowerModel : Context α → TolerantM α σ Unit}
    (hmodel : ∀ c, Keeps Retains (lowerModel c)) {start : LoweringState (Number α) (Encoding α σ)}
    (hstart : start.solver.Truthful) : DecidesOnce P lowerModel start := by
  rintro before later h b s s₁ s' rfl hold hr rfl
  have hs := related_after (fun step (_ : step ∈ before) => keeps_step hP hmodel step) start
  have hlater := related_after (fun step (_ : step ∈ later) => keeps_step hP hmodel step) s₁
  exact runs_truth_again hP (hs.truths hstart).1 hold hr hlater

end Tolerant

end DecisionModel

/-! ### SCIP -/

namespace DecisionModel.Scip

open LowerM Tolerant

variable {α : Type} [Scalar α]

section

variable {R : ScipState α → ScipState α → Prop} [Unaffected R]

omit [Scalar α] in
theorem keeps_tolerance : Keeps R (tolerance : ScipM α (Number α)) := by
  refine keeps_bind keeps_getEncoding fun e => ?_
  dsimp only
  split
  · exact keeps_pure _
  · exact keeps_fail _

variable (hcall : ∀ c, Keeps R (call c))

include hcall

theorem keeps_addRange (h : Handle (Number α)) (lower upper : Number α) (name : String) :
    Keeps R (addRange h lower upper name) := by
  refine keeps_ite (hcall _) (keeps_when (hcall _) ?_)
  exact keeps_ite (hcall _) (keeps_pure _)

/-- A relation that holds across all calls into the solver is kept by what the solver offers. -/
theorem keep : (primitives : Primitives α (Solver α)).Keep R where
  newVariable _ _ _ _ := keeps_bind (hcall _) fun _ => keeps_leaf _ _
  addRange := keeps_addRange hcall
  absolute _ := keeps_node _ _
  power _ _ := keeps_node _ _
  gate := keeps_mul
  quotient _ _ := keeps_bind (keeps_node _ _) fun _ => keeps_mul _ _
  total hs := by
    cases hs with
    | nil => exact keeps_pure _
    | cons h hs => exact keeps_node _ _
  setObjective _ _ := hcall _

end

theorem contained : (primitives : Primitives α (Solver α)).Contained where
  keep hown := keep fun _ => hown _
  tolerance _ := keeps_tolerance

omit [Scalar α] in
theorem keeps_call (c : Call α) : Keeps Retains (call c) := keeps_modifyOwn _

theorem retain : (primitives : Primitives α (Solver α)).Retain where
  toKeep := contained.keep keeps_modifyOwn
  newVariable_fresh hr := by
    obtain ⟨_, s₁, hcall, hleaf⟩ := runs_bind.mp hr
    exact (fresh_leaf hleaf).of_le (Retains.next_le (related_of_runs (keeps_call _) hcall))
  gate_fresh := fresh_binary
  total_fresh {s s' hs k} hr := by
    cases hs with
    | nil =>
      obtain ⟨rfl, -⟩ := runs_pure.mp hr
      exact .inl (fresh_const _)
    | cons h hs => exact .inl (fresh_node hr)
  tolerance := keeps_tolerance

omit [Scalar α] in
theorem keeps_openModel {R : ScipState α → ScipState α → Prop} [Unaffected R]
    (hown : ∀ f, Keeps R (modifyOwn f : ScipM α Unit)) (c : Config α) : Keeps R (openModel c) := by
  refine keeps_bind (hown _) fun _ => keeps_when (hown _) ?_
  exact keeps_forM fun p _ => keeps_bind (hown _) fun _ => hown _

end DecisionModel.Scip

/-! ### Z3 -/

namespace DecisionModel.Z3

open LowerM Tolerant

variable {α : Type}

/-- The relation holds across all constraints that are collected. -/
structure RecordedConstraints (R : Z3State α → Z3State α → Prop) : Prop where
  require (c : Comparison) (x y : Handle (Number α)) : Keeps R (require c x y)

/-- The relation holds across all that is collected for the solver. -/
structure Recorded (R : Z3State α → Z3State α → Prop) : Prop extends RecordedConstraints R where
  call (c : Call α) : Keeps R (call c)
  setSense (sense : Sense) :
    Keeps R (modifyOwn fun s => { s with sense := some sense } : Z3M α Unit)

section

variable {R : Z3State α → Z3State α → Prop} [Unaffected R]

theorem keeps_realTerm (h : Handle (Number α)) : Keeps R (realTerm h) :=
  keeps_ite (keeps_node _ _) (keeps_pure _)

variable [Scalar α]

theorem keeps_exactTerm (x : Number α) : Keeps R (exactTerm x) :=
  keeps_bind (keeps_lift _) fun _ => keeps_ite (keeps_pure _) (keeps_node _ _)

theorem keeps_repeatedProduct (base : Handle (Number α)) (n : Nat) :
    Keeps R (repeatedProduct base n) := by
  induction n with
  | zero => exact keeps_pure _
  | succ n ih => exact keeps_bind ih fun _ => keeps_mul _ _

theorem keeps_power (base : Handle (Number α)) (exponent : α) : Keeps R (power base exponent) := by
  refine keeps_ite ?_ ?_
  · refine keeps_bind (keeps_lift _) fun _ => keeps_bind (keeps_repeatedProduct _ _) fun _ => ?_
    exact keeps_ite (keeps_bind (keeps_realTerm _) fun _ => keeps_node _ _) (keeps_pure _)
  · refine keeps_bind (keeps_realTerm _) fun _ => keeps_bind (keeps_lift _) fun _ => ?_
    exact keeps_bind (keeps_node _ _) fun _ => keeps_node _ _

theorem RecordedConstraints.requireBounds (hR : RecordedConstraints R) (h : Handle (Number α))
    (lower upper : Number α) : Keeps R (requireBounds h lower upper) := by
  refine keeps_whenAfter (keeps_exactTerm _) (fun _ => hR.require _ _ _) ?_
  exact keeps_ite (keeps_bind (keeps_exactTerm _) fun _ => hR.require _ _ _) (keeps_pure _)

theorem RecordedConstraints.keepTerms (hR : RecordedConstraints R) :
    (primitives : Primitives α (Solver α)).KeepTerms R where
  addRange _ _ _ _ :=
    keeps_ite (keeps_bind (keeps_exactTerm _) fun _ => hR.require _ _ _) (hR.requireBounds _ _ _)
  absolute _ := keeps_bind (keeps_neg _) fun _ => keeps_node _ _
  power := keeps_power
  gate _ _ := keeps_node _ _
  quotient _ _ := keeps_bind (keeps_realTerm _) fun _ => keeps_node _ _
  total := keeps_chainedSum

/-- What follows the call that makes a constant. -/
theorem RecordedConstraints.newVariable (hR : RecordedConstraints R) {call : Z3M α Unit}
    (hcall : Keeps R call) (kind : Kind) (lower upper : α) (name : String) : Keeps R (do
      call
      let h ← LowerM.leaf name (kind != .continuous)
      Z3.requireBounds h (.real lower) (.real upper)
      return h : Z3M α (Handle (Number α))) := by
  refine keeps_bind hcall fun _ => keeps_bind (keeps_leaf _ _) fun _ => ?_
  exact keeps_bind (hR.requireBounds _ _ _) fun _ => keeps_pure _

theorem Recorded.keep (hR : Recorded R) : (primitives : Primitives α (Solver α)).Keep R where
  toKeepTerms := hR.keepTerms
  newVariable _ _ _ _ := hR.newVariable (hR.call _) _ _ _ _
  setObjective _ sense := hR.setSense sense

end

variable [Scalar α]

theorem contained : (primitives : Primitives α (Solver α)).Contained where
  keep hown := Recorded.keep ⟨⟨fun _ _ _ => hown _⟩, fun _ => hown _, fun _ => hown _⟩
  tolerance _ := keeps_pure _

theorem retain : (primitives : Primitives α (Solver α)).Retain where
  toKeep := contained.keep keeps_modifyOwn
  newVariable_fresh hr := by
    obtain ⟨_, s₁, hcall, hr⟩ := runs_bind.mp hr
    obtain ⟨h, s₂, hleaf, hr⟩ := runs_bind.mp hr
    obtain ⟨_, s₃, -, hr⟩ := runs_bind.mp hr
    obtain ⟨rfl, -⟩ := runs_pure.mp hr
    exact (fresh_leaf hleaf).of_le (Retains.next_le (related_of_runs (keeps_modifyOwn _) hcall))
  gate_fresh := fresh_node
  total_fresh := fresh_chainedSum
  tolerance := keeps_pure _

end DecisionModel.Z3

/-! ### All solvers -/

namespace DecisionModel

open LowerM Tolerant

/-- For SCIP, Z3 and CP-SAT, a node that was lowered keeps its handle; for SCIP and Z3, a handle keeps
its truth value. Whatever is requested in between, and whether that fails or not, asking a second time
changes nothing. -/
theorem lowers_once {α : Type} [Scalar α] (config : Config α) :
    ((backend Scip.primitives).LowersOnce (α := α) Scip.lowerModel ∧
      DecidesOnce Scip.primitives Scip.lowerModel ((Scip.openModel config).run.run Scip.initial).2) ∧
    ((backend Z3.primitives).LowersOnce (α := α) Z3.lowerModel ∧
      DecidesOnce (α := α) Z3.primitives Z3.lowerModel Z3.initial) ∧
    (CpSat.backend : Backend α _ _).LowersOnce CpSat.lowerModel := by
  have hremembers {σ : Type} (s s' : LoweringState (Number α) (Encoding α σ)) (h : Retains s s') :=
    h.remembers
  have hscip := (Scip.retain (α := α)).lowerModel
  have hz3 := (Z3.retain (α := α)).lowerModel
  refine ⟨⟨Backend.lowersOnce (preserves Scip.retain) hscip hremembers, ?_⟩,
    ⟨Backend.lowersOnce (preserves Z3.retain) hz3 hremembers, decidesOnce Z3.retain hz3 ?_⟩, ?_⟩
  · refine decidesOnce Scip.retain hscip ((Scip.keeps_openModel keeps_modifyOwn config _).truths ?_).1
    intro id b hb
    cases hb
  · intro id b hb
    cases hb
  · refine Backend.lowersOnce CpSat.preserves (fun c => ?_) fun _ _ h => h
    exact Backend.keeps_lowerModel CpSat.creates .of_entered fun t _ =>
      Backend.keepsWithin CpSat.preserves t

/-- SCIP with the small model lowered into it. -/
def smallScip : Scip.ScipState Exact :=
  after (Step.run Scip.primitives Scip.lowerModel) [.request Small.context .model]
    ((Scip.openModel {}).run.run Scip.initial).2

/-- A request that fails, and one that is answered. -/
def smallRequests : List (Context Exact × Request Exact) :=
  [(Small.context, .constraint (.literal .absent)), (Small.context, .term (.term Small.successor))]

/-- The constraint of the small model, lowered as a term, and the truth of a term that is not binary. -/
theorem small_lowers_once :
    (∃ h s, (Backend.translate (backend Scip.primitives) Small.context Small.constraint).Runs
        smallScip h s ∧
      (Backend.translate (backend Scip.primitives) Small.context Small.constraint).Runs
        (after ((backend Scip.primitives).answer Scip.lowerModel) smallRequests s) h
        (after ((backend Scip.primitives).answer Scip.lowerModel) smallRequests s)) ∧
    ∃ b s, (truth Scip.primitives (.leaf ⟨0⟩ "x" true)).Runs smallScip b s ∧ b.id? ≠ some ⟨0⟩ ∧
      (truth Scip.primitives (.leaf ⟨0⟩ "x" true)).Runs
        (after (Step.run Scip.primitives Scip.lowerModel) [.request Small.context .model] s) b
        (after (Step.run Scip.primitives Scip.lowerModel) [.request Small.context .model] s) := by
  obtain ⟨⟨honce, hdecides⟩, -⟩ := lowers_once (α := Exact) {}
  refine ⟨?_, ?_⟩
  · obtain ⟨h, hh⟩ := Option.isSome_iff_exists.mp (show (((Backend.translate (backend Scip.primitives)
      Small.context Small.constraint).run.run smallScip).1.toOption).isSome by decide +kernel)
    have hr := runs_of_toOption hh
    exact ⟨h, _, hr, honce.again _ _ smallRequests rfl hr⟩
  · obtain ⟨b, hb, hid⟩ := Option.map_eq_some_iff.mp (show ((truth Scip.primitives
      (.leaf ⟨0⟩ "x" true)).run.run smallScip).1.toOption.map Handle.id? = some (some ⟨5⟩) by
        decide +kernel)
    have hr := runs_of_toOption hb
    refine ⟨b, _, hr, by simp [hid], hdecides [.request Small.context .model] _ _ b _ _ _ rfl ?_ hr rfl⟩
    rintro id ⟨⟩
    decide +kernel

end DecisionModel
