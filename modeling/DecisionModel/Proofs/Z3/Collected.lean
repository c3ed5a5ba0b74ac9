import Mathlib.Algebra.Order.Group.Abs
import DecisionModel.Proofs.Lowering.Constraint
import DecisionModel.Proofs.Solver.Idempotent
import DecisionModel.Proofs.Tolerant.Values
import DecisionModel.Proofs.Z3.Interpretation

/-!
# What is collected for Z3 stays

While a model is lowered for Z3, constraints are added only, and terms keep their handles (`Settles`). So what
was collected on the way holds in every solution: the comparisons that are conjuncts of a constraint, up to
the tolerance (`tolerates_of_conjunct`), and the bounds of the variables (`within_of_lowered`).
-/

namespace DecisionModel

open LowerM

/-! ### Conjuncts are posted -/

namespace Backend

variable {α ν σ : Type} [Scalar α] [Numeral ν] {B : Backend α ν σ} {c : Context α}
  {R : LoweringState ν σ → LoweringState ν σ → Prop} {s s' : LoweringState ν σ}

/-- Where a constraint is posted, each of its conjuncts is. -/
theorem exists_post_of_conjunct [Visited R] (hB : B.Preserves R) {u t : Term α} (hu : u.Conjunct t)
    (hr : (post B c t).Runs s () s') : ∃ s₁ s₂, R s s₁ ∧ (post B c u).Runs s₁ () s₂ ∧ R s₂ s' := by
  induction hu generalizing s s' with
  | self => exact ⟨s, s', keeps_refl s, hr, keeps_refl s'⟩
  | wrapped hnode _ ih =>
    rw [post] at hr
    exact ih (by simpa [hnode] using hr)
  | conjunct hm _ ih =>
    rw [post, postAll_eq_forM] at hr
    obtain ⟨t₁, t₂, hbefore, hrun, hafter⟩ :=
      exists_run_of_mem_forM (fun t _ => keeps_post hB (keepsWithin hB t)) hr hm
    obtain ⟨s₁, s₂, hearlier, hpost, hlater⟩ := ih hrun
    exact ⟨s₁, s₂, keeps_trans hbefore hearlier, hpost, keeps_trans hlater hafter⟩

end Backend

namespace Z3

open Tolerant

variable {α : Type}

/-! ### What stays -/

/-- Constraints are added only; the handles of nodes and the tolerance stay. -/
structure Gathers (s s' : Z3State α) : Prop where
  remembers : Remembers s s'
  epsilon_eq : s'.solver.epsilon = s.solver.epsilon
  constraints : s.solver.solver.constraints.toList <+: s'.solver.solver.constraints.toList

/-- The handles of variables stay as well. -/
structure Settles (s s' : Z3State α) : Prop extends Gathers s s' where
  handles_eq : s'.handles = s.handles

theorem Gathers.of_same {s s' : Z3State α} (hmemo : s'.memo = s.memo)
    (hepsilon : s'.solver.epsilon = s.solver.epsilon)
    (hconstraints : s.solver.solver.constraints.toList <+: s'.solver.solver.constraints.toList) :
    Gathers s s' where
  remembers id h hm := by rwa [LoweringState.memo?, hmemo]
  epsilon_eq := hepsilon
  constraints := hconstraints

instance : Traversed (Gathers (α := α)) where
  refl _ := .of_same rfl rfl (List.prefix_refl _)
  trans _ _ _ h h' := ⟨fun id k hk => h'.remembers id k (h.remembers id k hk),
    h'.epsilon_eq.trans h.epsilon_eq, h.constraints.trans h'.constraints⟩
  next _ := .of_same rfl rfl (List.prefix_refl _)
  auxiliaries _ := .of_same rfl rfl (List.prefix_refl _)
  violated _ _ := .of_same rfl rfl (List.prefix_refl _)
  log _ _ := .of_same rfl rfl (List.prefix_refl _)
  handles _ _ := .of_same rfl rfl (List.prefix_refl _)
  lowered _ := .of_same rfl rfl (List.prefix_refl _)
  memo h hnone hs := ⟨Visited.memo h hnone hs.remembers, hs.epsilon_eq, hs.constraints⟩

instance : Visited (Settles (α := α)) where
  refl s := ⟨keeps_refl s, rfl⟩
  trans _ _ _ h h' := ⟨keeps_trans h.toGathers h'.toGathers, h'.handles_eq.trans h.handles_eq⟩
  next s := ⟨Unaffected.next s, rfl⟩
  auxiliaries s := ⟨Unaffected.auxiliaries s, rfl⟩
  violated s texts := ⟨Unaffected.violated s texts, rfl⟩
  log s lines := ⟨Unaffected.log s lines, rfl⟩
  memo h hnone hs := ⟨Visited.memo h hnone hs.toGathers, hs.handles_eq⟩

theorem Gathers.note {s : Z3State α} {e : Encoding α (Solver α)}
    (hepsilon : e.epsilon = s.solver.epsilon)
    (hconstraints : s.solver.solver.constraints.toList <+: e.solver.constraints.toList) :
    Gathers s { s with solver := e } := .of_same rfl hepsilon hconstraints

instance : Noted (Gathers (α := α)) where
  note hnotes := .note hnotes.epsilon_eq (by rw [hnotes.solver_eq])

instance : Noted (Settles (α := α)) where
  note hnotes := ⟨Noted.note hnotes, rfl⟩

theorem recorded_settles : Recorded (Settles (α := α)) where
  call _ := keeps_modifySolver fun _ => ⟨.note rfl (List.prefix_refl _), rfl⟩
  require _ _ _ := keeps_modifySolver fun _ =>
    ⟨.note rfl (by rw [Array.toList_push]; exact List.prefix_append _ _), rfl⟩
  setSense _ := keeps_modifySolver fun _ => ⟨.note rfl (List.prefix_refl _), rfl⟩

theorem recorded_gathers : Recorded (Gathers (α := α)) where
  call c := (recorded_settles.call c).mono fun _ _ h => h.toGathers
  require c x y := (recorded_settles.require c x y).mono fun _ _ h => h.toGathers
  setSense sense := (recorded_settles.setSense sense).mono fun _ _ h => h.toGathers

variable [Scalar α] {c : Context α} {t : Term α} {h : Handle (Number α)} {s s₀ s₁ s' : Z3State α}

theorem creates_gathers : (backend (primitives : Primitives α (Solver α))).Creates Gathers :=
  recorded_gathers.keep.creates.creates

theorem creates_settles : (backend (primitives : Primitives α (Solver α))).Creates Settles :=
  recorded_settles.keep.creates.creates

theorem preserves_settles : (backend (primitives : Primitives α (Solver α))).Preserves Settles :=
  creates_settles.toPreserves

omit [Scalar α] in
/-- An operation on a term is not folded. -/
theorem binary_of_term (f : Number α → Number α → Number α) (symbol : SolverFunction)
    {x : Handle (Number α)} (hterm : x.number? = none) (y : Handle (Number α)) :
    (binary f symbol x y : Z3M α _) = node symbol [x, y] := by
  cases x with
  | const x => cases hterm
  | _ => rfl

variable {K : Type} [Field K] [LinearOrder K] {I : Interpretation α K} {ρ : HandleId → K}

omit [Scalar α] in
theorem Gathers.admits (hs : Gathers s s') (hρ : I.Admits ρ s') : I.Admits ρ s :=
  fun r hr => hρ r (hs.constraints.subset hr)

/-! ### Comparisons that are posted -/

/-- The range for the difference of the two sides of a comparison, or for the absolute value of it. -/
def postedRange (e : Number α) : Comparison → Number α × Number α
  | .le => (noLower, e)
  | .lt => (noLower, .real (Scalar.mul (Scalar.nearest (-11 / 10)) e.toScalar))
  | .ge => (e.neg, noUpper)
  | .gt | .ne => (.real (Scalar.mul (Scalar.nearest (11 / 10)) e.toScalar), noUpper)
  | .eq => (e.neg, e)

/-- With the tolerance `e`, the comparison is taken to hold for sides that differ by `x`. -/
def Tolerates (e : Number α) (k : Comparison) (x : K) : Prop :=
  Within (postedRange e k).1.exact (postedRange e k).2.exact (if k = .ne then |x| else x)

section

variable [IsStrictOrderedRing K]

omit [Scalar α] in
theorem apply_choose_negative (x : K) : I.apply (.choose .ge) [x, 0, x, -x] = |x| := by
  by_cases hx : 0 ≤ x
  · exact (if_pos hx).trans (abs_of_nonneg hx).symm
  · exact (if_neg hx).trans (abs_of_neg (not_le.mp hx)).symm

/-- The absolute value of a term is a choice between it and its negative. -/
theorem value_of_absolute (hterm : h.number? = none) {k : Handle (Number α)}
    (hr : (Z3.absolute h).Runs s k s') :
    k.number? = none ∧ s'.solver = s.solver ∧ I.value ρ k = |I.value ρ h| := by
  have hneg : (LowerM.neg h : Z3M α _) = node .neg [h] := by
    cases h with
    | const x => cases hterm
    | _ => rfl
  rw [Z3.absolute, hneg] at hr
  obtain ⟨negative, s₁, hnegative, hchoice⟩ := runs_bind.mp hr
  obtain ⟨rfl, rfl⟩ := runs_node.mp hnegative
  obtain ⟨rfl, rfl⟩ := runs_node.mp hchoice
  refine ⟨rfl, rfl, ?_⟩
  have hzero : I.value ρ (integer 0) = 0 := by simp [integer, Interpretation.number]
  rw [Interpretation.value_node]
  simp only [List.map_cons, List.map_nil, hzero, Interpretation.value_node]
  exact apply_choose_negative _

/-- Posting a comparison of a term collects that the difference is within its range. -/
theorem admits_postComparison {x y : Handle (Number α)} {k : Comparison} (hterm : x.number? = none)
    (hr : (postComparison primitives k x y).Runs s () s') :
    I.Admits ρ s' ↔
      I.Admits ρ s ∧ Tolerates s.solver.epsilon k (I.value ρ x - I.value ρ y) := by
  let δ : Handle (Number α) := .node ⟨s.nextHandle⟩ .sub [x, y]
  let s₁ : Z3State α := { s with nextHandle := s.nextHandle + 1 }
  have hδ : I.value ρ δ = I.value ρ x - I.value ρ y := Interpretation.value_node _ _
  have hconstrain (hk : k ≠ .ne) (hr : (constrain primitives δ (postedRange s.solver.epsilon k).1
      (postedRange s.solver.epsilon k).2).Runs s₁ () s') : I.Admits ρ s' ↔
        I.Admits ρ s ∧ Tolerates s.solver.epsilon k (I.value ρ x - I.value ρ y) := by
    rw [Tolerates, if_neg hk, ← hδ]
    exact (admits_constrain I ρ rfl hr).trans Iff.rfl
  simp only [postComparison, LowerM.sub, binary_of_term _ _ hterm] at hr
  cases k with
  | ne =>
    have hr : (do constrain primitives (← Z3.absolute δ) (← threshold) noUpper).Runs s₁ () s' := hr
    obtain ⟨m, s₂, habsolute, hr⟩ := runs_bind.mp hr
    obtain ⟨hm, hsolver, hvalue⟩ := value_of_absolute (I := I) (ρ := ρ) rfl habsolute
    have hrange : (constrain primitives m (postedRange s₂.solver.epsilon .ne).1
      (postedRange s₂.solver.epsilon .ne).2).Runs s₂ () s' := hr
    rw [hsolver] at hrange
    rw [Tolerates, if_pos rfl, ← hδ, ← hvalue, admits_constrain I ρ hm hrange, Interpretation.Admits, hsolver]
    exact Iff.rfl
  | _ => exact hconstrain (by decide) hr

/-- A comparison of a term with a constant that is posted holds of the handle of the term. -/
theorem tolerates_of_post {d : Term α} {id : NodeId} {k : Comparison} {x : α} {rest : List (Term α)}
    (hr : (Backend.post (backend primitives) c
      (.node id (.comparison k) (d :: .const x :: rest))).Runs s₀ () s₁) (hs : Settles s₁ s)
    (hh : (Backend.translate (backend primitives) c d).Runs s h s) (hterm : h.number? = none)
    (hρ : I.Admits ρ s) : Tolerates s₀.solver.epsilon k (I.value ρ h - I.literal x) := by
  rw [Backend.post] at hr
  obtain ⟨y, t₁, hfirst, hr⟩ := runs_bind.mp hr
  obtain ⟨z, t₂, hsecond, hpost⟩ := runs_bind.mp hr
  have hy : (Backend.translate (backend primitives) c d).Runs s₀ y t₁ := hfirst
  have hz : (pure (scalar x) : Z3M α _).Runs t₁ z t₂ := hsecond
  obtain ⟨rfl, rfl⟩ := runs_pure.mp hz
  have hstep : Settles t₁ s₁ := by
    refine related_of_runs ?_ hpost
    split
    · exact Backend.keeps_postFolded _ _
    · exact preserves_settles.postComparison _ _ _
  have hlater := keeps_trans hstep hs
  obtain ⟨rfl, -⟩ := runs_unique hh (runs_translate_again hy hlater.remembers (by rw [hlater.handles_eq]))
  simp only [hterm] at hpost
  have hrange := (admits_postComparison (I := I) (ρ := ρ) hterm hpost).mp (hs.admits hρ)
  have hepsilon := (related_of_runs (Backend.keeps_translate preserves_settles d) hy).epsilon_eq
  rw [hepsilon] at hrange
  exact hrange.2

end

/-! ### Bounds of variables -/

/-- The variable may be created with these bounds: with its own, or as a member of a sequence. -/
inductive CreatedWithin (c : Context α) (model : Model α) (v : VarId) : α → α → Prop
  | variable {d : Variable α} : c.workspace.findVariable v = some d →
    CreatedWithin c model v d.lower d.upper
  | member {q : SequenceId} : q ∈ model.sequences → v ∈ c.workspace.sequenceMembers q →
    CreatedWithin c model v Scalar.one (Scalar.ofInt (c.workspace.sequenceMembers q).length)

/-- The handles of variables are within bounds with which their variables may be created. -/
def Confined (I : Interpretation α K) (c : Context α) (model : Model α) (s : Z3State α) : Prop :=
  ∀ v h, (v, h) ∈ s.handles → ∃ lower upper, CreatedWithin c model v lower upper ∧
    ∀ ρ, I.Admits ρ s → Within (Scalar.exact lower) (Scalar.exact upper) (I.value ρ h)

variable {model : Model α}

/-- A variable is collected with its bounds. -/
theorem within_of_createVariable {kind : Kind} {lower upper : α} {name : String}
    (hr : (createVariable primitives kind lower upper name).Runs s h s') (hρ : I.Admits ρ s') :
    Within (Scalar.exact lower) (Scalar.exact upper) (I.value ρ h) := by
  obtain ⟨k, s₁, hnew, hr⟩ := runs_bind.mp hr
  obtain ⟨_, s₂, hnoted, hr⟩ := runs_bind.mp hr
  obtain ⟨rfl, rfl⟩ := runs_pure.mp hr
  obtain rfl := runs_modifySolver.mp hnoted
  obtain ⟨_, s₂, -, hnew⟩ := runs_bind.mp hnew
  obtain ⟨k, s₃, -, hnew⟩ := runs_bind.mp hnew
  obtain ⟨_, s₄, hbounds, hnew⟩ := runs_bind.mp hnew
  obtain ⟨rfl, rfl⟩ := runs_pure.mp hnew
  exact ((admits_requireBounds I ρ hbounds).mp hρ).2

/-- The members of a sequence of length `n` are between one and `n`. -/
theorem within_of_createSequence {name : String} {members : List String}
    {hs : List (Handle (Number α))} (hr : (createSequence primitives name members).Runs s hs s')
    (hρ : I.Admits ρ s') (hh : h ∈ hs) :
    Within (Scalar.exact (Scalar.one : α)) (Scalar.exact (Scalar.ofInt members.length : α))
      (I.value ρ h) := by
  obtain ⟨_, _, _, hcreate, hlater⟩ := exists_run_of_createSequence recorded_settles.keep.creates hr hh
  exact within_of_createVariable hcreate (hlater.admits hρ)

theorem Confined.step (hs : Confined I c model s) (hstep : Settles s s') : Confined I c model s' := by
  intro v h hvh
  obtain ⟨lower, upper, hcreated, hwithin⟩ := hs v h (hstep.handles_eq ▸ hvh)
  exact ⟨lower, upper, hcreated, fun ρ hρ => hwithin ρ (hstep.admits hρ)⟩

theorem Confined.enter (hs : Confined I c model s) {entries : List (VarId × Handle (Number α))}
    (hentries : ∀ v h, (v, h) ∈ entries → ∃ lower upper, CreatedWithin c model v lower upper ∧
      ∀ ρ, I.Admits ρ s → Within (Scalar.exact lower) (Scalar.exact upper) (I.value ρ h)) :
    Confined I c model (s.enter entries) := fun v h hvh =>
  (List.mem_append.mp hvh).elim (hs v h) (hentries v h)

/-- Handles that are confined stay so. -/
def StaysConfined (I : Interpretation α K) (c : Context α) (model : Model α) (s s' : Z3State α) : Prop :=
  Confined I c model s → Confined I c model s'

instance : Unaffected (StaysConfined I c model) where
  refl _ h := h
  trans _ _ _ h h' hs := h' (h hs)
  next s h := h.step (Unaffected.next s)
  auxiliaries s h := h.step (Unaffected.auxiliaries s)
  violated s texts h := h.step (Unaffected.violated s texts)
  log s lines h := h.step (Unaffected.log s lines)

theorem entersVariables_confined (hmodel : c.workspace.findModel c.model = some model) :
    Backend.EntersVariables (StaysConfined I c model) (backend primitives) c where
  lowered _ h := h
  single {v d h s s₁} hd hr hs := hs.enter fun v' h' hvh => by
    obtain ⟨rfl, rfl⟩ := Prod.mk.inj (List.mem_singleton.mp hvh)
    exact ⟨_, _, .variable hd, fun _ hρ => within_of_createVariable hr hρ⟩
  members {model' q hs s s₁} hmodel' hq hr hconfined := hconfined.enter fun v h hvh => by
    obtain rfl : model = model' := Option.some.inj (hmodel.symm.trans hmodel')
    obtain ⟨hv, hh⟩ := List.of_mem_zip hvh
    refine ⟨_, _, .member hq hv, fun ρ hρ => ?_⟩
    rw [← List.length_map (f := c.workspace.variableName)]
    exact within_of_createSequence hr hρ hh

/-- When all variables of the model are created, their handles are within their bounds. -/
theorem confined_created (hmodel : c.workspace.findModel c.model = some model) (hs : s.handles = [])
    (hr : (do
      model.sequences.forM (Backend.createSequenceOf (backend primitives) c)
      model.vars.forM (Backend.createVariableOf (backend primitives) c)
      (model.families.flatMap c.workspace.members).forM
        (Backend.createVariableOf (backend primitives) c) : Z3M α Unit).Runs s () s') :
    Confined I c model s' := by
  have henters := entersVariables_confined (I := I) hmodel
  have hkeeps {β : Type} {m : Z3M α β} (hm : Keeps Settles m) : Keeps (StaysConfined I c model) m :=
    hm.mono fun _ _ h hs => hs.step h
  have hsingle (vs : List VarId) : Keeps (StaysConfined I c model)
      (vs.forM (Backend.createVariableOf (backend primitives) c)) :=
    keeps_forM fun v _ => Backend.keeps_createVariableOf
      (fun d => hkeeps (creates_settles.createVariable d)) henters v
  refine related_of_runs (R := StaysConfined I c model) ?_ hr fun v h hvh => by simp [hs] at hvh
  refine keeps_bind (keeps_forM fun q hq => ?_) fun _ => keeps_bind (hsingle _) fun _ => hsingle _
  exact Backend.keeps_createSequenceOf
    (fun name members => hkeeps (creates_settles.createSequence name members)) henters hmodel hq

/-! ### Lowered models -/

/-- The tolerance with which a model is lowered. -/
def toleranceOf (c : Context α) : Number α := c.config.epsilon.getD defaultTolerance

/-- The model is lowered with the tolerance, from a state without handles, and only a note follows. -/
theorem exists_run_lowerModel (hr : (Z3.lowerModel c).Runs initial () s) :
    ∃ s₀ s₁, s₀.handles = [] ∧ s₀.solver.epsilon = toleranceOf c ∧
      (Backend.lowerModel (backend primitives) c).Runs s₀ () s₁ ∧ Settles s₁ s := by
  have hr : (do
      modifyEncoding fun e => { e with epsilon := toleranceOf c }
      LowerM.log c.config 2 (("Using epsilon = " ++ Scalar.briefText ·) <$> (toleranceOf c).toScalar?)
      Backend.lowerModel (backend primitives) c
      let e ← getEncoding
      LowerM.log c.config 1 (.ok ("z3" ++ ": " ++ toString e.created.size ++ " variables, " ++
        toString e.posted.size ++ " constraints")) : Z3M α Unit).Runs initial () s := by
    unfold Z3.lowerModel Tolerant.lowerModel at hr
    unfold toleranceOf
    cases he : c.config.epsilon with
    | none =>
      rw [he] at hr
      exact hr
    | some e =>
      rw [he] at hr
      exact hr
  obtain ⟨_, t₁, hset, hr⟩ := runs_bind.mp hr
  obtain rfl := runs_modifySolver.mp hset
  obtain ⟨_, t₂, hlog, hr⟩ := runs_bind.mp hr
  obtain ⟨_, t₃, hlower, hr⟩ := runs_bind.mp hr
  have hnoted : Settles _ t₂ := related_of_runs (keeps_log _ _ _) hlog
  refine ⟨t₂, t₃, hnoted.handles_eq, hnoted.epsilon_eq, hlower, ?_⟩
  exact related_of_runs (keeps_bind keeps_getEncoding fun _ => keeps_log _ _ _) hr

/-- In a solution, a conjunct that compares a term with a constant is tolerated. -/
theorem tolerates_of_conjunct [IsStrictOrderedRing K] (hmodel : c.workspace.findModel c.model = some model)
    (hlowered : (Z3.lowerModel c).Runs initial () s) (hρ : I.Admits ρ s) {t d : Term α} {id : NodeId}
    {k : Comparison} {x : α} {rest : List (Term α)} (ht : t ∈ model.constraints)
    (hconjunct : (Term.node id (.comparison k) (d :: .const x :: rest)).Conjunct t)
    (hh : (Backend.translate (backend primitives) c d).Runs s h s) (hterm : h.number? = none) :
    Tolerates (toleranceOf c) k (I.value ρ h - I.literal x) := by
  obtain ⟨s₀, s₁, -, hepsilon, hrun, hlast⟩ := exists_run_lowerModel hlowered
  obtain ⟨t₁, hcreate, -, hposted⟩ := Backend.stages_of_runs_lowerModel creates_settles
    (fun t _ => Backend.keepsWithin preserves_settles t) hmodel hrun
  obtain ⟨s₂, s₃, hbefore, hpost, hafter⟩ := hposted t ht
  obtain ⟨t₂, t₃, hearlier, hpost, hlater⟩ :=
    Backend.exists_post_of_conjunct preserves_settles hconjunct hpost
  have hvariables (vs : List VarId) : Keeps Gathers
      (vs.forM (Backend.createVariableOf (backend (primitives : Primitives α (Solver α))) c)) :=
    keeps_forM fun v _ => Backend.keeps_createVariableOf creates_gathers.createVariable .of_entered v
  have hcreated : Gathers { s₀ with lowered := true } t₁ := related_of_runs
    (keeps_bind (keeps_forM fun q hq => Backend.keeps_createSequenceOf creates_gathers.createSequence
      .of_entered hmodel hq) fun _ => keeps_bind (hvariables _) fun _ => hvariables _) hcreate
  have htolerance : t₂.solver.epsilon = toleranceOf c := by
    rw [(keeps_trans hbefore hearlier).epsilon_eq, hcreated.epsilon_eq, ← hepsilon]
  rw [← htolerance]
  exact tolerates_of_post hpost (keeps_trans hlater (keeps_trans hafter hlast)) hh hterm hρ

/-- In a solution, a variable is within bounds with which it may be created. -/
theorem within_of_lowered (hmodel : c.workspace.findModel c.model = some model)
    (hlowered : (Z3.lowerModel c).Runs initial () s) (hρ : I.Admits ρ s) {v : VarId}
    (hh : (Backend.translate (backend primitives) c (.var v)).Runs s h s) :
    ∃ lower upper, CreatedWithin c model v lower upper ∧
      Within (Scalar.exact lower) (Scalar.exact upper) (I.value ρ h) := by
  obtain ⟨s₀, s₁, hhandles, -, hrun, hlast⟩ := exists_run_lowerModel hlowered
  obtain ⟨t₁, hcreate, hafter, -⟩ := Backend.stages_of_runs_lowerModel creates_settles
    (fun t _ => Backend.keepsWithin preserves_settles t) hmodel hrun
  have hcreated := confined_created (I := I) (s := { s₀ with lowered := true }) hmodel hhandles hcreate
  obtain ⟨hh, -⟩ := runs_variableHandle.mp hh
  obtain ⟨lower, upper, hwithin⟩ := ((hcreated.step hafter).step hlast) v h (Table.mem_of_get? hh)
  exact ⟨lower, upper, hwithin.1, hwithin.2 ρ hρ⟩

end Z3

end DecisionModel
