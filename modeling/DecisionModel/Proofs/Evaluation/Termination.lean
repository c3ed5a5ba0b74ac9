import DecisionModel.Proofs.Builder.Assembly
import DecisionModel.Proofs.Evaluation.Reading
import DecisionModel.Proofs.Workspace.Circular
import DecisionModel.Solution.Basic

/-!
# Evaluation terminates

In a workspace that builders lead to, evaluation follows definitions without ever meeting the bound on
their number, and a greater bound changes nothing: the evaluation is that of the recursion without a
bound. `Assembled.cycle_free` says so together with its reason, that no order of calls makes a definition
depend on itself: a new variable is accepted exactly if it closes no cycle.
-/

namespace DecisionModel

open Outcome Workspace Build

variable {α : Type} [Scalar α] {w w₁ : Workspace α}

namespace Assignment

variable {a : Assignment α} {t : Term α} {read read' : VarId → Partially α (Reading α)}

/-- All errors but the fault of a circular definition, and missing values if they may occur. -/
def Uncircled (α : Type) (missing : Prop) : Allowed α :=
  ⟨missing, fun e => e ≠ .fault .circularDefinition⟩

variable {missing : Prop}

omit [Scalar α] in
theorem regular_uncircled : (Uncircled α missing).Regular where
  undefined h he := by
    subst he
    cases h
  rounding h he := by
    cases he
    cases h

theorem comparable_uncircled : Comparable (Uncircled α missing) w a a where
  regular := regular_uncircled
  model := rfl
  lookup {n f} h he := by
    cases he
    unfold Workspace.collection collectionAt at h
    rcases hxs : w.literalsAt a.model (.int n) with e | xs
    · rw [hxs] at h
      cases h
    · rw [hxs] at h
      have hscalar : ∀ l ∈ xs, Uncircular l.toScalar := fun l _ =>
        faultsIn_toScalar l (by decide) fun _ => by decide
      exact faultsIn_mapM hscalar _ (Except.ok.inj h) rfl

theorem termAllowed_uncircled (hw : w.Stratified) {r : Term α} (hb : a.UsesBuiltin w t)
    (hr : w.Involves t r) : TermAllowed (Uncircled α missing) w a a r := by
  intro id op ts hwithin
  refine ⟨.inr ⟨by simp [Uncircled], by simp [Uncircled]⟩, fun hop => ?_, fun hf he => ?_,
    fun _ => .inl rfl⟩
  · subst hop
    exact ⟨hb r hr _ _ _ hwithin, hb r hr _ _ _ hwithin⟩
  · cases he
    exact uncircular_nodeText hw op ts _ hf rfl

/-- Definitions are followed to their ends, and the term has a value or an error unless the value of a
variable that it reaches may be missing: one that is not stored, and either unknown or neither defined
nor fixed. -/
theorem evaluate_followed (hw : w.Stratified) (hb : a.UsesBuiltin w t)
    (hv : ∀ v, w.Reaches t v → a.stored v = none →
      (∃ d, w.findVariable v = some d ∧ (d.isDefined ∨ d.isFixed)) ∨ missing) :
    Extends (Uncircled α missing) (a.evaluate w t) (a.evaluate w t) :=
  evaluate_allowed comparable_uncircled (fun _ => termAllowed_uncircled hw hb) hv
    (.inr ⟨hw.closed, hw.acyclic⟩)

/-- The bound on definitions is not met. -/
theorem evaluate_uncircular (hw : w.Stratified) (hb : a.UsesBuiltin w t) :
    a.evaluate w t ≠ .error (.fault .circularDefinition) := fun he => by
  have hfollowed : Extends (Uncircled α True) (a.evaluate w t) (a.evaluate w t) :=
    evaluate_followed hw hb fun _ _ _ => .inr trivial
  exact (extends_self_iff.mp hfollowed).2 _ he rfl

/-! ### The bound on definitions -/

theorem readMember_congr {f : FamilyId} (h : ∀ v ∈ w.members f, read v = read' v)
    (index : Partially α (Reading α)) : readMember w read f index = readMember w read' f index := by
  obtain e | _ | x := index
  · rfl
  · rfl
  · simp only [readMember, andThen]
    rcases (Scalar.exact x.value).round with e | n
    · rfl
    · dsimp only
      split
      · rw [List.getElem?_eq_getElem (by omega)]
        exact h _ (List.getElem_mem _)
      · rfl

/-- A term is the same operand under two readings of variables that agree on those it reads. -/
theorem argument_congr (h : ∀ v ∈ w.reads t, read v = read' v) (p : Option Place) :
    a.argument w read p t = a.argument w read' p t := by
  induction t using Term.induction generalizing p with
  | const x => rfl
  | var v => simp only [argument, h v (mem_reads.mpr (.inl (by simp [Term.mentions])))]
  | selected id f i =>
    have hi := h i (mem_reads.mpr (.inl (by simp [Term.mentions])))
    have hm : ∀ v ∈ w.members f, read v = read' v := fun v hv =>
      h v (mem_reads.mpr (.inr ⟨f, by simp [Term.mentions], hv⟩))
    simp only [argument, hi, readMember_congr hm]
  | node id op ts ih =>
    have hargs : ∀ k (us : List (Term α)), (∀ u ∈ us, u ∈ ts) →
        a.arguments w read id k us = a.arguments w read' id k us := by
      intro k us hus
      induction us generalizing k with
      | nil => rfl
      | cons u us ihs =>
        have hu : Term.Within u (.node id op ts) := .of_mem (hus u List.mem_cons_self)
        rw [arguments, arguments, ihs (k + 1) fun x hx => hus x (List.mem_cons_of_mem u hx),
          ih u (hus u List.mem_cons_self) fun v hv => h v (reads_of_within hu hv)]
    simp only [argument, hargs 0 ts fun _ h => h]

/-- Two bounds that exceed the rank of a variable give the same reading. -/
theorem readVariable_congr (hw : w.Stratified) {v : VarId} {depth depth' : Nat}
    (hd : w.rank v < depth) (hd' : w.rank v < depth') :
    a.readVariable w depth v = a.readVariable w depth' v := by
  induction depth generalizing v depth' with
  | zero => exact absurd hd (Nat.not_lt_zero _)
  | succ depth ih =>
    obtain _ | depth' := depth'
    · exact absurd hd' (Nat.not_lt_zero _)
    unfold readVariable
    rcases a.stored v with _ | x
    · rcases hf : w.findVariable v with _ | d
      · rfl
      · dsimp only
        rcases ht : d.definition with _ | t
        · rfl
        · have hdef : w.definition? v = some t := definition?_eq.mpr ⟨d, hf, ht⟩
          refine congrArg (fun o : Argument α => o.value ()) (argument_congr (fun u hu => ?_) none)
          have hrank := rank_lt hw.closed hw.acyclic (dependsOn_iff_reads.mpr ⟨t, hdef, hu⟩)
          exact ih (by omega) (by omega)
    · rfl

/-- A bound above the number of variables gives the same outcome. -/
theorem evaluate_congr (hw : w.Stratified) {depth : Nat} (hd : w.vars.size < depth) :
    .ofReading (a.readWith w (a.readVariable w depth) t) = a.evaluate w t := by
  have hread : ∀ v, a.readVariable w depth v = a.readVariable w (w.vars.size + 1) v := fun v =>
    readVariable_congr hw (Nat.lt_of_le_of_lt (w.rank_le v) hd) (Nat.lt_succ_of_le (w.rank_le v))
  rw [funext hread]
  rfl

end Assignment

/-! ### What is accepted, and what is evaluated -/

/-- A number or what is no operand at all is not circular. -/
theorem evaluateInput_uncircular {a : Assignment α} (hw : w.Stratified) {x : Input α}
    (hb : ∀ t ∈ x.terms, a.UsesBuiltin w t) :
    a.evaluateInput w x ≠ .error (.fault .circularDefinition) := by
  cases x with
  | term t => exact Assignment.evaluate_uncircular hw (hb t (by simp [Input.terms]))
  | literal l =>
    have hl : Uncircular l.toScalar? := faultsIn_toScalar? l (by decide)
    simp only [Assignment.evaluateInput]
    rcases hx : l.toScalar? with f | _ | x
    · intro he
      cases he
      exact hl _ hx rfl
    · simp
    · simp
  | other kind description => simp [Assignment.evaluateInput]

/-- A variable that is no member closes no cycle, and is accepted. -/
theorem addVariable_accepted {m : ModelId} {kind : VariableKind} {name : String}
    {lower upper : Literal α} {x : Input α} {new : Variable α} (hw : w.Stratified)
    (hx : x.Declared w)
    (h : (checkVariable m kind name lower upper x none).run.run w = (.ok new, w₁)) :
    ((addVariable m kind name lower upper x).run.run w).1 = .ok w.nextVariable ∧
      ¬ (w.withVariable new).OnCycle w.nextVariable := by
  obtain ⟨hsame, hnew⟩ := checked hx h
  obtain ⟨w', hrun, -⟩ := run_addVariable h
  refine ⟨?_, not_onCycle_withVariable hw.closed fun t ht => hsame.declaresAll.mp (hnew t ht)⟩
  rw [hrun, hsame.nextVariable]

/-- A member is refused for the sake of its family exactly if it would be on a cycle, and is accepted
otherwise. -/
theorem addMember_accepted {f : FamilyId} {family : Family} {lower upper : Literal α} {x : Input α}
    {new : Variable α} (hw : w.Stratified) (hx : x.Declared w) (hf : w.findFamily f = some family)
    (h : (checkMember family lower upper x).run.run w = (.ok new, w₁)) :
    ((w.withMember f new).OnCycle w.nextVariable →
      ((addMember f lower upper x).run.run w).1 = .error (.ownFamily new.name (w.familyName f))) ∧
    (¬ (w.withMember f new).OnCycle w.nextVariable →
      ((addMember f lower upper x).run.run w).1 = .ok w.nextVariable) := by
  obtain ⟨hsame, hnew⟩ := checked hx h
  have hcycle : ∀ t, new.definition = some t →
      ((w.withMember f new).OnCycle w.nextVariable ↔ w₁.selectsFrom f t = true) := fun t ht => by
    have hdeclared := hsame.declaresAll.mp (hnew t ht)
    rw [hsame.selectsFrom, selectsFrom_iff hw.closed hdeclared]
    exact onCycle_withMember_iff hw.closed hf ht hdeclared
  constructor
  · intro hon
    obtain ⟨t, ht⟩ := exists_of_onCycle_withMember hon
    rw [run_addMember_refused hf h ht ((hcycle t ht).mp hon), hsame.familyName]
  · intro hoff
    have hsel : ∀ t, new.definition = some t → w₁.selectsFrom f t = false := fun t ht =>
      Bool.eq_false_iff.mpr fun hsel => hoff ((hcycle t ht).mpr hsel)
    obtain ⟨w', hrun, -⟩ := run_addMember hf h hsel
    rw [hrun, hsame.nextVariable]

/-- Definitions are acyclic in every workspace that builders lead to. A new variable that passes the
checks of its name and its bounds is accepted exactly if it closes no cycle, which only a member of a
family can do, and then its family is the reason of the refusal. So evaluation with the operators that
have a fixed meaning terminates: the bound on definitions is never met, and a greater one gives the
same outcome. -/
theorem Assembled.cycle_free (h : Assembled w) :
    w.Acyclic ∧
    (∀ m kind name lower upper x new w₁, x.Declared w →
      (checkVariable m kind name lower upper x none).run.run w = (.ok new, w₁) →
        ((addVariable m kind name lower upper x).run.run w).1 = .ok w.nextVariable ∧
          ¬ (w.withVariable new).OnCycle w.nextVariable) ∧
    (∀ f family lower upper x new w₁, x.Declared w → w.findFamily f = some family →
      (checkMember family lower upper x).run.run w = (.ok new, w₁) →
        (((addMember f lower upper x).run.run w).1 =
            .error (.ownFamily new.name (w.familyName f)) ↔
          (w.withMember f new).OnCycle w.nextVariable) ∧
        (((addMember f lower upper x).run.run w).1 = .ok w.nextVariable ↔
          ¬ (w.withMember f new).OnCycle w.nextVariable)) ∧
    ∀ (s : Solution α) x, (∀ t ∈ x.terms, s.assignment.UsesBuiltin w t) →
      s.evaluateInput w x ≠ .error (.fault .circularDefinition) ∧
        ∀ t ∈ x.terms, ∀ depth, w.vars.size < depth →
          .ofReading (s.assignment.readWith w (s.assignment.readVariable w depth) t) =
            s.evaluateInput w x := by
  have hw := h.stratified
  refine ⟨hw.acyclic, fun m kind name lower upper x new w₁ hx hc => addVariable_accepted hw hx hc,
    fun f family lower upper x new w₁ hx hf hc => ?_, fun s x hb => ?_⟩
  · obtain ⟨hon, hoff⟩ := addMember_accepted hw hx hf hc
    by_cases hcycle : (w.withMember f new).OnCycle w.nextVariable
    · simp [hon hcycle, hcycle]
    · simp [hoff hcycle, hcycle]
  · refine ⟨evaluateInput_uncircular hw hb, fun t ht depth hd => ?_⟩
    cases x with
    | term u =>
      obtain rfl : t = u := by simpa [Input.terms] using ht
      exact Assignment.evaluate_congr hw hd
    | literal l => simp [Input.terms] at ht
    | other kind description => simp [Input.terms] at ht

/-! ### A small family -/

namespace Looping

/-- A family with a member, a variable that selects from it, and a variable that is the selected
member. -/
def calls : List (Call Exact) :=
  [.newModel .feasible, .addFamily ⟨0⟩ .integer "a",
    .addVariable ⟨0⟩ .integer "i" (.int 0) (.int 1) (.literal .absent),
    .addMember ⟨0⟩ (.int 0) (.int 5) (.literal .absent), .familyEntry ⟨0⟩ (.term (.var ⟨0⟩)),
    .addVariable ⟨0⟩ .integer "y" .absent .absent (.term (.selected ⟨1⟩ ⟨0⟩ ⟨0⟩))]

def workspace : Workspace Exact := calls.foldl (fun w call => (call.run.run.run w).2) {}

def family : Family := { model := ⟨0⟩, kind := .integer, name := "a", members := [⟨1⟩] }

/-- A member that is the variable that is the selected member. -/
def looping : Variable Exact where
  kind := .integer
  name := "a[1]"
  lower := .negInf
  upper := .posInf
  definition := some (.node ⟨3⟩ .wrapper [.var ⟨2⟩])

theorem assembled : Assembled workspace := by
  refine .step _ (.step _ (.step _ (.step _ (.step _ (.step _ .start ?_) ?_) ?_) ?_) ?_) ?_
  all_goals simp [Call.inputs, Input.Declared, Workspace.DeclaresAll, Term.mentions]
  all_goals exact Nat.succ_pos 1

/-- Nothing is stored. -/
def empty : Solution Exact := { model := ⟨0⟩ }

/-- A member defined by the variable that is the selected member would be on a cycle, and is refused.
That variable itself can be evaluated: it is missing as long as the index is. -/
theorem small_cycle_free : Assembled workspace ∧
    (Input.term (.var ⟨2⟩) : Input Exact).Declared workspace ∧
    workspace.findFamily ⟨0⟩ = some family ∧
    ((checkMember family .absent .absent (.term (.var ⟨2⟩))).run.run workspace).1 = .ok looping ∧
    ((addMember ⟨0⟩ .absent .absent (.term (.var ⟨2⟩))).run.run workspace).1 =
      .error (.ownFamily "a[1]" "a") ∧
    (workspace.withMember ⟨0⟩ looping).OnCycle workspace.nextVariable ∧
    empty.assignment.UsesBuiltin workspace (.var ⟨2⟩) ∧
    empty.evaluateInput workspace (.term (.var ⟨2⟩)) = .ok none ∧
    empty.evaluateInput workspace (.term (.var ⟨2⟩)) ≠ .error (.fault .circularDefinition) := by
  have hx : (Input.term (.var ⟨2⟩) : Input Exact).Declared workspace := by
    intro v hv
    obtain rfl : v = ⟨2⟩ := by simpa [Term.mentions] using hv
    exact Nat.lt_succ_self 2
  have hb : empty.assignment.UsesBuiltin workspace (.var ⟨2⟩) := fun _ _ _ _ _ _ => rfl
  have hrefused : ((addMember ⟨0⟩ .absent .absent (.term (.var ⟨2⟩))).run.run workspace).1 =
      .error (.ownFamily "a[1]" "a") := rfl
  obtain ⟨-, -, hmember, hevaluate⟩ := assembled.cycle_free
  have hcycle := (hmember ⟨0⟩ family .absent .absent _ looping _ hx rfl rfl).1.mp hrefused
  exact ⟨assembled, hx, rfl, rfl, hrefused, hcycle, hb, rfl,
    (hevaluate empty _ fun t ht => by
      obtain rfl : t = .var ⟨2⟩ := by simpa [Input.terms] using ht
      exact hb).1⟩

end Looping

end DecisionModel
