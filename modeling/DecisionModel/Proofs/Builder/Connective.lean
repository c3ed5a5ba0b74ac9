import DecisionModel.Proofs.Builder.History
import DecisionModel.Proofs.Evaluation.Verdict
import DecisionModel.Proofs.Keeps
import DecisionModel.Solution.Basic

/-!
# Connectives keep the meaning of their operands

Builders of connectives simplify: a nested conjunction or disjunction is moved into the new one, and a
double complement collapses. The outcome of what they return is nevertheless that of the plain
connective of the outcomes of what was given (`connectives_sound`), and an implication is recognised
with the condition and the consequence that it was built from (`implication_sound`).

What is returned depends only on what is given and not on the workspace, up to the identities of new
nodes, and it means the same in every workspace.
-/

namespace DecisionModel

open Build Outcome

variable {α β γ : Type} [Scalar α]

/-- What is given is an operand, the term `t`: it is this term, or a number that stands for a
constant. -/
def Input.Denotes : Input α → Term α → Prop
  | .term s, t => s = t
  | .literal l, t => ∃ x, l.toScalar? = .ok (some x) ∧ t = .const x
  | .other _ _, _ => False

/-- What is given is an operand that may be handed in after the terms were returned. -/
def Input.IsOperand (known : List (Term α)) (x : Input α) : Prop :=
  x.Available known ∧ ∃ t, x.Denotes t

/-- From `w` the builder does not refuse, and `P` holds of what it returns. -/
def Build.Yields (w : Workspace α) (m : Build α β) (P : β → Prop) : Prop :=
  ∃ x w', m.run.run w = (.ok x, w') ∧ P x

/-- Every complement in the term has the one operand that it calls for. -/
def Term.OpposesOne (t : Term α) : Prop :=
  ∀ id ts, Term.Within (.node id .complement ts) t → ∃ u, ts = [u]

omit [Scalar α] in
theorem Term.OpposesOne.operand {t : Term α} {id : NodeId} {op : Operator} {ts : List (Term α)}
    (h : (Term.node id op ts).OpposesOne) (ht : t ∈ ts) : t.OpposesOne :=
  fun _ _ hw => h _ _ (.operand ht hw)

namespace Build

variable {w : Workspace α} {m : Build α β} {P Q : β → Prop} {R : γ → Prop} {x y : Input α}
  {s t : Term α} {op : Operator}

omit [Scalar α] in
theorem Yields.bind {f : β → Build α γ} (hm : Yields w m P)
    (hf : ∀ x w', P x → Yields w' (f x) R) : Yields w (m >>= f) R := by
  obtain ⟨x, w', hrun, hx⟩ := hm
  obtain ⟨y, w'', hrun', hy⟩ := hf x w' hx
  exact ⟨y, w'', (run_bind_of_ok hrun).trans hrun', hy⟩

omit [Scalar α] in
theorem Yields.mono (hm : Yields w m P) (h : ∀ x, P x → Q x) : Yields w m Q := by
  obtain ⟨x, w', hrun, hx⟩ := hm
  exact ⟨x, w', hrun, h x hx⟩

omit [Scalar α] in
theorem yields_pure {x : β} (h : P x) : Yields w (pure x) P := ⟨x, w, rfl, h⟩

omit [Scalar α] in
theorem yields_node {P : Term α → Prop} {ts : List (Term α)} (h : ∀ id, P (.node id op ts)) :
    Yields w (node op ts) P := ⟨_, _, rfl, h _⟩

/-! ### Operands -/

theorem denotes_term (t : Term α) : (Input.term t).Denotes t := rfl

theorem run_operand (hx : x.Denotes t) (w : Workspace α) : (operand x).run.run w = (.ok t, w) := by
  cases x with
  | term s =>
    obtain rfl := hx
    rfl
  | literal l =>
    obtain ⟨x, hl, rfl⟩ := hx
    simp only [operand, hl]
    rfl
  | other kind description => exact hx.elim

theorem yields_operand (hx : x.Denotes t) : Yields w (operand x) (· = t) :=
  ⟨t, w, run_operand hx w, rfl⟩

theorem evaluateInput_eq {a : Assignment α} (hx : x.Denotes t) :
    a.evaluateInput w x = a.evaluate w t := by
  cases x with
  | term s =>
    obtain rfl := hx
    rfl
  | literal l =>
    obtain ⟨x, hl, rfl⟩ := hx
    simp only [Assignment.evaluateInput, hl]
    rfl
  | other kind description => exact hx.elim

/-! ### Complements with one operand -/

omit [Scalar α] in
theorem opposesOne_of_wellBuilt {origin : NodeId → Option (Term α)} (h : t.WellBuilt origin) :
    t.OpposesOne := fun _ _ hw => h.shape hw

omit [Scalar α] in
theorem opposesOne_node {id : NodeId} {ts : List (Term α)} (h : op = .complement → ∃ u, ts = [u])
    (hts : ∀ t ∈ ts, t.OpposesOne) : (Term.node id op ts).OpposesOne := by
  intro id' us hw
  cases hw with
  | refl => exact h rfl
  | operand hm hw => exact hts _ hm _ _ hw

theorem wellBuilt_of_denotes {origin : NodeId → Option (Term α)} (hk : x.Known origin)
    (hx : x.Denotes t) : t.WellBuilt origin := by
  cases x with
  | term s =>
    obtain rfl := hx
    exact hk
  | literal l =>
    obtain ⟨x, -, rfl⟩ := hx
    exact .const x
  | other kind description => exact hx.elim

/-! ### What the builders return -/

theorem yields_wrapTerm (w : Workspace α) (ht : t.OpposesOne) :
    Yields w (wrapTerm t) fun e =>
      e.OpposesOne ∧ ∀ (a : Assignment α) w', a.evaluate w' e = a.evaluate w' t := by
  unfold wrapTerm
  split
  · exact yields_pure ⟨ht, fun _ _ => rfl⟩
  · refine yields_node fun id => ⟨opposesOne_node (by simp) (by simpa using ht), fun a w' => ?_⟩
    exact Assignment.evaluate_wrapper id t

omit [Scalar α] in
theorem runs_wrapTerm (w : Workspace α) (t : Term α) :
    ∃ e w', (wrapTerm t).run.run w = (.ok e, w') := by
  unfold wrapTerm
  split
  · exact ⟨_, _, rfl⟩
  · exact ⟨_, _, rfl⟩

/-- A connective has the operands that each side contributes. -/
theorem yields_connect (w : Workspace α) (op : Operator) (hx : x.Denotes s) (hy : y.Denotes t) :
    Yields w (connect op x y) fun e => ∃ id, e = .node id op (spliced op s ++ spliced op t) := by
  refine (yields_operand hx).bind fun s' w₁ hs => (yields_operand hy).bind fun t' w₂ ht => ?_
  rw [hs, ht]
  exact yields_node fun id => ⟨id, rfl⟩

/-- What is no complement gets one. -/
theorem yields_complement_node (w : Workspace α) (hx : x.Denotes t)
    (ht : t.operator? ≠ some .complement) :
    Yields w (complement x) fun e => ∃ id, e = .node id .complement [t] := by
  refine (yields_operand hx).bind fun t' w' ht' => ?_
  rw [ht']
  split
  · exact absurd rfl ht
  · exact absurd rfl ht
  · exact yields_node fun id => ⟨id, rfl⟩

/-- The complement holds exactly if the operand does not, whether it collapses or not. -/
theorem yields_complement (w : Workspace α) [Scalar.Decisive α] (hx : x.Denotes t)
    (ht : t.OpposesOne) :
    Yields w (complement x) fun e => e.OpposesOne ∧
      ∀ (a : Assignment α) w', holds (a.evaluate w' e) = opposite (holds (a.evaluate w' t)) := by
  refine (yields_operand hx).bind fun t' w₁ ht' => ?_
  rw [ht']
  split
  · rename_i id u us
    obtain ⟨v, hv⟩ := ht id (u :: us) (.refl _)
    obtain ⟨rfl, rfl⟩ := List.cons.inj hv
    refine (yields_wrapTerm w₁ (ht.operand List.mem_cons_self)).mono fun e he => ⟨he.1, fun a w' => ?_⟩
    rw [he.2, Assignment.evaluate_complement, holds_oneOrZero, opposite_opposite]
  · rename_i id
    obtain ⟨v, hv⟩ := ht id [] (.refl _)
    cases hv
  · refine yields_node fun id => ⟨opposesOne_node (fun _ => ⟨t, rfl⟩) (by simpa using ht), fun a w' => ?_⟩
    rw [Assignment.evaluate_complement, holds_oneOrZero]

variable {a : Assignment α}

/-- A node with the operator is evaluated by a fold over what its operands hold, which takes appended
lists as a whole. -/
structure Folds (op : Operator) (fold : List (Partially α Bool) → Partially α Bool)
    (f : Partially α Bool → Partially α Bool → Partially α Bool) : Prop where
  singleton (p : Partially α Bool) : fold [p] = p
  append (ps qs : List (Partially α Bool)) : fold (ps ++ qs) = f (fold ps) (fold qs)
  evaluate (a : Assignment α) (w : Workspace α) (id : NodeId) (ts : List (Term α)) :
    a.evaluate w (.node id op ts) = oneOrZero (fold (ts.map fun t => holds (a.evaluate w t)))

theorem folds_conjunction : Folds (α := α) .conjunction all both where
  singleton := all_singleton
  append := all_append
  evaluate _ _ := Assignment.evaluate_conjunction

theorem folds_disjunction : Folds (α := α) .disjunction any either where
  singleton := any_singleton
  append := any_append
  evaluate _ _ := Assignment.evaluate_disjunction

section

variable {fold : List (Partially α Bool) → Partially α Bool}
  {f : Partially α Bool → Partially α Bool → Partially α Bool}

/-- What a term contributes to a connective holds as a whole exactly if the term does. -/
theorem Folds.spliced [Scalar.Decisive α] (h : Folds op fold f) (t : Term α) :
    fold ((spliced op t).map fun s => holds (a.evaluate w s)) = holds (a.evaluate w t) := by
  unfold Build.spliced
  split
  · rename_i hop
    cases t with
    | node id op' ts =>
      obtain rfl := Option.some.inj hop
      rw [h.evaluate, holds_oneOrZero]
      rfl
    | _ => cases hop
  · exact h.singleton _

/-- The builder makes a connective that is evaluated as `f` of its two operands, whether they were moved
into it or not. -/
def Connects (connective : Input α → Input α → Build α (Term α))
    (f : Partially α Bool → Partially α Bool → Partially α Bool) : Prop :=
  ∀ w {x y s t}, x.Denotes s → y.Denotes t → Yields w (connective x y) fun e =>
    e.operator? ≠ some .complement ∧ ∀ (a : Assignment α) w',
      a.evaluate w' e = oneOrZero (f (holds (a.evaluate w' s)) (holds (a.evaluate w' t)))

theorem Folds.connects [Scalar.Decisive α] (h : Folds op fold f) (hop : op ≠ .complement) :
    Connects (connect op) f := by
  intro w x y s t hx hy
  refine (yields_connect w op hx hy).mono fun e he => ?_
  obtain ⟨id, rfl⟩ := he
  refine ⟨by simp [Term.operator?, hop], fun a w' => ?_⟩
  rw [h.evaluate, List.map_append, h.append, h.spliced, h.spliced]

end

theorem connects_conjoin [Scalar.Decisive α] : Connects (α := α) conjoin both :=
  folds_conjunction.connects (by simp)

theorem connects_disjoin [Scalar.Decisive α] : Connects (α := α) disjoin either :=
  folds_disjunction.connects (by simp)

/-- However three operands are grouped, they are moved into one list. -/
theorem yields_grouped (w : Workspace α) (op : Operator) {z : Input α} {u : Term α}
    (hx : x.Denotes s) (hy : y.Denotes t) (hz : z.Denotes u) :
    Yields w (do
        let left ← connect op (.term (← connect op x y)) z
        let right ← connect op x (.term (← connect op y z))
        return (left, right)) fun p =>
      p.1.operator? = some op ∧ p.2.operator? = some op ∧ p.1.operands = p.2.operands := by
  refine (yields_connect w op hx hy).bind fun inner w₁ hinner => ?_
  refine (yields_connect w₁ op (denotes_term inner) hz).bind fun left w₂ hleft => ?_
  refine (yields_connect w₂ op hy hz).bind fun inner' w₃ hinner' => ?_
  refine (yields_connect w₃ op hx (denotes_term inner')).bind
    fun right w₄ hright => yields_pure ?_
  obtain ⟨_, rfl⟩ := hinner
  obtain ⟨_, rfl⟩ := hleft
  obtain ⟨_, rfl⟩ := hinner'
  obtain ⟨_, rfl⟩ := hright
  have hspliced (id : NodeId) (ts : List (Term α)) : spliced op (.node id op ts) = ts := if_pos rfl
  refine ⟨rfl, rfl, ?_⟩
  simp only [Term.operands, hspliced, List.append_assoc]

/-- The complement of a connective and the dual one of the complements have the same outcome. -/
theorem Connects.deMorgan [Scalar.Decisive α] {connective dual : Input α → Input α → Build α (Term α)}
    {f g : Partially α Bool → Partially α Bool → Partially α Bool} (hconnective : Connects connective f)
    (hdual : Connects dual g) (hfg : ∀ p q, opposite (f p q) = g (opposite p) (opposite q))
    (w : Workspace α) (hx : x.Denotes s) (hs : s.OpposesOne) (hy : y.Denotes t) (ht : t.OpposesOne) :
    Yields w (do
        let left ← complement (.term (← connective x y))
        let right ← dual (.term (← complement x)) (.term (← complement y))
        return (left, right)) fun p =>
      ∀ (a : Assignment α) w', a.evaluate w' p.1 = a.evaluate w' p.2 := by
  refine (hconnective w hx hy).bind fun inner w₁ hinner => ?_
  refine (yields_complement_node w₁ (denotes_term inner) hinner.1).bind fun left w₂ hleft => ?_
  refine (yields_complement w₂ hx hs).bind fun x' w₃ hx' => ?_
  refine (yields_complement w₃ hy ht).bind fun y' w₄ hy' => ?_
  refine (hdual w₄ (denotes_term x') (denotes_term y')).bind fun right w₅ hright =>
    yields_pure fun a w' => ?_
  obtain ⟨id, rfl⟩ := hleft
  rw [Assignment.evaluate_complement, hinner.2, holds_oneOrZero, hright.2, hx'.2, hy'.2, hfg]

/-- A double complement holds exactly if the operand does. -/
theorem yields_complement_complement [Scalar.Decisive α] (w : Workspace α) (hx : x.Denotes t)
    (ht : t.OpposesOne) :
    Yields w (do complement (.term (← complement x))) fun e =>
      ∀ (a : Assignment α) w', holds (a.evaluate w' e) = holds (a.evaluate w' t) := by
  refine (yields_complement w hx ht).bind fun inner w₁ hinner => ?_
  refine (yields_complement w₁ (denotes_term inner) hinner.1).mono fun e he a w' => ?_
  rw [he.2, hinner.2, opposite_opposite]

/-! ### Implications -/

/-- The disjunction that an implication is, if neither side is moved or collapses. -/
theorem yields_implies (w : Workspace α) (hs : s.operator? ≠ some .complement) (hy : y.Denotes t)
    (ht : t.operator? ≠ some .disjunction) :
    Yields w (implies (.term s) y) fun e =>
      ∃ id id', e = .node id .disjunction [.node id' .complement [s], t] := by
  refine (yields_complement_node w (denotes_term s) hs).bind fun negated w₁ hnegated => ?_
  obtain ⟨id', rfl⟩ := hnegated
  refine (yields_connect w₁ .disjunction (denotes_term _) hy).mono fun e he => ?_
  obtain ⟨id, rfl⟩ := he
  have hleft : spliced .disjunction (.node id' .complement [s]) = [.node id' .complement [s]] :=
    if_neg (by simp [Term.operator?])
  have hright : spliced .disjunction t = [t] := if_neg ht
  exact ⟨id, id', by rw [hleft, hright]; rfl⟩

omit [Scalar α] in
/-- Recognising a disjunction of the form of an implication wraps its condition and consequence. -/
theorem implication_node {id id' : NodeId} (hs : s.isConst = false) (t : Term α) :
    implication? (.term (.node id .disjunction [.node id' .complement [s], t])) = (do
      let condition ← wrapTerm s
      let consequence ← wrapTerm t
      return some (condition, consequence)) := by
  simp only [implication?, hs]
  rfl

/-- A condition and a consequence that were recognised in a term have its outcome as an implication. -/
def Implies (e condition consequence : Term α) : Prop :=
  ∀ (a : Assignment α) w, a.evaluate w e = andThen (a.evaluate w condition) fun x =>
    if Scalar.isZero x then .ok (some Scalar.one) else oneOrZero (holds (a.evaluate w consequence))

theorem implies_node [Scalar.Decisive α] {id id' : NodeId} {condition consequence : Term α}
    (hs : ∀ (a : Assignment α) w, a.evaluate w condition = a.evaluate w s)
    (ht : ∀ (a : Assignment α) w, a.evaluate w consequence = a.evaluate w t) :
    Implies (.node id .disjunction [.node id' .complement [s], t]) condition consequence := by
  intro a w
  rw [Assignment.evaluate_disjunction, List.map_cons, List.map_singleton, ← List.singleton_append,
    any_append, any_singleton, any_singleton, Assignment.evaluate_complement, holds_oneOrZero, hs, ht]
  rcases a.evaluate w s with e | _ | x
  · rfl
  · rfl
  · simp only [holds, opposite, either, andThen, Bool.not_not]
    cases Scalar.isZero x <;> rfl

/-- What is recognised in a term has its outcome as an implication. -/
theorem implies_of_implication [Scalar.Decisive α] {e : Term α} (he : e.OpposesOne)
    {p : Term α × Term α} {w' : Workspace α}
    (hrun : (implication? (.term e)).run.run w = (.ok (some p), w')) : Implies e p.1 p.2 := by
  unfold implication? at hrun
  split at hrun
  · rename_i e' id id' s ts t heq
    cases heq
    obtain ⟨s', hs'⟩ := he id' (s :: ts) (.operand (by simp) (.refl _))
    obtain ⟨rfl, rfl⟩ := List.cons.inj hs'
    have hs : s.OpposesOne := (he.operand List.mem_cons_self).operand List.mem_cons_self
    have ht : t.OpposesOne := he.operand (List.mem_cons_of_mem _ List.mem_cons_self)
    split at hrun
    · cases hrun
    · obtain ⟨condition, w₁, hcondition, hc⟩ := yields_wrapTerm w hs
      obtain ⟨consequence, w₂, hconsequence, hq⟩ := yields_wrapTerm w₁ ht
      rw [run_bind_of_ok hcondition, run_bind_of_ok hconsequence] at hrun
      cases hrun
      exact implies_node hc.2 hq.2
  · cases hrun
  · cases hrun

end Build

/-- The builders of connectives do not refuse operands. The outcome of a conjunction is that of the
first operand if it is missing, an error or zero, and otherwise that of the second as a truth value; it
does not matter which operands were moved into it. In the same way for a disjunction. Three operands
make the same list however they are grouped, a double complement holds exactly if the operand does, and
the complement of a connective has the outcome of the dual one of the complements. -/
theorem connectives_sound [Scalar.Decisive α] {w : Workspace α} {known : List (Term α)}
    (h : History w known) {x y z : Input α} (hx : x.IsOperand known) (hy : y.IsOperand known)
    (hz : z.IsOperand known) :
    (Yields w (conjoin x y) fun e => ∀ (σ : Solution α) w', σ.evaluate w' e =
      oneOrZero (both (holds (σ.evaluateInput w' x)) (holds (σ.evaluateInput w' y)))) ∧
    (Yields w (disjoin x y) fun e => ∀ (σ : Solution α) w', σ.evaluate w' e =
      oneOrZero (either (holds (σ.evaluateInput w' x)) (holds (σ.evaluateInput w' y)))) ∧
    (Yields w (do
        let left ← conjoin (.term (← conjoin x y)) z
        let right ← conjoin x (.term (← conjoin y z))
        return (left, right)) fun p =>
      p.1.operator? = some .conjunction ∧ p.2.operator? = some .conjunction ∧
        p.1.operands = p.2.operands) ∧
    (Yields w (do
        let left ← disjoin (.term (← disjoin x y)) z
        let right ← disjoin x (.term (← disjoin y z))
        return (left, right)) fun p =>
      p.1.operator? = some .disjunction ∧ p.2.operator? = some .disjunction ∧
        p.1.operands = p.2.operands) ∧
    (Yields w (do complement (.term (← complement x))) fun e =>
      ∀ (σ : Solution α) w', holds (σ.evaluate w' e) = holds (σ.evaluateInput w' x)) ∧
    (Yields w (do
        let left ← complement (.term (← conjoin x y))
        let right ← disjoin (.term (← complement x)) (.term (← complement y))
        return (left, right)) fun p =>
      ∀ (σ : Solution α) w', σ.evaluate w' p.1 = σ.evaluate w' p.2) ∧
    (Yields w (do
        let left ← complement (.term (← disjoin x y))
        let right ← conjoin (.term (← complement x)) (.term (← complement y))
        return (left, right)) fun p =>
      ∀ (σ : Solution α) w', σ.evaluate w' p.1 = σ.evaluate w' p.2) := by
  obtain ⟨origin, -, hk⟩ := h.wellFormed
  obtain ⟨hxk, s, hs⟩ := hx
  obtain ⟨hyk, t, ht⟩ := hy
  obtain ⟨-, u, hu⟩ := hz
  have hs₁ : s.OpposesOne := opposesOne_of_wellBuilt (wellBuilt_of_denotes (hxk.known hk) hs)
  have ht₁ : t.OpposesOne := opposesOne_of_wellBuilt (wellBuilt_of_denotes (hyk.known hk) ht)
  have hxo (σ : Solution α) (w' : Workspace α) : σ.evaluateInput w' x = σ.evaluate w' s :=
    evaluateInput_eq hs
  have hyo (σ : Solution α) (w' : Workspace α) : σ.evaluateInput w' y = σ.evaluate w' t :=
    evaluateInput_eq ht
  simp only [hxo, hyo]
  refine ⟨?_, ?_, yields_grouped w .conjunction hs ht hu, yields_grouped w .disjunction hs ht hu,
    ?_, ?_, ?_⟩
  · exact (connects_conjoin w hs ht).mono fun e he σ w' => he.2 σ.assignment w'
  · exact (connects_disjoin w hs ht).mono fun e he σ w' => he.2 σ.assignment w'
  · exact (yields_complement_complement w hs hs₁).mono fun e he σ w' => he σ.assignment w'
  · exact (connects_conjoin.deMorgan connects_disjoin opposite_both w hs hs₁ ht ht₁).mono
      fun p hp σ w' => hp σ.assignment w'
  · exact (connects_disjoin.deMorgan connects_conjoin opposite_either w hs hs₁ ht ht₁).mono
      fun p hp σ w' => hp σ.assignment w'

/-- The constraint of the small model, a number and its first variable are operands; the complement of
the conjunction of the first two has the outcome of the disjunction of their complements. -/
theorem Small.connected : History workspace known ∧
    (Input.term constraint).IsOperand known ∧ (Input.literal (.int 2)).IsOperand known ∧
    (Input.term (.var ⟨0⟩)).IsOperand known ∧
    Yields workspace (do
        let left ← complement (.term (← conjoin (.term constraint) (.literal (.int 2))))
        let right ← disjoin (.term (← complement (.term constraint)))
          (.term (← complement (.literal (.int 2))))
        return (left, right)) fun p =>
      ∀ (σ : Solution Exact) w', σ.evaluate w' p.1 = σ.evaluate w' p.2 := by
  have hconstraint : (Input.term constraint).IsOperand known :=
    ⟨by simp [Input.Available, constraint, known], _, rfl⟩
  have htwo : (Input.literal (.int 2)).IsOperand known := ⟨trivial, .const (.finite 2), _, rfl, rfl⟩
  have hvariable : (Input.term (.var ⟨0⟩)).IsOperand known := ⟨trivial, _, rfl⟩
  exact ⟨history, hconstraint, htwo, hvariable,
    (connectives_sound history hconstraint htwo hvariable).2.2.2.2.2.1⟩

/-- A condition that is neither a constant nor a complement and a consequence that is no disjunction are
recognised, each as a node, in the implication made of them. In whatever term a condition and a
consequence are recognised, its outcome is that of the condition if that is missing or an error, one if
the condition is zero, and otherwise that of the consequence as a truth value. -/
theorem implication_sound [Scalar.Decisive α] {w : Workspace α} {known : List (Term α)}
    (h : History w known) :
    (∀ (s : Term α) (y : Input α) (t : Term α), s.isConst = false →
      s.operator? ≠ some .complement → y.Denotes t → t.operator? ≠ some .disjunction →
      ∃ p w', (do
          let e ← implies (.term s) y
          implication? (.term e)).run.run w = (.ok (some p), w') ∧
        (do
          let _ ← implies (.term s) y
          let condition ← wrap (.term s)
          let consequence ← wrap y
          return (condition, consequence)).run.run w = (.ok p, w')) ∧
    (∀ e condition consequence w', (Input.term e).Available known →
      (implication? (.term e)).run.run w = (.ok (some (condition, consequence)), w') →
      ∀ (σ : Solution α) w'', σ.evaluate w'' e =
        andThen (σ.evaluate w'' condition) fun x =>
          if Scalar.isZero x then .ok (some Scalar.one)
          else oneOrZero (holds (σ.evaluate w'' consequence))) := by
  constructor
  · intro s y t hconst hs hy ht
    obtain ⟨e, w₁, hrun, id, id', rfl⟩ := yields_implies w hs hy ht
    obtain ⟨condition, w₂, hcondition⟩ := runs_wrapTerm w₁ s
    obtain ⟨consequence, w₃, hconsequence⟩ := runs_wrapTerm w₂ t
    have hwrap : (wrap (.term s)).run.run w₁ = (.ok condition, w₂) := hcondition
    have hwrap' : (wrap y).run.run w₂ = (.ok consequence, w₃) :=
      (run_bind_of_ok (run_operand hy w₂)).trans hconsequence
    refine ⟨(condition, consequence), w₃, ?_, ?_⟩
    · rw [run_bind_of_ok hrun, implication_node hconst, run_bind_of_ok hcondition,
        run_bind_of_ok hconsequence]
      rfl
    · rw [run_bind_of_ok hrun, run_bind_of_ok hwrap, run_bind_of_ok hwrap']
      rfl
  · intro e condition consequence w' he hrun σ w''
    obtain ⟨origin, -, hk⟩ := h.wellFormed
    have he' : e.OpposesOne := opposesOne_of_wellBuilt (he.known hk)
    exact implies_of_implication he' hrun σ.assignment w''

namespace Small

/-- If the constraint of the small model holds, its first variable is not zero. -/
def implication : Term Exact :=
  .node ⟨4⟩ .disjunction [.node ⟨3⟩ .complement [constraint], .var ⟨0⟩]

/-- The small model after this implication was built. -/
def extended : Workspace Exact :=
  ((Call.implies (.term constraint) (.term (.var ⟨0⟩))).run.run.run workspace).2

theorem history_extended : History extended (known ++ [implication]) :=
  .returned (.implies (.term constraint) (.term (.var ⟨0⟩))) history
    (by simp [Call.inputs, Input.Available, constraint, known]) rfl

/-- The condition and the consequence are recognised in the implication, whose outcome they give. -/
theorem recognised : (Input.term implication).Available (known ++ [implication]) ∧
    (∃ p w', (do
        let e ← implies (.term constraint) (.term (.var ⟨0⟩))
        implication? (.term e)).run.run extended = (.ok (some p), w') ∧
      (do
        let _ ← implies (.term constraint) (.term (.var ⟨0⟩))
        let condition ← wrap (.term constraint)
        let consequence ← wrap (.term (.var ⟨0⟩))
        return (condition, consequence)).run.run extended = (.ok p, w')) ∧
    ∃ condition consequence w', (implication? (.term implication)).run.run extended =
        (.ok (some (condition, consequence)), w') ∧
      ∀ (σ : Solution Exact) w'', σ.evaluate w'' implication =
        andThen (σ.evaluate w'' condition) fun x =>
          if Scalar.isZero x then .ok (some Scalar.one)
          else oneOrZero (holds (σ.evaluate w'' consequence)) := by
  have hknown : (Input.term implication).Available (known ++ [implication]) := by
    simp [Input.Available, implication]
  refine ⟨hknown, (implication_sound history_extended).1 constraint (.term (.var ⟨0⟩)) (.var ⟨0⟩) rfl
    (by simp [constraint, Term.operator?]) rfl (by simp [Term.operator?]), ?_⟩
  exact ⟨constraint, .node ⟨5⟩ .wrapper [.var ⟨0⟩], _, rfl,
    (implication_sound history_extended).2 implication _ _ _ hknown rfl⟩

end Small

end DecisionModel
