import DecisionModel.Proofs.Builder.Connective
import DecisionModel.Proofs.Lowering.Conjunction
import DecisionModel.Proofs.Solver.InScope

/-!
# Conjunctions as constraints

Posting a conjunction of two operands is posting the operands, each as a node, one after the other
(`Session.post_conjoined`): whatever the operands are, the two end with the same result, and what can be
seen of the session is the same. If the first operand is refused, the second one is not posted. The
sessions differ only in what is kept of the wrappers that were made for the operands.
-/

namespace DecisionModel

variable {α : Type}

/-- The identity was handed out on the way from the first workspace to the second. -/
def Workspace.Between (w w' : Workspace α) (id : NodeId) : Prop :=
  w.nextNode ≤ id.index ∧ id.index < w'.nextNode

/-- The states are the same but for what is kept of new nodes. -/
inductive SessionState.SameApart (new : NodeId → Prop) : SessionState α → SessionState α → Prop
  | recording {full : Bool} {s s' : LoweringState (Number α) (Recording.Record α)} :
    SameWithin (Scope.hiding (α := α) new) s s' → SameApart new (.recording full s) (.recording full s')
  | scip {s s' : Scip.ScipState α} :
    SameWithin (Scope.hiding (α := α) new) s s' → SameApart new (.scip s) (.scip s')
  | z3 {s s' : Z3.Z3State α} :
    SameWithin (Scope.hiding (α := α) new) s s' → SameApart new (.z3 s) (.z3 s')
  | cpSat {s s' : CpSat.CpSatState} :
    SameWithin (Scope.hiding (α := α) new) s s' → SameApart new (.cpSat s) (.cpSat s')

namespace Session

variable [Scalar α]

/-- Runs the second request if the first one succeeds. -/
def lowerBoth (s : Session α) (w : Workspace α) (first second : Request α) :
    Except (LoweringError α) String × Session α :=
  match s.lower w first with
  | (.ok _, s) => s.lower w second
  | (.error e, s) => (.error e, s)

/-- The sessions are the same but for what is kept of new nodes. -/
structure SameApart (new : NodeId → Prop) (s s' : Session α) : Prop where
  model : s'.model = s.model
  config : s'.config = s.config
  state : s.state.SameApart new s'.state

/-- What can be seen of the sessions is the same. -/
structure LooksLike (s s' : Session α) : Prop where
  calls : s'.calls = s.calls
  auxiliaries : s'.auxiliaries = s.auxiliaries
  violated : s'.violated = s.violated
  log : s'.log = s.log
  handleTexts : s'.handleTexts = s.handleTexts
  sizes? : s'.sizes? = s.sizes?
  collected? : s'.collected? = s.collected?

theorem SameApart.looksLike {new : NodeId → Prop} {s s' : Session α} (h : s.SameApart new s') :
    s.LooksLike s' := by
  obtain ⟨model, config, state⟩ := s
  obtain ⟨model', config', state'⟩ := s'
  obtain ⟨-, -, h⟩ := h
  cases h with
  | recording h | scip h | z3 h | cpSat h =>
    rw [h.eq]
    exact ⟨rfl, rfl, rfl, rfl, rfl, rfl, rfl⟩

end Session

/-! ### What the builders make -/

namespace Build

variable [Scalar α] {w w' : Workspace α} {x y : Input α} {s t : Term α}

theorem runs_connect (w : Workspace α) (op : Operator) (hx : x.Denotes s) (hy : y.Denotes t) :
    ∃ id w', (connect op x y).run.run w = (.ok (.node id op (spliced op s ++ spliced op t)), w') ∧
      w.nextNode ≤ w'.nextNode := by
  unfold connect
  rw [run_bind_of_ok (run_operand hx w), run_bind_of_ok (run_operand hy w)]
  exact ⟨_, _, rfl, Nat.le_succ _⟩

/-- What is given becomes a node, in a new wrapper if it is none. -/
theorem runs_wrap (w : Workspace α) (hx : x.Denotes t) :
    ∃ p w', (wrap x).run.run w = (.ok p, w') ∧ w.nextNode ≤ w'.nextNode ∧
      t.Wrapped (w.Between w') p := by
  unfold wrap
  rw [run_bind_of_ok (run_operand hx w), wrapTerm]
  rcases hnode : t.isNode with _ | _
  · exact ⟨_, _, rfl, Nat.le_succ _, .wrapper hnode ⟨Nat.le_refl _, Nat.lt_succ_self _⟩⟩
  · exact ⟨t, w, rfl, Nat.le_refl _, .node hnode⟩

theorem avoids_between {origin : NodeId → Option (Term α)} (hw : w.WellFormed origin)
    (ht : t.WellBuilt origin) : t.Avoids (w.Between w') := fun _ _ hr hid hnew =>
  absurd (hw.fresh (ht.registered hr hid)) (Nat.not_lt.mpr hnew.1)

/-- A conjunction of two operands, and then the operands as nodes. -/
theorem runs_conjoined {origin : NodeId → Option (Term α)} (hw : w.WellFormed origin)
    (hxk : x.Known origin) (hyk : y.Known origin) (hx : x.Denotes s) (hy : y.Denotes t) :
    ∃ e p q w', (do
        let e ← conjoin x y
        let p ← wrap x
        let q ← wrap y
        return (e, p, q)).run.run w = (.ok (e, p, q), w') ∧ Term.Conjoined (w.Between w') e p q := by
  obtain ⟨id, w₁, he, h₁⟩ := runs_connect w .conjunction hx hy
  obtain ⟨p, w₂, hp, h₂, hwrapped⟩ := runs_wrap w₁ hx
  obtain ⟨q, w₃, hq, h₃, hwrapped'⟩ := runs_wrap w₂ hy
  refine ⟨_, p, q, w₃, ?_, .mk id (avoids_between hw (wellBuilt_of_denotes hxk hx))
    (avoids_between hw (wellBuilt_of_denotes hyk hy)) hwrapped hwrapped' ?_ ?_ ?_⟩
  · have hconjoin : (conjoin x y).run.run w = _ := he
    rw [run_bind_of_ok hconjoin, run_bind_of_ok hp, run_bind_of_ok hq]
    rfl
  · exact fun id h => ⟨h₁.trans h.1, Nat.lt_of_lt_of_le h.2 h₃⟩
  · exact fun id h => ⟨(h₁.trans h₂).trans h.1, h.2⟩
  · exact fun id h h' => absurd h.2 (Nat.not_lt.mpr h'.1)

end Build

/-! ### What a session makes of it -/

namespace Session

variable [Scalar α] {w : Workspace α} {new : NodeId → Prop} {e p q : Term α}

section

variable {ν σ : Type} {E : LoweringState ν σ → Session α} {m m' : LowerM α ν σ String}
  {r r' : Request α}

/-- Two requests that are run in the states of one kind of solver. -/
theorem lowerBoth_eq (hm : ∀ t, (E t).lower w r = ((m.run.run t).1, E (m.run.run t).2))
    (hm' : ∀ t, (E t).lower w r' = ((m'.run.run t).1, E (m'.run.run t).2)) (t : LoweringState ν σ) :
    (E t).lowerBoth w r r' =
      (((m >>= fun _ => m').run.run t).1, E ((m >>= fun _ => m').run.run t).2) := by
  unfold lowerBoth
  rw [hm]
  rcases hrun : m.run.run t with ⟨e | text, t'⟩
  · rw [run_bind_of_error hrun]
  · rw [run_bind_of_ok hrun]
    exact hm' t'

/-- A conjunction and its operands are posted in the same way by any solver whose operations look up no
more than they are given. -/
theorem alike_of_inScope [Numeral ν] {B : Backend α ν σ} (c : Context α)
    (lowerModel : LowerM α ν σ Unit) {t : LoweringState ν σ}
    (hE : ∀ r t, (E t).lower c.workspace r =
      (((r.run B lowerModel c).run.run t).1, E ((r.run B lowerModel c).run.run t).2))
    (hB : ∀ S : Scope α, (∀ e, S.error e) → B.InScope c S) (he : Term.Conjoined new e p q)
    (hnew : ∀ id ∈ t.memo.map (·.1), ¬ new id) :
    let one := (E t).lower c.workspace (.constraint (.term e))
    let both := (E t).lowerBoth c.workspace (.constraint (.term p)) (.constraint (.term q))
    both.1 = one.1 ∧ ∃ t₁ t₂, SameWithin (Scope.hiding (α := α) new) t₁ t₂ ∧
      one.2 = E t₁ ∧ both.2 = E t₂ := by
  have hnone : ∀ id, new id → t.memo? id = none := by
    intro id hid
    by_contra hm
    exact hnew id (by simpa [LoweringState.memo?] using hm) hid
  have hpost {u : Term α} (hu : u.isNode = true) :
      (Request.constraint (.term u)).run B lowerModel c = (do
        B.post c u
        return "") := by
    cases u with
    | node => rfl
    | _ => cases hu
  obtain ⟨hnode, hnodep, hnodeq⟩ := he.isNode
  have hboth : (do
      let _ ← (Request.constraint (.term p)).run B lowerModel c
      (Request.constraint (.term q)).run B lowerModel c) = (do
        (do
          B.post c p
          B.post c q)
        return "") := by
    rw [hpost hnodep, hpost hnodeq]
    simp only [bind_assoc, pure_bind]
  obtain ⟨hresult, hsame⟩ := (Backend.post_conjunction hB he hnone).bind (fun _ _ h => h)
    fun _ => inStep_pure ""
  rw [← hpost hnode, ← hboth] at hresult hsame
  rw [lowerBoth_eq (hE _) (hE _), hE]
  exact ⟨hresult, _, _, hsame, rfl, rfl⟩

end

/-- Posting a conjunction of two terms is posting them one after the other, each as a node, in any
session in which no new node was lowered. -/
theorem sameApart_of_conjoined (s : Session α) (w : Workspace α) (he : Term.Conjoined new e p q)
    (hnew : ∀ id ∈ s.lowered, ¬ new id) :
    let one := s.lower w (.constraint (.term e))
    let both := s.lowerBoth w (.constraint (.term p)) (.constraint (.term q))
    both.1 = one.1 ∧ one.2.SameApart new both.2 := by
  obtain ⟨model, config, state⟩ := s
  let c : Context α := ⟨w, model, config⟩
  cases state with
  | recording full state =>
    obtain ⟨hresult, t₁, t₂, hsame, h₁, h₂⟩ := alike_of_inScope
      (E := fun t => ⟨model, config, .recording full t⟩) c ((recordingBackend full).lowerModel c)
      (fun _ _ => rfl) (fun _ hS => inScope_recordingBackend full fun _ _ => hS _) he hnew
    exact ⟨hresult, by rw [h₁, h₂]; exact ⟨rfl, rfl, .recording hsame⟩⟩
  | scip state =>
    obtain ⟨hresult, t₁, t₂, hsame, h₁, h₂⟩ := alike_of_inScope
      (E := fun t => ⟨model, config, .scip t⟩) c (Scip.lowerModel c) (fun _ _ => rfl)
      (fun _ _ => Tolerant.inScope Scip.inScope) he hnew
    exact ⟨hresult, by rw [h₁, h₂]; exact ⟨rfl, rfl, .scip hsame⟩⟩
  | z3 state =>
    obtain ⟨hresult, t₁, t₂, hsame, h₁, h₂⟩ := alike_of_inScope
      (E := fun t => ⟨model, config, .z3 t⟩) c (Z3.lowerModel c) (fun _ _ => rfl)
      (fun _ _ => Tolerant.inScope Z3.inScope) he hnew
    exact ⟨hresult, by rw [h₁, h₂]; exact ⟨rfl, rfl, .z3 hsame⟩⟩
  | cpSat state =>
    obtain ⟨hresult, t₁, t₂, hsame, h₁, h₂⟩ := alike_of_inScope
      (E := fun t => ⟨model, config, .cpSat t⟩) c (CpSat.lowerModel c) (fun _ _ => rfl)
      (fun _ _ => CpSat.inScope) he hnew
    exact ⟨hresult, by rw [h₁, h₂]; exact ⟨rfl, rfl, .cpSat hsame⟩⟩

/-- Posting a conjunction of two operands gives the same result as posting the operands, each as a node,
one after the other, and leaves a session that looks the same and is the same but for what is kept of the
new nodes. It does so in any session that lowered none of them, whatever the operands are and whatever
the session lowered before. -/
theorem post_conjoined {known : List (Term α)} (h : History w known) {x y : Input α}
    (hx : x.IsOperand known) (hy : y.IsOperand known) :
    ∃ e p q w', (do
        let e ← Build.conjoin x y
        let p ← Build.wrap x
        let q ← Build.wrap y
        return (e, p, q)).run.run w = (.ok (e, p, q), w') ∧
      ∀ (s : Session α) (v : Workspace α), (∀ id ∈ s.lowered, ¬ w.Between w' id) →
        let one := s.lower v (.constraint (.term e))
        let both := s.lowerBoth v (.constraint (.term p)) (.constraint (.term q))
        both.1 = one.1 ∧ one.2.LooksLike both.2 ∧ one.2.SameApart (w.Between w') both.2 := by
  obtain ⟨origin, hw, hk⟩ := h.wellFormed
  obtain ⟨hxk, s, hs⟩ := hx
  obtain ⟨hyk, t, ht⟩ := hy
  obtain ⟨e, p, q, w', hrun, he⟩ := Build.runs_conjoined hw (hxk.known hk) (hyk.known hk) hs ht
  refine ⟨e, p, q, w', hrun, fun s v hnew => ?_⟩
  obtain ⟨hresult, hsame⟩ := s.sameApart_of_conjoined v he hnew
  exact ⟨hresult, hsame.looksLike, hsame⟩

end Session

namespace Small

/-- Z3 with the small model lowered into it. -/
def session : Session Exact := (Session.start .z3 false workspace ⟨0⟩ {}).2

/-- The conjunction of the first variable, which needs a wrapper, and the constraint of the small model is
posted in the session as they are. -/
theorem conjunction_posted : History workspace known ∧
    (Input.term (.var ⟨0⟩)).IsOperand known ∧ (Input.term constraint).IsOperand known ∧
    ∃ e p q w', (do
        let e ← Build.conjoin (.term (.var ⟨0⟩)) (.term constraint)
        let p ← Build.wrap (.term (.var ⟨0⟩))
        let q ← Build.wrap (.term constraint)
        return (e, p, q)).run.run workspace = (.ok (e, p, q), w') ∧
      (∀ id ∈ session.lowered, ¬ workspace.Between w' id) ∧
      let one := session.lower workspace (.constraint (.term e))
      let both := session.lowerBoth workspace (.constraint (.term p)) (.constraint (.term q))
      both.1 = one.1 ∧ one.2.LooksLike both.2 ∧ one.2.SameApart (workspace.Between w') both.2 := by
  have hvariable : (Input.term (.var ⟨0⟩)).IsOperand known := ⟨trivial, _, rfl⟩
  have hconstraint : (Input.term constraint).IsOperand known :=
    ⟨by simp [Input.Available, constraint, known], _, rfl⟩
  have hold : ∀ id ∈ session.lowered, id.index < workspace.nextNode := by decide +kernel
  obtain ⟨e, p, q, w', hrun, hposted⟩ := Session.post_conjoined history hvariable hconstraint
  have hnew : ∀ id ∈ session.lowered, ¬ workspace.Between w' id := fun id hid hnew =>
    absurd (hold id hid) (Nat.not_lt.mpr hnew.1)
  exact ⟨history, hvariable, hconstraint, e, p, q, w', hrun, hnew, hposted session workspace hnew⟩

end Small

end DecisionModel
