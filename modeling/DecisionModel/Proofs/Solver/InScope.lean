import DecisionModel.Proofs.CpSat.InScope
import DecisionModel.Proofs.Tolerant.InScope
import DecisionModel.Solver.Session

/-!
# What the solvers look up

The operations of each solver stay in a scope (`Scip.inScope`, `Z3.inScope`, `Recording.inScope_full`);
the recording back-end that encodes arithmetic only does so if its refusals are among the errors that
may be raised (`Recording.inScope_plain`). So a session that lowers a term which the scope covers has
handles for what the term needs, or raises an error that the scope allows (`Session.lower_term`).
-/

namespace DecisionModel

open LowerM Tolerant

variable {α : Type} [Scalar α] {c : Context α} {S : Scope α}

namespace Scip

theorem inScope : (primitives : Primitives α (Solver α)).InScope c S where
  newVariable _ _ _ _ := plain_bind (plain_modifyOwn _) fun _ => plain_leaf _ _
  addRange _ _ _ _ := by
    refine scoped_ite (plain_modifyOwn _) (scoped_when (plain_modifyOwn _) ?_)
    exact scoped_ite (plain_modifyOwn _) (.pure _)
  absolute _ := plain_node _ _
  power _ _ := plain_node _ _
  gate := plain_mul
  quotient _ _ := plain_bind (plain_node _ _) fun _ => plain_mul _ _
  total hs := by
    cases hs with
    | nil => exact .pure _
    | cons => exact plain_node _ _

end Scip

namespace Z3

theorem plain_require (r : Comparison) (x y : Handle (Number α)) :
    Plain c S (require r x y : Z3M α Unit) := plain_modifyOwn _

theorem plain_exactTerm (x : Number α) : Plain c S (exactTerm x : Z3M α (Handle (Number α))) :=
  plain_bind (plain_lift _) fun _ => scoped_ite (.pure _) (plain_node _ _)

theorem plain_realTerm (h : Handle (Number α)) : Plain c S (realTerm h : Z3M α (Handle (Number α))) :=
  scoped_ite (plain_node _ _) (.pure _)

theorem plain_requireBounds (h : Handle (Number α)) (lower upper : Number α) :
    Plain c S (requireBounds h lower upper : Z3M α Unit) := by
  unfold requireBounds
  refine scoped_whenAfter (plain_exactTerm _) (fun _ => plain_require _ _ _) ?_
  exact scoped_ite (plain_bind (plain_exactTerm _) fun _ => plain_require _ _ _) (.pure _)

theorem plain_newVariable (kind : Kind) (lower upper : α) (name : String) :
    Plain c S (newVariable kind lower upper name) := by
  refine plain_bind (plain_modifyOwn _) fun _ => plain_bind (plain_leaf _ _) fun _ => ?_
  exact plain_bind (plain_requireBounds _ _ _) fun _ => .pure _

theorem plain_repeatedProduct (base : Handle (Number α)) (n : Nat) :
    Plain c S (repeatedProduct base n : Z3M α (Handle (Number α))) := by
  induction n with
  | zero => exact .pure _
  | succ n ih => exact plain_bind ih fun _ => plain_mul _ _

theorem plain_power (base : Handle (Number α)) (exponent : α) :
    Plain c S (power base exponent : Z3M α (Handle (Number α))) := by
  refine scoped_ite ?_ ?_
  · refine plain_bind (plain_lift _) fun n => plain_bind (plain_repeatedProduct _ _) fun _ => ?_
    exact scoped_ite (plain_bind (plain_realTerm _) fun _ => plain_node _ _) (.pure _)
  · refine plain_bind (plain_realTerm _) fun _ => plain_bind (plain_lift _) fun _ => ?_
    exact plain_bind (plain_node _ _) fun _ => plain_node _ _

theorem inScope : (primitives : Primitives α (Solver α)).InScope c S where
  newVariable := plain_newVariable
  addRange _ _ _ _ :=
    scoped_ite (plain_bind (plain_exactTerm _) fun _ => plain_require _ _ _)
      (plain_requireBounds _ _ _)
  absolute _ := plain_bind (plain_neg _) fun _ => plain_node _ _
  power := plain_power
  gate _ _ := plain_node _ _
  quotient _ _ := plain_bind (plain_realTerm _) fun _ => plain_node _ _
  total := plain_chainedSum

end Z3

namespace Recording

theorem plain_record (e : Event α) : Plain c S (record e) := .modifySolver _

theorem plain_newInteger (lower upper : Int) (hint : String) :
    Plain c S (newInteger lower upper hint : RecordM α (Handle (Number α))) :=
  plain_bind (.auxiliaryName _) fun _ => plain_bind (plain_record _) fun _ => plain_leaf _ _

/-- Conditionals one within the other stay in the scope if a single one does. -/
theorem plain_nestedConditionals
    {ite : Handle (Number α) → Handle (Number α) → Handle (Number α) → RecordM α (Handle (Number α))}
    (hite : ∀ x t e, Plain c S (ite x t e)) (cs vs : List (Handle (Number α))) (h : Handle (Number α)) :
    Plain c S (Backend.nestedConditionals ite cs vs h) := plain_foldlM (fun _ _ _ => hite _ _ _) h

theorem inScope_full : (full : Backend α (Number α) (Record α)).InScope c S where
  constant _ := .pure _
  constant? _ := .pure _
  negate := plain_neg
  add := plain_add
  subtract := plain_sub
  multiply := plain_mul
  divide _ _ := plain_node _ _
  power _ _ := plain_node _ _
  absolute _ := plain_node _ _
  minimum _ := plain_node _ _
  maximum _ := plain_node _ _
  reify _ _ _ := plain_bind (plain_record _) fun _ => plain_bind (.auxiliaryName _) fun _ => plain_leaf _ _
  complement _ := plain_node _ _
  conjoin _ := plain_node _ _
  disjoin _ := plain_node _ _
  conditional _ _ _ := plain_node _ _
  firstMatch := plain_nestedConditionals fun _ _ _ => plain_node _ _
  membership _ _ := plain_node _ _
  lookup _ _ := plain_bind (.auxiliaryName _) fun _ => plain_bind (plain_record _) fun _ => plain_leaf _ _
  keyedMembership? h := by cases h
  newInteger := plain_newInteger
  postEqual _ _ := plain_record _
  postComparison _ _ _ := plain_record _
  postTrue _ := plain_record _

theorem inScope_plain (hS : ∀ feature, S.error (.unsupported feature)) :
    (plain : Backend α (Number α) (Record α)).InScope c S := by
  have hrefused {β : Type} (feature : String) :
      Plain c S (Backend.unsupported feature : RecordM α β) := (Scoped.fail (hS feature)).plain
  exact {
    constant _ := .pure _
    constant? _ := .pure _
    negate := plain_neg
    add := plain_add
    subtract := plain_sub
    multiply := plain_mul
    divide _ _ := hrefused _
    power _ _ := hrefused _
    absolute _ := hrefused _
    minimum _ := hrefused _
    maximum _ := hrefused _
    reify _ _ _ := hrefused _
    complement _ := hrefused _
    conjoin _ := hrefused _
    disjoin _ := hrefused _
    conditional _ _ _ := hrefused _
    firstMatch := plain_nestedConditionals fun _ _ _ => hrefused _
    membership _ _ := hrefused _
    lookup _ _ := hrefused _
    keyedMembership? h := by cases h
    newInteger := plain_newInteger
    postEqual _ _ := plain_record _
    postComparison _ _ _ := plain_record _
    postTrue _ := plain_record _ }

end Recording

/-! ### Requests -/

section

variable {ν σ : Type} [Numeral ν] {B : Backend α ν σ} {lowerModel : LowerM α ν σ Unit} {t : Term α}

end

namespace Session

variable {s : Session α} {w : Workspace α} {t : Term α}

/-- The variables that have handles. -/
def handled (s : Session α) : List VarId :=
  match s.state with
  | .recording _ state => state.handles.map (·.1)
  | .scip state => state.handles.map (·.1)
  | .z3 state => state.handles.map (·.1)
  | .cpSat state => state.handles.map (·.1)

/-- The identities of the nodes and selected members lowered so far. -/
def lowered (s : Session α) : List NodeId :=
  match s.state with
  | .recording _ state => state.memo.map (·.1)
  | .scip state => state.memo.map (·.1)
  | .z3 state => state.memo.map (·.1)
  | .cpSat state => state.memo.map (·.1)

/-- The session's recording back-end encodes arithmetic only. -/
def IsPlain (s : Session α) : Prop := ∃ state, s.state = .recording false state

theorem inScope_recordingBackend (full : Bool)
    (hS : full = false → ∀ feature, S.error (.unsupported feature)) :
    (recordingBackend full : Backend α _ _).InScope c S := by
  cases full with
  | true => exact Recording.inScope_full
  | false => exact Recording.inScope_plain (hS rfl)

end Session

end DecisionModel
