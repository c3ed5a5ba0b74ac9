import DecisionModel.Builder.Expression
import DecisionModel.Proofs.Lowering.Needs

/-!
# Posting a conjunction

A conjunction is posted by posting its operands in turn, and a term that was moved into it contributes
its operands. A term that is no node is posted by itself as a node only, in a wrapper made for it. What
is posted is the same, but for an entry of the memo for the wrapper (`post_wrapped`). The wrapper is new,
so nothing else looks the entry up, and posting a conjunction is posting the two terms that it was made
of (`post_conjunction`).
-/

namespace DecisionModel

variable {α ν σ : Type}

/-- Anything may be raised, and the handles of all variables are taken for granted; what is looked up
are the nodes that `node` holds of, and those that were lowered satisfy `lowered`. -/
def Scope.ofNodes (node lowered : NodeId → Prop) : Scope α where
  error _ := True
  proper _ := trivial
  node := node
  lowered := lowered
  handle _ := True
  assumed _ := False

/-- All nodes but the new ones are looked up. -/
abbrev Scope.hiding (new : NodeId → Prop) : Scope α := .ofNodes (¬ new ·) (fun _ => True)

/-- No node of the term has an identity that `new` holds of. -/
def Term.Avoids (new : NodeId → Prop) (t : Term α) : Prop :=
  ∀ r id, Term.Within r t → r.id? = some id → ¬ new id

/-- The second term is the first one as a node: a node is left as it is, any other term is in a wrapper
with a new identity. -/
inductive Term.Wrapped (new : NodeId → Prop) : Term α → Term α → Prop
  | node {t : Term α} : t.isNode = true → Wrapped new t t
  | wrapper {id : NodeId} {t : Term α} : t.isNode = false → new id →
    Wrapped new t (.node id .wrapper [t])

/-- The first term is a conjunction made of two terms without new nodes, and the others are these two as
nodes, each with a new wrapper of its own. -/
inductive Term.Conjoined (new : NodeId → Prop) : Term α → Term α → Term α → Prop
  | mk {x y p q : Term α} {newx newy : NodeId → Prop} (id : NodeId) : x.Avoids new → y.Avoids new →
    x.Wrapped newx p → y.Wrapped newy q → (∀ id, newx id → new id) → (∀ id, newy id → new id) →
    (∀ id, newx id → ¬ newy id) →
    Conjoined new (.node id .conjunction (Build.spliced .conjunction x ++ Build.spliced .conjunction y)) p q

section

variable {new new' : NodeId → Prop} {t p : Term α} {w : Workspace α}

theorem Scope.covers_ofNodes {node lowered : NodeId → Prop}
    (h : ∀ r id, Term.Within r t → r.id? = some id → node id ∧ lowered id) :
    (Scope.ofNodes node lowered).Covers w t where
  node hr hid := ⟨(h _ _ hr hid).1, fun _ => (h _ _ hr hid).2, fun _ _ _ => trivial⟩
  member _ _ := .inr fun _ => trivial

theorem Scope.covers_hiding (h : t.Avoids new) : (Scope.hiding new).Covers w t :=
  covers_ofNodes fun r id hr hid => ⟨h r id hr hid, trivial⟩

theorem Term.Wrapped.isNode (h : t.Wrapped new p) : p.isNode = true := by
  cases h with
  | node h => exact h
  | wrapper => rfl

theorem Term.Conjoined.isNode {e q : Term α} (h : Term.Conjoined new e p q) :
    e.isNode = true ∧ p.isNode = true ∧ q.isNode = true := by
  obtain ⟨_, _, _, hp, hq⟩ := h
  exact ⟨rfl, hp.isNode, hq.isNode⟩

/-- A term that avoids identities does so as a node, if the wrapper avoids them as well. -/
theorem Term.Wrapped.avoids (h : t.Wrapped new p) (ht : t.Avoids new')
    (hnew : ∀ id, new id → ¬ new' id) : p.Avoids new' := by
  cases h with
  | node => exact ht
  | wrapper _ hid =>
    intro r id hr hr'
    cases hr with
    | refl =>
      cases hr'
      exact hnew _ hid
    | operand hm hr =>
      obtain rfl := List.mem_singleton.mp hm
      exact ht r id hr hr'

/-- In a text, a wrapper of what is no node does not show. -/
theorem Workspace.termText_wrapper [Scalar α] (id : NodeId) (ht : t.isNode = false) :
    w.termText (.node id .wrapper [t]) = w.termText t := by
  have hbracketed : isBracketed t = false := by
    cases t with
    | node => cases ht
    | _ => rfl
  simp only [termText, termTextWith, piecesWith, Operator.write, Piece.guarded, hbracketed]
  rfl

end

namespace Backend

open LowerM

variable [Scalar α] [Numeral ν] {B : Backend α ν σ} {c : Context α} {S : Scope α}
  {new : NodeId → Prop} {t p x y : Term α} {s s' : LoweringState ν σ}

/-! ### The operands of a conjunction -/

theorem postAll_append (ts us : List (Term α)) :
    postAll B c (ts ++ us) = (do
      postAll B c ts
      postAll B c us) := by
  simp only [postAll_eq_forM]
  exact List.forM_append

/-- What a term contributes to a conjunction is posted by posting the term. -/
theorem postAll_spliced (t : Term α) : postAll B c (Build.spliced .conjunction t) = post B c t := by
  unfold Build.spliced
  split
  · rename_i hop
    cases t with
    | node id op ts =>
      obtain rfl := Option.some.inj hop
      rw [post]
      rfl
    | _ => cases hop
  · rw [postAll, postAll]
    exact bind_pure _

theorem post_spliced (id : NodeId) (x y : Term α) :
    post B c (.node id .conjunction (Build.spliced .conjunction x ++ Build.spliced .conjunction y)) =
      (do
        post B c x
        post B c y) := by
  rw [← postAll_spliced x, ← postAll_spliced y, ← postAll_append, post]

/-! ### The wrapper -/

omit [Scalar α] [Numeral ν] in
/-- A run that is entered in the memo for a node which nothing looks up. -/
theorem inStepAt_memoized_new {id : NodeId} {run : LowerM α ν σ (Handle ν)}
    (hrun : InStep (SameWithin S) run run) (h : SameWithin S s s') (hid : ¬ S.node id)
    (hnone : s'.memo? id = none) : InStepAt (SameWithin S) s s' run (memoized id run) := by
  have hnew : (memoized id run).run.run s' = ((do
      let k ← run
      modify fun s => { s with memo := (id, k) :: s.memo }
      return k) : LowerM α ν σ (Handle ν)).run.run s' := by
    unfold LoweringState.memo? at hnone
    unfold memoized
    rw [run_get_bind, hnone]
  have hreturned : run.run.run s = (run >>= pure).run.run s := by rw [bind_pure]
  unfold InStepAt
  rw [hnew, hreturned]
  refine InStepAt.bind (hrun s s' h) (fun _ _ h => h) fun k t t' h => ⟨rfl, ?_⟩
  refine ⟨by rw [h.eq]; rfl, fun {id'} hnode => ?_⟩
  refine (memo?_cons t' id id' k).trans ?_
  rw [if_neg, h.memo hnode]
  · rfl
  · rintro rfl
    exact hid hnode

theorem translate_wrapper (id : NodeId) (t : Term α) :
    translate B c (.node id .wrapper [t]) = memoized id (translate B c t) := by
  rw [translate]
  rfl

theorem postLowered_wrapper (id : NodeId) (ht : t.isNode = false) :
    postLowered B c (.node id .wrapper [t]) = postLowered B c t := by
  funext k
  simp only [postLowered, postFolded, Workspace.termText_wrapper id ht]

/-- What is posted for a term that is no node is posted for a new wrapper of it. -/
theorem post_wrapped (hB : B.InScope c S) (ht : S.Covers c.workspace t) (hp : t.Wrapped new p)
    (hnew : ∀ id, new id → ¬ S.node id) (hnone : ∀ id, new id → s'.memo? id = none)
    (h : SameWithin S s s') : InStepAt (SameWithin S) s s' (post B c t) (post B c p) := by
  cases hp with
  | node => exact (plain_post hB ht).inStep s s' h
  | @wrapper id _ hnode hid =>
    have hterm : post B c t = postHandle B c t := by
      cases t with
      | node => cases hnode
      | _ =>
        rw [post]
        rintro _ _ _ ⟨⟩
    have hwrapper : post B c (.node id .wrapper [t]) =
        memoized id (translate B c t) >>= postLowered B c t := by
      rw [post, if_neg (by simp [hnode]), postHandle_eq, translate_wrapper, postLowered_wrapper id hnode]
    rw [hterm, hwrapper, postHandle_eq]
    exact (inStepAt_memoized_new (scoped_translate hB ht).inStep h (hnew id hid) (hnone id hid)).bind
      (fun _ _ h => h) fun k => (plain_postLowered hB t k).inStep

/-- Posting a term makes no entries of the memo but for its own nodes. -/
theorem memo?_post (hB : B.InScope c (.ofNodes (fun _ => True) (¬ new ·))) (ht : t.Avoids new)
    (hnone : ∀ id, new id → s.memo? id = none) :
    ∀ id, new id → ((post B c t).run.run s).2.memo? id = none := by
  have hs : (Scope.ofNodes (α := α) (fun _ => True) (¬ new ·)).Fits s :=
    ⟨fun _ => trivial, False.elim, fun _ hm hid => hm (hnone _ hid)⟩
  have hcovers : (Scope.ofNodes (fun _ => True) (¬ new ·)).Covers c.workspace t :=
    Scope.covers_ofNodes fun r id hr hid => ⟨trivial, ht r id hr hid⟩
  intro id hid
  by_contra hm
  exact ((plain_post hB hcovers).sound hs).fits.lowered trivial hm hid

/-- A conjunction made of two terms is posted by posting them, each as a node, but for the entries of the
memo for their wrappers. -/
theorem post_conjunction {e q : Term α} (hB : ∀ S : Scope α, (∀ e, S.error e) → B.InScope c S)
    (he : Term.Conjoined new e p q) (hnone : ∀ id, new id → s.memo? id = none) :
    InStepAt (SameWithin (Scope.hiding (α := α) new)) s s (post B c e) (do
      post B c p
      post B c q) := by
  obtain ⟨id, hx, hy, hp, hq, hnewx, hnewy, hapart⟩ := he
  rename_i x y newx newy
  have hhiding := hB (Scope.hiding new) fun _ => trivial
  have hidden {newz : NodeId → Prop} (hnewz : ∀ id, newz id → new id) :
      ∀ id, newz id → ¬ (Scope.hiding (α := α) new).node id := fun id hid hnode => hnode (hnewz id hid)
  have hpy : p.Avoids newy :=
    hp.avoids (fun r id hr hid hnew => hx r id hr hid (hnewy id hnew)) hapart
  -- The first term enters nothing for the second one's wrapper, which is thus not found either.
  have hfirst := post_wrapped hhiding (Scope.covers_hiding hx) hp (hidden hnewx)
    (fun id hid => hnone id (hnewx id hid)) (SameWithin.refl _ s)
  have hentries := memo?_post (hB (.ofNodes (fun _ => True) (¬ newy ·)) fun _ => trivial) hpy
    fun id hid => hnone id (hnewy id hid)
  rw [post_spliced]
  refine InStepAt.bind (R := fun t t' => SameWithin (Scope.hiding new) t t' ∧
    ∀ id, newy id → t'.memo? id = none) ⟨hfirst.1, hfirst.2, hentries⟩ (fun _ _ h => h.1) ?_
  intro _ t t' h
  exact post_wrapped hhiding (Scope.covers_hiding hy) hq (hidden hnewy) h.2 h.1

end Backend

end DecisionModel
