import DecisionModel.Proofs.Tolerant.TermFolding

/-!
# Tolerant posting of constant constraints

A constraint that folds is not posted but reported as violated if it does not hold. `Judges` says that
this is so exactly if the constraint evaluates to zero; of a conjunction, each part is judged by
itself (`judges_post`).
-/

namespace DecisionModel.Tolerant

open LowerM Backend Outcome

variable {α σ : Type} [Scalar α] {P : Primitives α σ} {c : Context α} {a : Assignment α}
  {origin : NodeId → Option (Term α)} {I : List (NodeId × Handle (Number α)) → Prop}
  {o : Partially α (Reading α)}

/-- From a memo with the property, a run leaves it with the property, and adds to the constraints that
are reported as violated unless the outcome, if there is one, is not zero. -/
def Judges (I : List (NodeId × Handle (Number α)) → Prop) (m : TolerantM α σ Unit)
    (o : Partially α (Reading α)) : Prop :=
  ∀ ⦃s s'⦄, I s.memo → m.Runs s () s' → I s'.memo ∧ ∃ texts, s'.violated = s.violated ++ texts ∧
    Yields (fun r => texts = [] ↔ Scalar.isZero r.value = false) o

theorem judges_bind {β : Type} {m : TolerantM α σ β} {Q : β → Prop} {f : β → TolerantM α σ Unit}
    (hm : Folds I m Q) (hf : ∀ x, Q x → Judges I (f x) o) : Judges I (m >>= f) o := by
  intro s s' hs hr
  obtain ⟨x, s₁, hx, hr⟩ := runs_bind.mp hr
  obtain ⟨hs₁, hsame, hQ⟩ := hm hs hx
  obtain ⟨hs', texts, hviolated, htexts⟩ := hf x hQ hs₁ hr
  refine ⟨hs', texts, ?_, htexts⟩
  rw [hviolated, hsame]

theorem runs_postFolded {b : Bool} {t : Term α} {s s' : LoweringState (Number α) (Encoding α σ)}
    (h : (postFolded c b t).Runs s () s') :
    s'.memo = s.memo ∧ ∃ texts, s'.violated = s.violated ++ texts ∧ (texts = [] ↔ b = true) := by
  unfold postFolded at h
  cases b with
  | true =>
    obtain ⟨-, rfl⟩ := runs_pure.mp h
    exact ⟨rfl, [], by simp, by simp⟩
  | false =>
    obtain ⟨text, _, htext, hreport⟩ := runs_bind.mp h
    obtain ⟨-, rfl⟩ := runs_lift.mp htext
    obtain ⟨_, _, hrecord, hlog⟩ := runs_bind.mp hreport
    obtain rfl := runs_recordViolated.mp hrecord
    obtain ⟨line, -, rfl⟩ := runs_log.mp hlog
    refine ⟨?_, [text], ?_, by simp⟩ <;> split <;> rfl

theorem judges_postFolded {y : α} {b : Bool} (hy : Agrees y o) (hb : Scalar.isZero y = !b)
    (t : Term α) :
    Judges I (postFolded c b t : TolerantM α σ Unit) o := by
  intro s s' hs hr
  obtain ⟨hmemo, texts, hviolated, htexts⟩ := runs_postFolded hr
  refine ⟨hmemo ▸ hs, texts, hviolated, fun r hr => ?_⟩
  change texts = [] ↔ Scalar.isZero r.value = false
  rw [htexts, ← Scalar.isZero_congr (hy r hr), hb, Bool.not_eq_false']

variable [Scalar.Decisive α]

/-- Posting the parts of a conjunction. -/
theorem judges_postAll {id : NodeId} {k : Nat} {ts : List (Term α)}
    (hts : ∀ t ∈ ts, ∀ p, Judges I (post (backend P) c t)
      ((a.argument c.workspace (a.reads c.workspace) p t).value ())) :
    Judges I (postAll (backend P) c ts)
      (Operator.evaluateAll (a.arguments c.workspace (a.reads c.workspace) id k ts)) := by
  induction ts generalizing k with
  | nil =>
    intro s s' hs hr
    obtain ⟨-, rfl⟩ := runs_pure.mp hr
    refine ⟨hs, [], by simp, yields_of ?_⟩
    exact ⟨fun _ => Scalar.Decisive.isZero_ofBool true, fun _ => rfl⟩
  | cons t ts ih =>
    obtain ⟨ht, hts⟩ := List.forall_mem_cons.mp hts
    intro s s' hs hr
    rw [postAll] at hr
    obtain ⟨_, s₁, hpost, hrest⟩ := runs_bind.mp hr
    obtain ⟨hs₁, first, hfirst, hyields⟩ := ht (some (.constant id k)) hs hpost
    obtain ⟨hs', rest, hviolated, hrests⟩ := ih hts (k := k + 1) hs₁ hrest
    refine ⟨hs', first ++ rest, by rw [hviolated, hfirst, List.append_assoc], ?_⟩
    rw [Assignment.arguments, Operator.evaluateAll]
    refine yields_andThen fun x hx => ?_
    have hempty := hyields x hx
    cases hzero : Scalar.isZero x.value with
    | true =>
      have hne : first ≠ [] := fun h => by simp [hempty.mp h] at hzero
      have hfalse : Scalar.isZero (Scalar.ofBool false : α) = true :=
        Scalar.Decisive.isZero_ofBool false
      refine yields_of (iff_of_false (by simp [hne]) ?_)
      rw [Bool.not_eq_false]
      exact hfalse
    | false =>
      obtain rfl := hempty.mpr hzero
      exact hrests

variable [Scalar.Congruent α] (hmodel : a.model = c.model) {t : Term α}

include hmodel

theorem judges_postHandle (h : Foldable P c a origin t) (p : Option Place) :
    Judges (MemoSound P c a origin) (postHandle (backend P) c t)
      ((a.argument c.workspace (a.reads c.workspace) p t).value ()) := by
  refine judges_bind (folds_translate hmodel h) fun k hk => ?_
  obtain ⟨y, rfl, hy⟩ := hk
  exact judges_postFolded (hy.argument p) (Bool.not_not _).symm t

theorem judges_postComparisonOf {id : NodeId} {k : Comparison} {ts : List (Term α)}
    (h : Foldable P c a origin (.node id (.comparison k) ts)) (p : Option Place) :
    Judges (MemoSound P c a origin) (postComparisonOf (backend P) c k ts (.node id (.comparison k) ts))
      ((a.argument c.workspace (a.reads c.workspace) p (.node id (.comparison k) ts)).value ()) := by
  have hts : ∀ t ∈ ts,
      Folds (MemoSound P c a origin) (Backend.translate (backend P) c t) (FoldsTo c a t) := fun t ht =>
    folds_translate hmodel (h.within (.of_mem ht))
  obtain ⟨s, t, rfl⟩ := h.wellBuilt.shape (.refl _)
  refine judges_bind (folds_nth hts id 0) fun h₀ hx => judges_bind (folds_nth hts id 1) fun h₁ hy => ?_
  obtain ⟨x, rfl, hx⟩ := hx
  obtain ⟨y, rfl, hy⟩ := hy
  rw [Assignment.value_node]
  have hargs : AgreesAll [x, y] (argumentsOf c a id [s, t]) := .cons hx (.cons hy .nil)
  exact judges_postFolded (Operator.agrees_comparison hargs) (Scalar.Decisive.isZero_ofBool _) _

/-- A constant constraint, where it is posted, is reported as violated exactly if it evaluates to
zero. -/
theorem judges_post (h : Foldable P c a origin t) (p : Option Place) :
    Judges (MemoSound P c a origin) (post (backend P) c t)
      ((a.argument c.workspace (a.reads c.workspace) p t).value ()) := by
  induction t using Term.induction generalizing p with
  | const x => exact judges_postHandle hmodel h p
  | var v => exact judges_postHandle hmodel h p
  | selected id f i => exact judges_postHandle hmodel h p
  | node id op ts ih =>
    have hts : ∀ t ∈ ts, ∀ p, Judges (MemoSound P c a origin) (post (backend P) c t)
        ((a.argument c.workspace (a.reads c.workspace) p t).value ()) :=
      fun t ht p => ih t ht (h.within (.of_mem ht)) p
    unfold post
    split
    · intro s s' _ hr
      exact absurd hr runs_fail
    · split
      · rw [Assignment.value_node]
        exact hts _ List.mem_cons_self (some (.constant id 0))
      · exact judges_postHandle hmodel h p
    · rw [Assignment.value_node]
      exact judges_postAll hts
    · exact judges_postComparisonOf hmodel h p
    · exact judges_postHandle hmodel h p

end DecisionModel.Tolerant
