import DecisionModel.Proofs.Tolerant.InlineFolding

/-!
# Tolerant lowering of constant terms

A term without variables folds to its value (`folds_translate`), by induction over the term: its operands
are closed as well, and a handle in the memo was folded from the same term (`MemoSound`). A collection
is listed only if its key is a constant, since a folded key has no list of values (`folds_keyDomain`).
-/

namespace DecisionModel

open LowerM Backend Outcome

variable {α σ : Type} [Scalar α] {a : Assignment α} {t : Term α} {ts : List (Term α)}

omit [Scalar α] in
/-- A term without variables is a constant or a node. -/
theorem Term.const_or_node (h : t.mentions = []) :
    (∃ x, t = .const x) ∨ ∃ id op ts, t = .node id op ts := by
  cases t with
  | const x => exact .inl ⟨x, rfl⟩
  | var v => simp [mentions] at h
  | selected id f i => simp [mentions] at h
  | node id op ts => exact .inr ⟨id, op, ts, rfl⟩

/-- The operand that refers to the collection under a constant key. -/
theorem Assignment.exists_collection {w : Workspace α} {read : VarId → Partially α (Reading α)}
    (p : Option Place) {id : NodeId} {x : α} {n : Int} {xs : List α} (hn : (Scalar.exact x).round = .ok n)
    (hxs : w.collection a.model n = .ok (.ok xs)) :
    ∃ coll, (a.argument w read p (.node id .collection [.const x])).collection = some coll ∧
      coll.values () = .ok (some xs) := by
  refine ⟨_, rfl, ?_⟩
  change a.readCollection w (.ok (some _)) = _
  unfold readCollection andThen
  dsimp only
  rw [hn]
  dsimp only
  rw [hxs]

namespace Tolerant

variable {P : Primitives α σ} {c : Context α} {I : List (NodeId × Handle (Number α)) → Prop}
  {o : Partially α (Reading α)}

/-! ### Collections -/

/-- A key without variables that is not a constant is refused. -/
theorem folds_keyDomain {β : Type} {Q : β → Prop} {key : Term α} (hkey : key.mentions = [])
    (f : Handle (Number α) × List Int → TolerantM α σ β) :
    Folds I (keyDomain (backend P) c key >>= f) Q := by
  refine folds_bind (Q := fun _ => False) ?_ fun _ h => h.elim
  have hrefused (r : Except Fault String) (e : String → LoweringError α) {β : Type} (Q : β → Prop) :
      Folds I (do fail (e (← lift r)) : TolerantM α σ β) Q :=
    folds_bind (folds_lift r) fun _ _ => folds_fail _
  unfold keyDomain
  cases c.hasLookup with
  | false => exact folds_bind (folds_lift _) fun _ _ => folds_fail_bind _ _
  | true =>
    have hclosed := (Term.within_unwrapped key).closed hkey
    obtain ⟨x, hx⟩ | ⟨id, op, ts, hx⟩ := Term.const_or_node hclosed <;> rw [hx]
    · exact hrefused _ .irreducibleKey _
    · exact hrefused _ .irreducibleKey _

variable {args : List (Argument α)} {coll : CollectionArgument α} {xs : List α}

theorem folds_aggregateValue {name : String} (hname : name ∈ ["sum", "avg", "count", "min", "max"])
    (ho : ∀ f, Operator.builtin? name = some f → o = f args)
    (hcoll : Argument.soleCollection? args = some coll) (hxs : coll.values () = .ok (some xs))
    (key : Int) :
    Folds I (aggregateValue name xs key : TolerantM α σ α) fun y => Agrees y o := by
  simp only [List.mem_cons, List.not_mem_nil, or_false] at hname
  rcases hname with rfl | rfl | rfl | rfl | rfl <;> obtain rfl := ho _ rfl
  · exact (folds_lift _).mono fun y hy => Operator.agrees_evaluateSum_collection hcoll hxs hy
  · cases xs with
    | nil => exact folds_fail _
    | cons x xs =>
      refine folds_bind (folds_lift _) fun y hy => folds_pure ?_
      exact Operator.agrees_evaluateAverage_collection hcoll hxs rfl hy
  · exact folds_pure (Operator.agrees_evaluateCount_collection hcoll hxs)
  · cases xs with
    | nil => exact folds_fail _
    | cons x xs => exact folds_pure (Operator.agrees_evaluateLeast_collection hcoll hxs rfl)
  · cases xs with
    | nil => exact folds_fail _
    | cons x xs => exact folds_pure (Operator.agrees_evaluateGreatest_collection hcoll hxs rfl)

variable {container : Term α} (hmodel : a.model = c.model) (hclosed : container.mentions = [])
  (hshape : ∃ id key, container = .node id .collection [key]) (p q : Option Place)

include hmodel hclosed hshape

/-- The key of a collection without variables is a constant, and then the operand reads what lowering
reads, or a node, which is refused. -/
theorem key_of_closed : ∃ key, keyOf c container = (pure (.ok key) : TolerantM α σ _) ∧
    key.mentions = [] ∧
    ((∃ id op ts, key = .node id op ts) ∨ ∃ x, key = .const x ∧ ∀ n xs, (Scalar.exact x).round = .ok n →
      c.workspace.collection c.model n = .ok (.ok xs) → ∃ coll,
        Argument.soleCollection? [a.argument c.workspace (a.reads c.workspace) p container] =
          some coll ∧ coll.values () = .ok (some xs)) := by
  obtain ⟨id, key, rfl⟩ := hshape
  have hkey : key.mentions = [] := Term.Within.closed (.of_mem List.mem_cons_self) hclosed
  refine ⟨key, rfl, hkey, (Term.const_or_node hkey).symm.imp_right fun hx => ?_⟩
  obtain ⟨x, rfl⟩ := hx
  refine ⟨x, rfl, fun n xs hn hxs => ?_⟩
  rw [← hmodel] at hxs
  exact Assignment.exists_collection p hn hxs

theorem folds_lowerAggregate {name : String} (hname : name ∈ ["sum", "avg", "count", "min", "max"])
    (ho : ∀ f, Operator.builtin? name = some f →
      o = f [a.argument c.workspace (a.reads c.workspace) p container]) :
    Folds I (lowerAggregate (backend P) c name container) (Renders o) := by
  obtain ⟨key, hkey, hkeyclosed, ⟨_, _, _, rfl⟩ | ⟨x, rfl, hcoll⟩⟩ :=
    key_of_closed (σ := σ) hmodel hclosed hshape p
  all_goals
    unfold lowerAggregate
    rw [hkey, pure_bind, lift_ok, pure_bind]
  · exact folds_keyDomain hkeyclosed _
  · refine folds_bind (folds_lift _) fun n hn => folds_bind (folds_collection c n) fun xs hxs => ?_
    obtain ⟨coll, hcoll, hvalues⟩ := hcoll n xs hn hxs
    refine folds_bind (folds_aggregateValue hname ho hcoll hvalues n) fun y hy => ?_
    exact folds_pure (renders_scalar hy)

omit hmodel hclosed hshape in
theorem mapM_constants (xs : List α) :
    xs.mapM (backend P).constant = pure (xs.map scalar) ∧
      xs.mapM (backend P).constant? = pure ((xs.map scalar).map some) := by
  induction xs with
  | nil => exact ⟨rfl, rfl⟩
  | cons x xs ih =>
    rw [List.mapM_cons, List.mapM_cons, ih.1, ih.2]
    exact ⟨rfl, rfl⟩

variable {t : Term α} (ht : Folds I (Backend.translate (backend P) c t) (FoldsTo c a t))

include ht

theorem folds_lowerEntry :
    Folds I (lowerEntry (backend P) c container (Backend.translate (backend P) c t))
      (Renders (Operator.evaluateEntry [a.argument c.workspace (a.reads c.workspace) p t,
        a.argument c.workspace (a.reads c.workspace) q container])) := by
  obtain ⟨key, hkey, hkeyclosed, hcoll⟩ := key_of_closed (σ := σ) hmodel hclosed hshape q
  unfold lowerEntry
  rw [hkey, pure_bind]
  refine folds_bind ht fun h hh => ?_
  obtain ⟨y, rfl, hy⟩ := hh
  rw [lift_ok, pure_bind]
  obtain ⟨_, _, _, rfl⟩ | ⟨x, rfl, hcoll⟩ := hcoll
  · exact folds_keyDomain hkeyclosed _
  · refine folds_bind (folds_lift _) fun n hn => folds_bind (folds_collection c n) fun xs hxs => ?_
    obtain ⟨coll, hcoll, hvalues⟩ := hcoll n xs hn hxs
    refine folds_unless fun _ => ?_
    rw [(mapM_constants xs).1, pure_bind]
    refine (folds_element (P := P) _).mono fun h hh => ?_
    obtain ⟨position, hround, hentry⟩ := hh
    rw [Reader.entry?_map] at hentry
    obtain ⟨z, hz, rfl⟩ := Option.map_eq_some_iff.mp hentry
    exact renders_scalar (Operator.agrees_evaluateEntry_collection hvalues hcoll (hy.argument p)
      hround hz)

variable [Scalar.Decisive α]

theorem folds_lowerMembership :
    Folds I (lowerMembership (backend P) c ⟨t, Backend.translate (backend P) c t⟩ container) fun h =>
      ∃ b, h = scalar (Scalar.ofBool b) ∧ Agrees (Scalar.ofBool b : α)
        (Operator.evaluateMembership [a.argument c.workspace (a.reads c.workspace) p t,
          a.argument c.workspace (a.reads c.workspace) q container]) := by
  obtain ⟨key, hkey, hkeyclosed, ⟨_, _, _, rfl⟩ | ⟨x, rfl, hcoll⟩⟩ :=
    key_of_closed (σ := σ) hmodel hclosed hshape q
  all_goals
    unfold lowerMembership
    rw [hkey, pure_bind, lift_ok, pure_bind]
  · exact folds_keyDomain hkeyclosed _
  · refine folds_bind (folds_lift _) fun n hn => folds_bind (folds_collection c n) fun xs hxs => ?_
    obtain ⟨coll, hcoll, hvalues⟩ := hcoll n xs hn hxs
    have hagrees {y : α} (hy : a.AgreesWith c.workspace t y) :=
      Operator.agrees_evaluateMembership_collection hvalues hcoll (hy.argument p)
    have hmember : Folds I (Backend.translate (backend P) c t >>= fun value => do
        (backend P).membership value (← xs.mapM (backend P).constant?)) fun h =>
          ∃ b, h = scalar (Scalar.ofBool b) ∧
          Agrees (Scalar.ofBool b : α) (Operator.evaluateMembership [a.argument c.workspace
            (a.reads c.workspace) p t, a.argument c.workspace (a.reads c.workspace) q container]) := by
      refine folds_bind ht fun h hh => ?_
      obtain ⟨y, rfl, hy⟩ := hh
      rw [(mapM_constants xs).2, pure_bind]
      change Folds I (membership P _ _) _
      rw [membership_scalars]
      exact folds_pure ⟨_, rfl, hagrees hy⟩
    cases t with
    | const y => exact folds_pure ⟨_, rfl, hagrees fun z hz => congrArg Scalar.exact (by cases hz; rfl)⟩
    | _ => exact hmember

end Tolerant

/-! ### Terms -/

/-- The term has no variables, and its sums and tests of membership come out the same however they are
computed: the operands of a sum add up without rounding in between, and no constant in a test is NaN. -/
structure Assignment.Regular (a : Assignment α) (w : Workspace α) (t : Term α) :
    Prop extends a.Constant t where
  adds {id : NodeId} {op : Operator} {ts : List (Term α)} : Term.Within (.node id op ts) t →
    op = .sum ∨ op = .custom "sum" ∨ op = .custom "avg" → ∀ xs,
      List.Forall₂ (fun t x => a.evaluate w t = .ok (some x)) ts xs → Scalar.AddsUp xs
  number {id : NodeId} {op : Operator} {ts : List (Term α)} : Term.Within (.node id op ts) t →
    op = .custom "element_of" ∨ op = .custom "not_element_of" → ∀ x,
      Term.Within (.const x) (.node id op ts) → Scalar.exact x ≠ .nan

theorem Assignment.Regular.within {w : Workspace α} {s : Term α} (h : a.Regular w t)
    (hs : Term.Within s t) : a.Regular w s where
  toConstant := h.toConstant.within hs
  adds hw := h.adds (hw.trans hs)
  number hw := h.number (hw.trans hs)

namespace Tolerant

variable {P : Primitives α σ} {c : Context α} {origin : NodeId → Option (Term α)}
  {I : List (NodeId × Handle (Number α)) → Prop} {id : NodeId} {op : Operator}

/-- What has to hold of a constant term for it to fold to its value. -/
structure Foldable (P : Primitives α σ) (c : Context α) (a : Assignment α)
    (origin : NodeId → Option (Term α)) (t : Term α) : Prop extends a.Regular c.workspace t where
  wellBuilt : t.WellBuilt origin
  firstMatch {id : NodeId} {ts : List (Term α)} : Term.Within (.node id (.custom "n_ary_if") ts) t →
    P.total = chainedSum

theorem Foldable.within {s : Term α} (h : Foldable P c a origin t) (hs : Term.Within s t) :
    Foldable P c a origin s where
  toRegular := h.toRegular.within hs
  wellBuilt := h.wellBuilt.within hs
  firstMatch hw := h.firstMatch (hw.trans hs)

theorem Foldable.benign (h : Foldable P c a origin (.node id op ts)) :
    Benign P op (argumentsOf c a id ts) := by
  have htraced : ∀ arg ∈ argumentsOf c a id ts,
      Yields (Assignment.Traced origin (.node id op ts)) (arg.value ()) := by
    intro arg harg
    obtain ⟨k, hk⟩ := List.mem_iff_getElem?.mp harg
    rw [Assignment.getElem?_arguments, Nat.zero_add] at hk
    obtain ⟨u, hu, rfl⟩ := Option.map_eq_some_iff.mp hk
    exact Assignment.reading_traced h.wellBuilt h.toConstant hu
  constructor
  · intro hop xs hxs
    exact h.adds (.refl _) hop _ (Assignment.evaluate_of_values hxs)
  · intro hop x xs hx hxs x' hx'
    refine Assignment.isSame_eq (Operator.yields_nth htraced 0 x hx) ?_ (h.number (.refl _) hop)
    exact Operator.forall_of_values (fun arg harg => htraced arg (List.mem_of_mem_tail harg)) hxs x' hx'
  · rintro rfl
    exact h.firstMatch (.refl _)

/-- The constant terms that the memo has are numbers there that agree with their values. -/
def MemoSound (P : Primitives α σ) (c : Context α) (a : Assignment α)
    (origin : NodeId → Option (Term α)) (memo : List (NodeId × Handle (Number α))) : Prop :=
  ∀ id h t, (memo.find? (·.1 = id)).map (·.2) = some h → origin id = some t → Foldable P c a origin t →
    FoldsTo c a t h

theorem MemoSound.insert {memo : List (NodeId × Handle (Number α))} (hm : MemoSound P c a origin memo)
    {h : Handle (Number α)} (ht : origin id = some t) (hh : Foldable P c a origin t → FoldsTo c a t h) :
    MemoSound P c a origin ((id, h) :: memo) := by
  intro id' h' t' hfind ht' hfoldable
  by_cases hid : id = id'
  · subst hid
    obtain rfl := Option.some.inj (ht.symm.trans ht')
    simp only [List.find?_cons, decide_true, Option.map_some] at hfind
    obtain rfl := Option.some.inj hfind
    exact hh hfoldable
  · refine hm id' h' t' ?_ ht' hfoldable
    simpa [List.find?_cons, hid] using hfind

/-! ### Nodes -/

variable [Scalar.Congruent α] [Scalar.Decisive α]

section

variable (hts : ∀ t ∈ ts, Folds I (Backend.translate (backend P) c t) (FoldsTo c a t))
    (hmodel : a.model = c.model)

include hts hmodel

theorem folds_lowerCustom {name : String} (h : Foldable P c a origin (.node id (.custom name) ts))
    {o : Partially α (Reading α)}
    (ho : ∀ f, Operator.builtin? name = some f → o = f (argumentsOf c a id ts)) :
    Folds I (lowerCustom (backend P) c name (operandsOf (backend P) c ts)) (Renders o) := by
  have hinline := folds_lowerInline hts id ho (h.wellBuilt.shape (.refl _)) h.benign
  -- a container among the operands is a reference to a collection, with a key that has no variables
  have hcontainer {os : List (Term α)} {container : Term α} (hos : ∀ t ∈ os, t ∈ ts)
      (hsole : Operand.soleCollection? (operandsOf (backend P) c os) = some container) :
      os = [container] ∧ container.mentions = [] ∧
        ∃ id key, container = .node id .collection [key] := by
    obtain ⟨o, ho, rfl, hcollection⟩ := soleCollection?_eq_some hsole
    rw [operandsOf_eq] at ho
    obtain ⟨t, rfl, rfl⟩ := List.map_eq_singleton_iff.mp ho
    have hmem := hos t (List.mem_singleton_self t)
    exact ⟨rfl, Term.Within.closed (.of_mem hmem) h.closed,
      (h.wellBuilt.operand hmem).exists_key hcollection⟩
  have hnone {os : List (Term α)}
      (hsole : Operand.soleCollection? (operandsOf (backend P) c os) = none) :
      ∀ t, os = [t] → t.isCollection = false := by
    rintro t rfl
    simpa [operandsOf, Operand.soleCollection?] using hsole
  unfold lowerCustom
  rcases hsole : Operand.soleCollection? (operandsOf (backend P) c ts) with _ | container
  · dsimp only
    cases ts with
    | nil => exact hinline (fun _ => hnone hsole) fun _ => hnone hsole
    | cons t ts =>
      rw [operandsOf, List.tail_cons]
      rcases htail : Operand.soleCollection? (operandsOf (backend P) c ts) with _ | container
      · exact hinline (fun _ => hnone hsole) fun _ => hnone htail
      · obtain ⟨rfl, hclosed, hshape⟩ := hcontainer (fun _ => List.mem_cons_of_mem t) htail
        have ht := hts t List.mem_cons_self
        have hmember := folds_lowerMembership hmodel hclosed hshape (some (.constant id 0))
          (some (.constant id 1)) ht
        dsimp only
        split
        · obtain rfl := ho _ rfl
          refine hmember.mono fun h hh => ?_
          obtain ⟨b, rfl, hb⟩ := hh
          exact renders_scalar hb
        · obtain rfl := ho _ rfl
          refine folds_bind hmember fun h hh => ?_
          obtain ⟨b, rfl, hb⟩ := hh
          change Folds I (complement P _) _
          rw [complement_scalar, Scalar.Decisive.isZero_ofBool, Bool.not_not]
          exact folds_pure (renders_scalar (Operator.agrees_evaluateNonMembership hb))
        · obtain rfl := ho _ rfl
          exact folds_lowerEntry hmodel hclosed hshape _ _ ht
        · rename_i hmember hnot hat
          refine hinline (fun _ => hnone hsole) fun hname => ?_
          simp only [List.mem_cons, List.not_mem_nil, or_false] at hname
          rcases hname with rfl | rfl | rfl
          · exact absurd rfl hmember
          · exact absurd rfl hnot
          · exact absurd rfl hat
  · obtain ⟨rfl, hclosed, hshape⟩ := hcontainer (fun _ ht => ht) hsole
    dsimp only
    split
    · exact folds_lowerAggregate hmodel hclosed hshape _ ‹_› ho
    · exact hinline (fun hname => absurd hname ‹_›) fun _ t ht =>
        absurd ht.symm (List.cons_ne_nil t [])

theorem folds_lowerNode (h : Foldable P c a origin (.node id op ts))
    (text text' : Unit → Except Fault String) :
    Folds I (lowerNode (backend P) c op text (operandsOf (backend P) c ts))
      (Renders (op.evaluate a.custom text' (argumentsOf c a id ts))) := by
  have hshape := h.wellBuilt.shape (.refl _)
  cases op with
  | wrapper => exact folds_nth hts id 0
  | negation =>
    obtain ⟨t, rfl⟩ := hshape
    refine folds_one hts id fun y hy => folds_pure (renders_scalar ?_)
    exact Operator.agrees_negation (.cons hy .nil)
  | sum =>
    refine folds_chain_renders hts id (folds_binary .add Scalar.add fun _ _ => rfl) fun y ys hys _ => ?_
    exact Operator.agrees_sum hys (h.benign.sum (.inl rfl))
  | difference =>
    refine folds_chain_renders hts id (folds_binary .sub Scalar.sub fun _ _ => rfl) fun y ys hys _ => ?_
    exact Operator.agrees_difference hys
  | product =>
    refine folds_chain_renders hts id (folds_binary .mul Scalar.mul fun _ _ => rfl) fun y ys hys _ => ?_
    exact Operator.agrees_product hys
  | quotient =>
    refine folds_chain_renders hts id (fun x y => folds_divide (P := P)) fun y ys hys hds => ?_
    exact Operator.agrees_quotient hys hds
  | comparison k =>
    obtain ⟨s, t, rfl⟩ := hshape
    refine folds_one hts id fun x hx => folds_one hts id fun y hy => ?_
    change Folds I (pure (scalar (Scalar.ofBool (k.holds x y)))) _
    exact folds_pure (renders_scalar (Operator.agrees_comparison (.cons hx (.cons hy .nil))))
  | complement =>
    obtain ⟨t, rfl⟩ := hshape
    refine folds_one hts id fun y hy => ?_
    change Folds I (complement P _) _
    rw [complement_scalar]
    have hsame := Scalar.Congruent.one_sub_ofBool (α := α) !Scalar.isZero y
    rw [Bool.not_not] at hsame
    have hagrees : AgreesAll [y] (argumentsOf c a id [t]) := .cons hy .nil
    exact folds_pure (renders_scalar fun r hr => hsame.trans (Operator.agrees_complement hagrees r hr))
  | conjunction =>
    refine folds_all hts id fun ys hys => ?_
    change Folds I (conjoin P _) _
    rw [conjoin_scalars]
    exact folds_pure (renders_scalar (Operator.agrees_conjunction hys))
  | disjunction =>
    refine folds_all hts id fun ys hys => ?_
    change Folds I (disjoin P _) _
    rw [disjoin_scalars]
    exact folds_pure (renders_scalar (Operator.agrees_disjunction hys))
  | entry =>
    obtain ⟨container, index, rfl, hcollection⟩ := hshape
    have hcontainer : Term.Within container (.node id .entry [container, index]) :=
      .of_mem List.mem_cons_self
    exact folds_lowerEntry hmodel (hcontainer.closed h.closed)
      ((h.wellBuilt.within hcontainer).exists_key hcollection)
      _ _ (hts index (by simp))
  | custom name =>
    refine folds_lowerCustom hts hmodel h fun f hf => ?_
    dsimp only [Operator.evaluate]
    rw [h.toConstant.custom_eq name rfl, hf]
  | collection => exact folds_bind (folds_lift _) fun _ _ => folds_fail _

end

variable (hmodel : a.model = c.model)

include hmodel in
/-- A constant term folds to a number that agrees with its value. -/
theorem folds_translate (h : Foldable P c a origin t) :
    Folds (MemoSound P c a origin) (Backend.translate (backend P) c t) (FoldsTo c a t) := by
  induction t using Term.induction with
  | const x =>
    refine folds_pure ⟨x, rfl, fun y hy => ?_⟩
    cases hy
    rfl
  | var v => exact absurd h.closed (by simp [Term.mentions])
  | selected id f i => exact absurd h.closed (by simp [Term.mentions])
  | node id op ts ih =>
    have horigin : origin id = some (.node id op ts) := h.wellBuilt.registered (.refl _) rfl
    have hts : ∀ t ∈ ts,
        Folds (MemoSound P c a origin) (Backend.translate (backend P) c t) (FoldsTo c a t) := fun t ht =>
      ih t ht (h.within (.of_mem ht))
    rw [Backend.translate]
    refine folds_memoized (fun memo k hm hk => hm id k _ hk horigin h)
      (fun memo k hm hk => hm.insert horigin fun _ => hk) ?_
    have hnode := folds_lowerNode hts hmodel h (fun _ => op.write (c.workspace.pieces ts))
      fun _ => op.write (c.workspace.pieces ts)
    refine hnode.mono fun k hk => ?_
    obtain ⟨y, rfl, hy⟩ := hk
    refine ⟨y, rfl, fun x hx => ?_⟩
    obtain ⟨r, hr, rfl⟩ := Assignment.exists_reading none none hx
    rw [Assignment.value_node] at hr
    exact hy r hr

end Tolerant

end DecisionModel
