import DecisionModel.Evaluation.Basic
import DecisionModel.Proofs.Evaluation.Extension
import DecisionModel.Proofs.Workspace.Dependency

/-!
# Readings that extend each other

Two assignments of one model are compared. The outcome of a term under the second one extends that
under the first one if this holds of the variables that the term reads (`argument_extends`). It holds
of a variable because of its stored value, or else because of its definition (`readVariable_extends`).

What is needed of the nodes of a term is collected in `NodeAllowed`, and what is needed of a variable
in `VariableAllowed`. Definitions are followed to a bounded depth, and the bound is not met if the
depth exceeds the rank of the variable.
-/

namespace DecisionModel.Assignment

open Outcome

variable {α : Type} [Scalar α] {A : Allowed α} {w : Workspace α} {a a' : Assignment α}
  {read read' : VarId → Partially α (Reading α)} {t : Term α}

/-- The assignments are of one model, and a fault of one of its collections is allowed. -/
structure Comparable (A : Allowed α) (w : Workspace α) (a a' : Assignment α) : Prop where
  regular : A.Regular
  model : a'.model = a.model
  lookup {n : Int} {f : Fault} : w.collection a.model n = .ok (.error f) → A.error (.fault f)

/-- The operator has the operands that it reads and no evaluator from outside. A fault of the node's
text is allowed; that of a collection must not occur unless the assignments are the same, since the
text is made even where a value is missing. -/
structure NodeAllowed (A : Allowed α) (w : Workspace α) (a a' : Assignment α) (op : Operator)
    (ts : List (Term α)) : Prop where
  served : op.Served ts.length ∨ A.Malformed
  builtin {name : String} : op = .custom name → a.evaluators name = none ∧ a'.evaluators name = none
  text {f : Fault} : op.write (w.pieces ts) = .error f → A.error (.fault f)
  written : op = .collection → a' = a ∨ ∃ s, op.write (w.pieces ts) = .ok s

/-- No named operator that the term involves is evaluated from outside. -/
def UsesBuiltin (a : Assignment α) (w : Workspace α) (t : Term α) : Prop :=
  ∀ r, w.Involves t r → ∀ id name ts, Term.Within (.node id (.custom name) ts) r →
    a.evaluators name = none

/-- Every node of the term is allowed. -/
def TermAllowed (A : Allowed α) (w : Workspace α) (a a' : Assignment α) (t : Term α) : Prop :=
  ∀ id op ts, Term.Within (.node id op ts) t → NodeAllowed A w a a' op ts

theorem TermAllowed.within {s : Term α} (h : TermAllowed A w a a' t) (hs : Term.Within s t) :
    TermAllowed A w a a' s := fun id op ts hw => h id op ts (hw.trans hs)

theorem readCollection_extends (hc : Comparable A w a a') {key key' : Partially α (Reading α)}
    (h : Extends A key key') :
    Extends A (a.readCollection w key) (a'.readCollection w key') := by
  refine extends_andThen h fun x _ => ?_
  rw [hc.model]
  rcases hround : (Scalar.exact x.value).round with f | n
  · exact extends_error (hc.regular.rounding (Operator.isRounding_of_round hround))
  · dsimp only
    rcases hxs : w.collection a.model n with e | f | xs
    · exact extends_error (hc.regular.undefined rfl)
    · exact extends_error (hc.lookup hxs)
    · exact extends_some xs

theorem readMember_extends (hA : A.Regular) {f : FamilyId} {index index' : Partially α (Reading α)}
    (hi : Extends A index index') (hm : ∀ v ∈ w.members f, Extends A (read v) (read' v)) :
    Extends A (readMember w read f index) (readMember w read' f index') := by
  refine extends_andThen hi fun x _ => ?_
  rcases hround : (Scalar.exact x.value).round with e | n
  · exact extends_error (hA.rounding (Operator.isRounding_of_round hround))
  · dsimp only
    split
    · rw [List.getElem?_eq_getElem (by omega)]
      exact hm _ (List.getElem_mem _)
    · exact extends_error (hA.undefined rfl)

/-- The outcome of a term is the same wherever it stands. -/
theorem ofReading_argument (p q : Option Place) (t : Term α) :
    ofReading ((a.argument w read p t).value ()) = ofReading ((a.argument w read q t).value ()) := by
  cases t with
  | node id op ts => simp only [argument]
  | _ => rfl

/-- A term with a value has a reading with this value wherever it stands. -/
theorem exists_reading {x : α} (p q : Option Place)
    (h : ofReading ((a.argument w read p t).value ()) = .ok (some x)) :
    ∃ r, (a.argument w read q t).value () = .ok (some r) ∧ r.value = x := by
  rw [ofReading_argument p q] at h
  rcases hread : (a.argument w read q t).value () with e | _ | r <;> rw [hread] at h <;> cases h
  exact ⟨r, rfl, rfl⟩

theorem value_node (a : Assignment α) (w : Workspace α) (read : VarId → Partially α (Reading α))
    (p : Option Place) (id : NodeId) (op : Operator) (ts : List (Term α)) :
    (a.argument w read p (.node id op ts)).value () =
      op.evaluate a.custom (fun _ => op.write (w.pieces ts)) (a.arguments w read id 0 ts) := by
  simp only [argument]
  split <;> rfl

theorem getElem?_arguments (id : NodeId) (k : Nat) (ts : List (Term α)) (j : Nat) :
    (a.arguments w read id k ts)[j]? = ts[j]?.map (a.argument w read (some (.constant id (k + j)))) := by
  induction ts generalizing k j with
  | nil => rfl
  | cons t ts ih =>
    cases j with
    | zero => rfl
    | succ j =>
      rw [arguments, List.getElem?_cons_succ, List.getElem?_cons_succ, ih, Nat.add_right_comm, Nat.add_assoc]

/-- The references to collections among operands are the nodes that are made for them. -/
theorem collection_argument (p : Option Place) (t : Term α) :
    (a.argument w read p t).collection.isSome = t.isCollection := by
  cases t with
  | node id op ts =>
    by_cases h : op = .collection
    · subst h; rfl
    · simp [argument, h, Term.isCollection, Term.operator?]
  | _ => rfl

theorem soleCollection_arguments {id : NodeId} {k : Nat} {ts : List (Term α)}
    (h : ∀ t, ts = [t] → t.isCollection = false) :
    Argument.soleCollection? (a.arguments w read id k ts) = none := by
  match ts with
  | [] => rfl
  | [t] =>
    have hn : (a.argument w read (some (.constant id k)) t).collection.isSome = t.isCollection :=
      collection_argument _ t
    rw [h t rfl] at hn
    simpa [arguments, Argument.soleCollection?] using hn
  | _ :: _ :: _ => rfl

theorem length_arguments (id : NodeId) (k : Nat) (ts : List (Term α)) :
    (a.arguments w read id k ts).length = ts.length := by
  induction ts generalizing k with
  | nil => rfl
  | cons t ts ih => rw [arguments, List.length_cons, List.length_cons, ih]

theorem argument_extends (hc : Comparable A w a a') (ht : TermAllowed A w a a' t)
    (hr : ∀ v ∈ w.reads t, Extends A (read v) (read' v)) (hsame : a' = a → read' = read)
    (p : Option Place) : Argument.Extends A (a.argument w read p t) (a'.argument w read' p t) := by
  induction t using Term.induction generalizing p with
  | const x => exact ⟨extends_some _, .none⟩
  | var v => exact ⟨hr v (Workspace.mem_reads.mpr (.inl (by simp [Term.mentions]))), .none⟩
  | selected id f i =>
    have hi : i ∈ w.reads (.selected id f i) := Workspace.mem_reads.mpr (.inl (by simp [Term.mentions]))
    refine ⟨readMember_extends hc.regular (hr i hi) fun v hv => hr v ?_, .none⟩
    exact Workspace.mem_reads.mpr (.inr ⟨f, by simp [Term.mentions], hv⟩)
  | node id op ts ih =>
    have hnode := ht id op ts (.refl _)
    have hargs : ∀ k (us : List (Term α)), (∀ u ∈ us, u ∈ ts) →
        Argument.ExtendsAll A (a.arguments w read id k us) (a'.arguments w read' id k us) := by
      intro k us hus
      induction us generalizing k with
      | nil => exact .nil
      | cons u us ihs =>
        have hu : Term.Within u (.node id op ts) := .of_mem (hus u List.mem_cons_self)
        refine .cons (ih u (hus u List.mem_cons_self) (ht.within hu)
          (fun v hv => hr v (Workspace.reads_of_within hu hv)) _) ?_
        exact ihs (k + 1) fun x hx => hus x (List.mem_cons_of_mem u hx)
    have hall := hargs 0 ts fun _ h => h
    have hlen : (a.arguments w read id 0 ts).length = ts.length := length_arguments id 0 ts
    have hvalue : Extends A
        (op.evaluate a.custom (fun _ => op.write (w.pieces ts)) (a.arguments w read id 0 ts))
        (op.evaluate a'.custom (fun _ => op.write (w.pieces ts)) (a'.arguments w read' id 0 ts)) := by
      refine Operator.evaluate_extends hc.regular (fun name hop => ?_) (fun _ => hnode.text)
        (hlen ▸ hnode.served) hall
      obtain ⟨h, h'⟩ := hnode.builtin hop
      simp [custom, h, h']
    simp only [argument]
    split
    · rename_i hop
      subst hop
      refine ⟨hvalue, .some ⟨?_, rfl, fun hf => ⟨hnode.text hf, ?_⟩⟩⟩
      · refine readCollection_extends hc (Argument.nth_extends hall ?_)
        rw [hlen]
        exact hnode.served.imp_right (·.operand)
      · rcases hnode.written rfl with rfl | ⟨s, hs⟩
        · rw [hsame rfl]
        · cases hf.symm.trans hs
    · exact ⟨hvalue, .none⟩

/-- What the law for `A` needs of a variable. A stored value is the same in the second assignment. A
variable without one has none there either unless it has no value at all, which has to be allowed. -/
structure VariableAllowed (A : Allowed α) (w : Workspace α) (a a' : Assignment α) (v : VarId) :
    Prop where
  stored {x : α} : a.stored v = some x → a'.stored v = some x
  undeclared : a.stored v = none → w.findVariable v = none → A.missing
  defined {t : Term α} : a.stored v = none → w.definition? v = some t →
    a'.stored v = none ∧ TermAllowed A w a a' t
  fixed {d : Variable α} : a.stored v = none → w.findVariable v = some d → d.definition = none →
    d.isFixed = true → a'.stored v = none
  free {d : Variable α} : a.stored v = none → w.findVariable v = some d → d.definition = none →
    d.isFixed = false → A.missing

/-- Definitions are followed deep enough for the variable, or meeting the bound is allowed. -/
def DeepEnough (A : Allowed α) (w : Workspace α) (depth : Nat) (v : VarId) : Prop :=
  A.error (.fault .circularDefinition) ∨ w.Closed ∧ w.Acyclic ∧ w.rank v < depth

theorem readVariable_extends (hc : Comparable A w a a') {reached : VarId → Prop}
    (hreached : ∀ {v t u}, reached v → w.definition? v = some t → u ∈ w.reads t → reached u)
    (hv : ∀ v, reached v → VariableAllowed A w a a' v) {depth : Nat} {v : VarId} (h : reached v)
    (hd : DeepEnough A w depth v) :
    Extends A (a.readVariable w depth v) (a'.readVariable w depth v) := by
  induction depth generalizing v with
  | zero => exact extends_error (hd.resolve_right fun hd => Nat.not_lt_zero _ hd.2.2)
  | succ depth ih =>
    have hallowed := hv v h
    unfold readVariable
    rcases hs : a.stored v with _ | x
    · rcases hf : w.findVariable v with _ | d
      · exact hallowed.undeclared hs hf
      · dsimp only
        rcases ht : d.definition with _ | t
        · dsimp only
          split
          · rename_i hfixed
            rw [hallowed.fixed hs hf ht hfixed]
            exact extends_some _
          · rename_i hfree
            exact hallowed.free hs hf ht (Bool.not_eq_true _ ▸ hfree)
        · have hdef : w.definition? v = some t := by simp [Workspace.definition?, hf, ht]
          obtain ⟨hs', hterm⟩ := hallowed.defined hs hdef
          rw [hs']
          refine (argument_extends hc hterm (fun u hu => ?_) (fun h => h ▸ rfl) none).value
          refine ih (hreached h hdef hu) (hd.imp_right fun hd => ?_)
          obtain ⟨hclosed, hacyclic, hlt⟩ := hd
          have hdep : w.DependsOn v u := Workspace.dependsOn_iff_reads.mpr ⟨t, hdef, hu⟩
          have hrank := Workspace.rank_lt hclosed hacyclic hdep
          exact ⟨hclosed, hacyclic, by omega⟩
    · rw [hallowed.stored hs]
      exact extends_some _

omit [Scalar α] in
theorem extends_ofReading {o o' : Partially α (Reading α)} (h : Extends A o o') :
    Extends A (Outcome.ofReading o) (Outcome.ofReading o') := by
  obtain e | _ | x := o
  · obtain ⟨he, rfl⟩ := h
    exact ⟨he, rfl⟩
  · exact h
  · obtain rfl := h
    exact extends_some _

/-- The outcome of a term under one assignment extends that under the other. -/
theorem evaluate_extends (hc : Comparable A w a a') (ht : TermAllowed A w a a' t)
    (hv : ∀ v, w.Reaches t v → VariableAllowed A w a a' v)
    (hd : A.error (.fault .circularDefinition) ∨ w.Closed ∧ w.Acyclic) :
    Extends A (a.evaluate w t) (a'.evaluate w t) := by
  refine extends_ofReading (argument_extends hc ht (fun v hr => ?_) (fun h => h ▸ rfl) none).value
  refine readVariable_extends hc (fun hu hs => hu.definition hs) hv (Workspace.reaches_of_reads hr) ?_
  exact hd.imp_right fun ⟨hclosed, hacyclic⟩ =>
    ⟨hclosed, hacyclic, Nat.lt_succ_of_le (w.rank_le v)⟩

/-- The outcome of a term is allowed if its nodes are, and a missing one only if it may be missing or no
variable that it reaches is. -/
theorem evaluate_allowed (hc : Comparable A w a a) (ht : ∀ r, w.Involves t r → TermAllowed A w a a r)
    (hv : ∀ v, w.Reaches t v → a.stored v = none →
      (∃ d, w.findVariable v = some d ∧ (d.isDefined ∨ d.isFixed)) ∨ A.missing)
    (hd : A.error (.fault .circularDefinition) ∨ w.Closed ∧ w.Acyclic) :
    Extends A (a.evaluate w t) (a.evaluate w t) := by
  refine evaluate_extends hc (ht t (.inl rfl)) (fun v hreached => ?_) hd
  constructor
  case stored => exact id
  case undeclared =>
    intro hs hf
    refine (hv v hreached hs).resolve_left ?_
    simp [hf]
  case defined => exact fun hs hdef => ⟨hs, ht _ (.inr ⟨v, hreached, hdef⟩)⟩
  case fixed => exact fun hs _ _ _ => hs
  case free =>
    intro d hs hf hdef hfree
    refine (hv v hreached hs).resolve_left ?_
    simp [hf, Variable.isDefined, hdef, hfree]

end DecisionModel.Assignment
