import DecisionModel.Proofs.Evaluation.Function
import DecisionModel.Proofs.Evaluation.Reading
import DecisionModel.Proofs.Workspace.Text

/-!
# Terms that give integers

`Reader.Means` says that a well-built term is an integer wherever it stands, and `Reader.Defined`
that all of its subterms have values, those on branches not taken among them. Terms are followed
down to their operands: `means_node` reduces a node to its operator, for which `Evaluation.Gives` and
`Evaluation.Function` say what it gives.
-/

namespace DecisionModel.Reader

variable {w : Workspace Exact} {m : ModelId} (r : Reader w m) (origin : NodeId → Option (Term Exact))

/-- The term as an operand at a place. -/
def argument (p : Option Place) (t : Term Exact) : Argument Exact :=
  r.assignment.argument w r.read p t

/-- The operands of a node. -/
def arguments (id : NodeId) (ts : List (Term Exact)) : List (Argument Exact) :=
  r.assignment.arguments w r.read id 0 ts

/-- The term can stand at the place: at none, or at the operand of a node where it is. -/
def Stands (p : Option Place) (t : Term Exact) : Prop :=
  ∀ q, p = some q → ∃ id k op ts,
    q = .constant id k ∧ origin id = some (.node id op ts) ∧ ts[k]? = some t

/-- The term is the integer `n`. -/
def Means (t : Term Exact) (n : ℤ) : Prop :=
  ∀ p, Stands origin p t → r.Gives origin ((r.argument p t).value ()) n

/-- The terms are the integers, one by one. -/
def MeansAll (ts : List (Term Exact)) (ns : List ℤ) : Prop := List.Forall₂ (r.Means origin) ts ns

/-- Every subterm that is not a collection has a value. -/
def Defined (t : Term Exact) : Prop :=
  ∀ s, Term.Within s t → s.isCollection = false → ∃ x, (r.argument none s).value () = .ok (some x)

variable {r origin}

theorem stands_none (t : Term Exact) : Stands origin none t := fun _ h => nomatch h

theorem Means.gives {t : Term Exact} {n : ℤ} (h : r.Means origin t n) :
    r.Gives origin ((r.argument none t).value ()) n := h none (stands_none t)

theorem Means.unique {t : Term Exact} {k n : ℤ} (hm : r.Means origin t k) (hn : r.Means origin t n) :
    k = n := hm.gives.unique hn.gives

theorem Defined.within {s t : Term Exact} (h : r.Defined t) (hs : Term.Within s t) : r.Defined s :=
  fun _ hw hc => h _ (hw.trans hs) hc

theorem Defined.operand {t : Term Exact} {id : NodeId} {op : Operator} {ts : List (Term Exact)}
    (h : r.Defined (.node id op ts)) (ht : t ∈ ts) : r.Defined t := h.within (.of_mem ht)

/-! ### Leaves -/

theorem means_const (n : ℤ) : r.Means origin (.const (.finite n)) n := by
  intro p hp
  refine ⟨⟨.finite n, p⟩, rfl, rfl, ?_⟩
  cases p with
  | none => trivial
  | some q =>
    obtain ⟨id, k, op, ts, rfl, ho, hk⟩ := hp q rfl
    exact ⟨op, ts, ho, hk⟩

theorem means_var {v : VarId} {n : ℤ}
    (h : r.read v = .ok (some ⟨.finite n, some (.stored v)⟩)) : r.Means origin (.var v) n :=
  fun _ _ => ⟨_, h, rfl, h⟩

/-- A selected member is the member at the position that the index variable has. -/
theorem means_selected {id : NodeId} {f : FamilyId} {i v : VarId} {k : ℕ} {n : ℤ}
    (hi : r.read i = .ok (some ⟨.finite (k : ℤ), some (.stored i)⟩))
    (hk : (w.members f)[k]? = some v)
    (hv : r.read v = .ok (some ⟨.finite n, some (.stored v)⟩)) :
    r.Means origin (.selected id f i) n := by
  intro p _
  refine ⟨⟨.finite n, some (.stored v)⟩, ?_, rfl, hv⟩
  have hlt : k < (w.members f).length := (List.getElem?_eq_some_iff.mp hk).1
  simp only [argument, Assignment.argument, Assignment.readMember, hi, Outcome.andThen,
    Scalar.exact_exact, Exact.round_int]
  rw [if_pos ⟨by omega, by omega⟩]
  simp only [Int.toNat_natCast, hk, hv]

/-- The index of a selected member that has a value is a position in the family. -/
theorem position_of_selected {id : NodeId} {f : FamilyId} {i : VarId} {k : ℤ}
    (hd : r.Defined (.selected id f i))
    (hi : r.read i = .ok (some ⟨.finite k, some (.stored i)⟩)) :
    0 ≤ k ∧ k < (w.members f).length := by
  obtain ⟨x, hx⟩ := hd _ (.refl _) rfl
  simp only [argument, Assignment.argument, Assignment.readMember, hi, Outcome.andThen,
    Scalar.exact_exact, Exact.round_int] at hx
  split at hx
  · assumption
  · cases hx

/-! ### Nodes -/

theorem value_node (p : Option Place) (id : NodeId) (op : Operator) (ts : List (Term Exact)) :
    (r.argument p (.node id op ts)).value () =
      op.evaluate r.assignment.custom (fun _ => op.write (w.pieces ts))
        (r.arguments id ts) := r.assignment.value_node w r.read p id op ts

theorem getElem?_arguments (id : NodeId) (k : ℕ) (ts : List (Term Exact)) (j : ℕ) :
    (r.assignment.arguments w r.read id k ts)[j]? =
      ts[j]?.map (r.argument (some (.constant id (k + j)))) := Assignment.getElem?_arguments id k ts j

theorem arguments_gives {id : NodeId} {op : Operator} {all : List (Term Exact)}
    (ho : origin id = some (.node id op all)) {ts : List (Term Exact)} {ns : List ℤ} {k : Nat}
    (hts : all.drop k = ts) (h : r.MeansAll origin ts ns) :
    r.GivesAll origin (r.assignment.arguments w r.read id k ts) ns := by
  induction h generalizing k with
  | nil => exact .nil
  | @cons t n ts ns ht _ ih =>
    have hk : all[k]? = some t := by
      rw [← List.head?_drop, hts]
      rfl
    have hdrop : all.drop (k + 1) = ts := by
      rw [← List.tail_drop, hts]
      rfl
    refine .cons (ht _ fun q hq => ?_) (ih hdrop)
    cases hq
    exact ⟨id, k, op, all, rfl, ho, hk⟩

theorem MeansAll.givesAll {id : NodeId} {op : Operator} {ts : List (Term Exact)} {ns : List ℤ}
    (h : r.MeansAll origin ts ns) (ht : (Term.node id op ts).WellBuilt origin) :
    r.GivesAll origin (r.arguments id ts) ns :=
  arguments_gives (ht.registered (.refl _) rfl) List.drop_zero h

/-- A node is what its operator gives. -/
theorem means_node {id : NodeId} {op : Operator} {ts : List (Term Exact)} {n : ℤ}
    (h : r.Gives origin (op.evaluate r.assignment.custom
      (fun _ => op.write (w.pieces ts)) (r.arguments id ts)) n) :
    r.Means origin (.node id op ts) n := by
  intro p _
  rw [value_node]
  exact h

/-- A named operator is what its fixed meaning gives. -/
theorem means_custom {id : NodeId} {name : String} {ts : List (Term Exact)} {n : ℤ}
    {evaluator : CustomEvaluator Exact} (he : Operator.builtin? name = some evaluator)
    (h : r.Gives origin (evaluator (r.arguments id ts)) n) :
    r.Means origin (.node id (.custom name) ts) n := by
  refine means_node ?_
  simp only [Operator.evaluate, custom_eq, he]
  exact h

/-- A node all of whose subterms have values has one itself. -/
theorem Defined.evaluate {id : NodeId} {op : Operator} {ts : List (Term Exact)}
    (h : r.Defined (.node id op ts)) (hop : op ≠ .collection) :
    ∃ x, op.evaluate r.assignment.custom (fun _ => op.write (w.pieces ts))
      (r.arguments id ts) = .ok (some x) := by
  obtain ⟨x, hx⟩ := h _ (.refl _) (by simp [Term.isCollection, Term.operator?, hop])
  rw [value_node] at hx
  exact ⟨x, hx⟩

theorem Defined.custom {id : NodeId} {name : String} {ts : List (Term Exact)}
    {evaluator : CustomEvaluator Exact} (he : Operator.builtin? name = some evaluator)
    (h : r.Defined (.node id (.custom name) ts)) :
    ∃ x, evaluator (r.arguments id ts) = .ok (some x) := by
  obtain ⟨x, hx⟩ := h.evaluate (by simp)
  simp only [Operator.evaluate, custom_eq, he] at hx
  exact ⟨x, hx⟩

/-! ### Collections -/

theorem collection_argument (p : Option Place) (t : Term Exact) :
    (r.argument p t).collection.isSome = t.isCollection := Assignment.collection_argument p t

theorem soleCollection_arguments {id : NodeId} {k : Nat} {ts : List (Term Exact)}
    (h : ∀ t, ts = [t] → t.isCollection = false) :
    Argument.soleCollection? (r.assignment.arguments w r.read id k ts) = none :=
  Assignment.soleCollection_arguments h

/-- The numbers of a collection, under a key that is an integer. -/
def CollectionAt (w : Workspace Exact) (m : ModelId) (k : ℤ) (xs : List Exact) : Prop :=
  w.collection m k = .ok (.ok xs)

theorem CollectionAt.unique {k : ℤ} {ms ns : List ℤ}
    (hm : CollectionAt w m k (ms.map fun n : ℤ => Exact.finite n))
    (hn : CollectionAt w m k (ns.map fun n : ℤ => Exact.finite n)) : ms = ns := by
  have h := hm.symm.trans hn
  simp only [Except.ok.injEq] at h
  exact List.map_injective_iff.mpr (fun a b hab => by simpa using hab) h

/-- The key is a number that rounds to `k`. -/
def RoundsTo (r : Reader w m) (origin : NodeId → Option (Term Exact)) (key : Term Exact) (k : ℤ) :
    Prop :=
  ∀ p, Stands origin p key → ∃ x, (r.argument p key).value () = .ok (some x) ∧ x.value.round = .ok k

theorem roundsTo_const {x : Exact} {k : ℤ} (h : x.round = .ok k) : r.RoundsTo origin (.const x) k :=
  fun p _ => ⟨⟨x, p⟩, rfl, h⟩

theorem Means.roundsTo {t : Term Exact} {n : ℤ} (h : r.Means origin t n) : r.RoundsTo origin t n := by
  intro p hp
  obtain ⟨x, hx, hv, -⟩ := h p hp
  exact ⟨x, hx, by rw [hv, Exact.round_int]⟩

theorem stands_key {id : NodeId} {key : Term Exact}
    (ht : (Term.node id .collection [key]).WellBuilt origin) :
    Stands origin (some (.constant id 0)) key := by
  rintro q ⟨⟩
  exact ⟨id, 0, _, _, rfl, ht.registered (.refl _) rfl, rfl⟩

theorem readsCollection {id : NodeId} {key : Term Exact} {k : ℤ} {xs : List Exact}
    (ht : (Term.node id .collection [key]).WellBuilt origin) (hk : r.RoundsTo origin key k)
    (hxs : CollectionAt w m k xs) (p : Option Place) :
    ReadsCollection (r.argument p (.node id .collection [key])) xs := by
  obtain ⟨s, hs⟩ := Workspace.termText_ok (w := w) ht
  obtain ⟨x, hx, hround⟩ := hk _ (stands_key ht)
  refine ⟨_, rfl, ?_, s, hs⟩
  simp only [argument] at hx
  simp only [Assignment.readCollection, Assignment.arguments, Argument.nth, List.getElem?_cons_zero,
    hx, Outcome.andThen, Scalar.exact_exact, hround, r.model_eq,
    (show w.collection m k = _ from hxs)]

/-- A collection that could be read was read under a key of the model. -/
theorem collectionAt_of_values {id : NodeId} {key : Term Exact} {xs : List Exact}
    {p : Option Place} {cc : CollectionArgument Exact} {k : ℤ}
    (ht : (Term.node id .collection [key]).WellBuilt origin) (hk : r.RoundsTo origin key k)
    (hcc : (r.argument p (.node id .collection [key])).collection = some cc)
    (h : cc.values () = .ok (some xs)) : CollectionAt w m k xs := by
  obtain ⟨x, hx, hround⟩ := hk _ (stands_key ht)
  cases hcc
  simp only [argument] at hx
  simp only [Assignment.readCollection, Assignment.arguments, Argument.nth, List.getElem?_cons_zero,
    hx, Outcome.andThen, Scalar.exact_exact, hround, r.model_eq] at h
  unfold CollectionAt
  split at h <;> simp_all

/-- A collection is stored under a key of the model. -/
theorem key_of_collectionAt {k : ℤ} {xs : List Exact} (h : CollectionAt w m k xs) :
    0 ≤ k ∧ k < ((w.findModel m).map (·.keyCount)).getD 0 := by
  unfold CollectionAt Workspace.collection Workspace.collectionAt Workspace.literalsAt at h
  split at h
  · cases h
  · simp only [Workspace.integralKey, Workspace.keyPosition?] at h
    split at h
    · assumption
    · cases h

end DecisionModel.Reader
