import DecisionModel.Lowering.Readout
import DecisionModel.Proofs.Evaluation.Means
import DecisionModel.Proofs.Lowering.Semantics

/-!
# Faithful back-ends

`Faithful B S c` gathers what the theory of the walk needs of a back-end `B` with the semantics `S`:
that points agreeing on the variables made so far cannot be told apart, that its numbers are read as
the integers they are, and for each encoding what it computes or posts. Each back-end proves this
once; what is proved of the walk from it holds for all of them.

What a first match chooses is `chosen`, be it among integers, handles or terms.
-/

namespace DecisionModel

variable {ν σ V : Type}

/-- The value beside the first condition that is not zero, or the last argument. -/
def chosen {β : Type} : List (ℤ × β) → β → β
  | [], otherwise => otherwise
  | (condition, value) :: rest, otherwise =>
    if condition = 0 then chosen rest otherwise else value

/-- What is chosen among images is the image of what is chosen. -/
theorem map_chosen {β γ : Type} (f : β → γ) (pairs : List (ℤ × β)) (otherwise : β) :
    f (chosen pairs otherwise) = chosen (pairs.map (Prod.map id f)) (f otherwise) := by
  induction pairs with
  | nil => rfl
  | cons p pairs ih =>
    obtain ⟨condition, x⟩ := p
    simp only [chosen, List.map_cons, Prod.map, id]
    split
    · exact ih
    · rfl

/-- What is chosen is one of the values. -/
theorem chosen_mem {β : Type} (conditions : List ℤ) (values : List β) (otherwise : β) :
    chosen (conditions.zip values) otherwise ∈ otherwise :: values := by
  induction conditions generalizing values with
  | nil => exact List.mem_cons_self
  | cons c conditions ih =>
    cases values with
    | nil => exact List.mem_cons_self
    | cons x values =>
      simp only [List.zip_cons_cons, chosen]
      split
      · rcases List.mem_cons.mp (ih values) with h | h <;> simp [h]
      · simp

/-- Nested conditionals compute the first match. -/
theorem Semantics.computes_nestedConditionals {α : Type} {S : Semantics ν σ V}
    {ite : Handle ν → Handle ν → Handle ν → LowerM α ν σ (Handle ν)}
    (hite : ∀ x y z, S.Computes (ite x y z) [x, y, z]
      (fun ρ n => n = if S.int ρ x = 0 then S.int ρ z else S.int ρ y) fun _ => True)
    (conditions values : List (Handle ν)) (otherwise : Handle ν) :
    S.Computes (Backend.nestedConditionals ite conditions values otherwise)
      (conditions ++ values ++ [otherwise])
      (fun ρ n => n = chosen ((conditions.map (S.int ρ)).zip (values.map (S.int ρ)))
        (S.int ρ otherwise)) fun _ => True := by
  have hpairs : ∀ ps : List (Handle ν × Handle ν), S.Computes
      (ps.reverse.foldlM (fun result p => ite p.1 p.2 result) otherwise)
      (ps.map (·.1) ++ ps.map (·.2) ++ [otherwise])
      (fun ρ n => n = chosen (ps.map fun p => (S.int ρ p.1, S.int ρ p.2)) (S.int ρ otherwise))
      fun _ => True := by
    intro ps
    induction ps with
    | nil => exact computes_argument (by simp) fun _ => rfl
    | cons p ps ih =>
      have hstep := (ih.of_subset ((p :: ps).map (·.1) ++ (p :: ps).map (·.2) ++ [otherwise])
        (by simp; tauto)).bind
        (Q := fun ρ n => n = chosen ((p :: ps).map fun p => (S.int ρ p.1, S.int ρ p.2))
          (S.int ρ otherwise))
        (fun r => (hite p.1 p.2 r).of_subset _ (by simp)) fun ρ r n hr hn => by
          rw [hn, hr]
          rfl
      simpa [List.foldlM_append] using hstep
  have hsub : ∀ a ∈ (conditions.zip values).map (·.1) ++ (conditions.zip values).map (·.2) ++
      [otherwise], a ∈ conditions ++ values ++ [otherwise] := by
    intro a ha
    simp only [List.mem_append, List.mem_map, List.mem_singleton] at ha ⊢
    rcases ha with (⟨p, hp, rfl⟩ | ⟨p, hp, rfl⟩) | rfl
    · exact .inl (.inl (List.of_mem_zip hp).1)
    · exact .inl (.inr (List.of_mem_zip hp).2)
    · exact .inr rfl
  refine ((hpairs (conditions.zip values)).of_subset _ hsub).mono fun ρ n hn => ?_
  rw [hn, List.zip_map]
  rfl

/-- The bounds of a variable hold of a number. -/
def Variable.Within (d : Variable Exact) (n : ℤ) : Prop :=
  d.lower.le (.finite n) = true ∧ (Exact.finite n).le d.upper = true

instance (d : Variable Exact) (n : ℤ) : Decidable (d.Within n) := inferInstanceAs (Decidable (_ ∧ _))

namespace LoweringState

/-- All that an encoding may look at is as before, or more. -/
structure SameSolver (s s' : LoweringState ν σ) : Prop where
  solver_eq : s'.solver = s.solver
  violated : s'.violated = [] → s.violated = []
  next_le : s.nextHandle ≤ s'.nextHandle

end LoweringState

/-- What the walk needs of a back-end and its semantics. -/
structure Faithful [Numeral ν] (B : Backend Exact ν σ) (S : Semantics ν σ V) (c : Context Exact) :
    Prop where
  int_congr {G : Set (Handle ν)} {n : Nat} {ρ ρ' : HandleId → V} {h : Handle ν} :
    World G n → h ∈ G → Agree n ρ ρ' → S.int ρ h = S.int ρ' h
  satisfies_congr {G : Set (Handle ν)} {s : LoweringState ν σ} {ρ ρ' : HandleId → V} :
    S.Valid G s → Agree s.nextHandle ρ ρ' → S.Satisfies ρ s.solver → S.Satisfies ρ' s.solver
  tables_congr {G : Set (Handle ν)} {s s' : LoweringState ν σ} :
    s.SameSolver s' → S.Tables G s → S.Tables G s'
  const_noted (t : σ) (x : ν) : S.Noted t (.const x)
  isZero_eq {ρ : HandleId → V} {x : ν} :
    S.Integral ρ (.const x) → Numeral.isZero x = decide (S.int ρ (.const x) = 0)
  holds_eq {ρ : HandleId → V} {x y : ν} (k : Comparison) :
    S.Integral ρ (.const x) → S.Integral ρ (.const y) →
      Numeral.holds k x y = decide (k.Relates (S.int ρ (.const x)) (S.int ρ (.const y)))
  round_eq {ρ : HandleId → V} {x : ν} :
    S.Integral ρ (.const x) → Numeral.round x = .ok (S.int ρ (.const x))
  isNumber_ofInt (n : ℤ) : S.IsNumber (.const (Numeral.ofInt n)) n
  /-- An integral number has one value. -/
  isNumber_const {ρ : HandleId → V} {x : ν} :
    S.Integral ρ (.const x) → S.IsNumber (.const x) (S.int ρ (.const x))
  derives_add (x y : Handle ν) :
    S.Derives (α := Exact) (LowerM.add x y) [x, y] fun ρ n => n = S.int ρ x + S.int ρ y
  derives_sub (x y : Handle ν) :
    S.Derives (α := Exact) (LowerM.sub x y) [x, y] fun ρ n => n = S.int ρ x - S.int ρ y
  derives_mul (x : Handle ν) (k : ℤ) :
    S.Derives (α := Exact) (LowerM.mul x (.const (Numeral.ofInt k))) [x] fun ρ n => n = S.int ρ x * k
  constant {s s' : LoweringState ν σ} {x : Exact} {h : Handle ν} : (S.limited → x.IsInt) →
    (B.constant x).Runs s h s' → s' = s ∧ ∃ n : ℤ, x = .finite n ∧ S.IsNumber h n
  constant? {s s' : LoweringState ν σ} {n : ℤ} {o : Option (Handle ν)} :
    (B.constant? (.finite n)).Runs s o s' → s' = s ∧ ∃ h, o = some h ∧ S.IsNumber h n
  negate (x : Handle ν) : S.Computes (B.negate x) [x] (fun ρ n => n = -S.int ρ x) fun _ => True
  add (x y : Handle ν) :
    S.Computes (B.add x y) [x, y] (fun ρ n => n = S.int ρ x + S.int ρ y) fun _ => True
  subtract (x y : Handle ν) :
    S.Computes (B.subtract x y) [x, y] (fun ρ n => n = S.int ρ x - S.int ρ y) fun _ => True
  multiply (x y : Handle ν) :
    S.Computes (B.multiply x y) [x, y] (fun ρ n => n = S.int ρ x * S.int ρ y) fun _ => True
  divide (x y : Handle ν) : ¬ S.limited → S.Computes (B.divide x y) [x, y]
    (fun ρ n => S.int ρ y ≠ 0 ∧ n * S.int ρ y = S.int ρ x) fun _ => True
  power (x y : Handle ν) : (S.limited → ∃ k : ℕ, S.IsNumber y k) → S.Computes (B.power x y) [x, y]
    (fun ρ n => ∃ k : ℕ, S.int ρ y = k ∧ n = S.int ρ x ^ k) fun _ => True
  absolute (x : Handle ν) : S.Computes (B.absolute x) [x] (fun ρ n => n = |S.int ρ x|) fun _ => True
  minimum (hs : List (Handle ν)) : S.Computes (B.minimum hs) hs
    (fun ρ n => (∃ h ∈ hs, n = S.int ρ h) ∧ ∀ h ∈ hs, n ≤ S.int ρ h) fun _ => True
  maximum (hs : List (Handle ν)) : S.Computes (B.maximum hs) hs
    (fun ρ n => (∃ h ∈ hs, n = S.int ρ h) ∧ ∀ h ∈ hs, S.int ρ h ≤ n) fun _ => True
  reify (k : Comparison) (x y : Handle ν) : S.Computes (B.reify k x y) [x, y]
    (fun ρ n => n = indicator (k.Relates (S.int ρ x) (S.int ρ y))) fun _ => True
  complement (x : Handle ν) :
    S.Computes (B.complement x) [x] (fun ρ n => n = indicator (S.int ρ x = 0)) fun _ => True
  conjoin (hs : List (Handle ν)) : S.Computes (B.conjoin hs) hs
    (fun ρ n => n = indicator (∀ h ∈ hs, S.int ρ h ≠ 0)) fun _ => True
  disjoin (hs : List (Handle ν)) : S.Computes (B.disjoin hs) hs
    (fun ρ n => n = indicator (∃ h ∈ hs, S.int ρ h ≠ 0)) fun _ => True
  conditional (x y z : Handle ν) : S.Computes (B.conditional x y z) [x, y, z]
    (fun ρ n => n = if S.int ρ x = 0 then S.int ρ z else S.int ρ y) fun _ => True
  firstMatch (conditions values : List (Handle ν)) (otherwise : Handle ν) :
    S.Computes (B.firstMatch conditions values otherwise) (conditions ++ values ++ [otherwise])
      (fun ρ n => n = chosen ((conditions.map (S.int ρ)).zip (values.map (S.int ρ)))
        (S.int ρ otherwise)) fun _ => True
  membership (x : Handle ν) (hs : List (Handle ν)) :
    S.Computes (B.membership x (hs.map some)) (x :: hs)
      (fun ρ n => n = indicator (∃ h ∈ hs, S.int ρ x = S.int ρ h)) fun _ => True
  /-- The index has to be one of the positions. -/
  lookup (index : Handle ν) (entries : List (ℤ × Handle ν)) :
    S.Computes (B.lookup index entries) (index :: entries.map (·.2))
      (fun ρ n => ∃ e ∈ entries, S.int ρ index = e.1 ∧ n = S.int ρ e.2)
      fun ρ => ∃ e ∈ entries, S.int ρ index = e.1
  /-- Membership of a variable under one of the keys from `first` to `last`. -/
  keyedMembership {key h : Handle ν} {first last : ℤ} {v : VarId}
      {encode : LowerM Exact ν σ (Handle ν)} {G : Set (Handle ν)} {s s' : LoweringState ν σ} :
    first ≤ last →
    B.keyedMembership? c key (Backend.keyRange first last) v = some encode →
    S.Valid G s → S.Usable G s key →
    (∀ hv, s.handle? v = some hv → S.Usable G s hv ∧ ∀ ρ, S.Admits ρ s →
      ∀ d, c.workspace.findVariable v = some d → S.Fits d (S.int ρ hv)) →
    encode.Runs s h s' → ∃ hv, s.handle? v = some hv ∧ ∃ G', S.Step G s G' s' ∧ S.Usable G' s' h ∧
      (∀ ρ, S.Admits ρ s' → first ≤ S.int ρ key ∧ S.int ρ key ≤ last ∧
        ∃ xs, Reader.CollectionAt c.workspace c.model (S.int ρ key) xs ∧
          S.int ρ h = indicator (∃ x ∈ xs, x = .finite (S.int ρ hv))) ∧
      S.Extends s s' fun ρ => first ≤ S.int ρ key ∧ S.int ρ key ≤ last
  createVariable {G : Set (Handle ν)} {s s' : LoweringState ν σ} {h : Handle ν}
      {d : Variable Exact} : (S.limited → d.kind ≠ .real) → S.Valid G s →
    (B.createVariable d).Runs s h s' → ∃ G', S.Step G s G' s' ∧ S.Usable G' s' h ∧
      (∀ ρ, S.Admits ρ s' → S.Fits d (S.int ρ h)) ∧ ∀ n, S.Allowed d n → S.Reaches s s' h n
  /-- The members of a sequence have values from one to their number, and any permutation of these
  values can be taken. -/
  createSequence {G : Set (Handle ν)} {s s' : LoweringState ν σ} {name : String}
      {members : List String} {hs : List (Handle ν)} : S.Valid G s →
    (B.createSequence name members).Runs s hs s' → hs.length = members.length ∧
      ∃ G', S.Step G s G' s' ∧ (∀ h ∈ hs, S.Usable G' s' h) ∧
      (∀ ρ, S.Admits ρ s' → ∀ h ∈ hs, 1 ≤ S.int ρ h ∧ S.int ρ h ≤ members.length) ∧
      ∀ ns : List ℤ, ns.Perm ((List.range members.length).map fun i : ℕ => (i : ℤ) + 1) →
        ∀ ρ, S.Calm s'.solver → S.Admits ρ s → ∃ ρ', Agree s.nextHandle ρ ρ' ∧ S.Admits ρ' s' ∧
          hs.map (S.int ρ') = ns
  newInteger {G : Set (Handle ν)} {s s' : LoweringState ν σ} {first last : ℤ} {hint : String}
      {h : Handle ν} : S.Valid G s → (B.newInteger first last hint).Runs s h s' →
    ∃ G', S.Step G s G' s' ∧ S.Usable G' s' h ∧
      (∀ ρ, S.Admits ρ s' → first ≤ S.int ρ h ∧ S.int ρ h ≤ last) ∧
      ∀ n, first ≤ n → n ≤ last → S.Reaches s s' h n
  postEqual (x y : Handle ν) : S.Posts (B.postEqual x y) [x, y]
    (fun ρ => S.int ρ x = S.int ρ y) fun ρ => S.int ρ x = S.int ρ y
  /-- Of two numbers no comparison is posted. -/
  postComparison (k : Comparison) (x y : Handle ν) : x.number? = none ∨ y.number? = none →
    S.Posts (B.postComparison k x y) [x, y]
      (fun ρ => k.Relates (S.int ρ x) (S.int ρ y)) fun ρ => k.Relates (S.int ρ x) (S.int ρ y)
  postTrue (x : Handle ν) : x.number? = none → S.Posts (B.postTrue x) [x]
    (fun ρ => S.Accepts (S.int ρ x)) fun ρ => S.Accepts (S.int ρ x)
  postDefinition (name : String) (x y : Handle ν) : S.Posts (B.postDefinition name x y) [x, y]
    (fun ρ => S.int ρ x = S.int ρ y) fun ρ => S.int ρ x = S.int ρ y
  postObjective (sense : Sense) (x : Handle ν) : S.Posts (B.postObjective sense x) [x]
    (fun _ => True) fun _ => True
  /-- Every value with which a handle is accepted is true. -/
  accepts {n : ℤ} : S.Accepts n → n ≠ 0
  /-- A sequence member, declared with the bounds of the permutation, fits its declaration. -/
  fits_member {d : Variable Exact} {n : ℤ} : d.kind = .integer → d.Within n → S.Fits d n

end DecisionModel
