import DecisionModel.Proofs.CpSat.Creation
import DecisionModel.Proofs.Tolerant.Additions
import DecisionModel.Proofs.Tolerant.Response

/-!
# Sequences are permutations

What is made for a sequence of `n` members, and required of it, admits exactly the permutations of the
numbers from one to `n`, each with one choice of values for the variables that are made
(`createSequence_permutations`). For the algebraic solvers these are the members and a square of binary
variables, for CP-SAT the positions that all differ.
-/

namespace DecisionModel

/-- The list is a permutation of the numbers from one to `n`. -/
def IsPermutation (n : ℕ) (ns : List ℤ) : Prop := ns.Perm ((List.range n).map fun i : ℕ => (i : ℤ) + 1)

/-- The points that satisfy what is required give the tuple exactly the permutations of the numbers from
one to `n`, and with each of them the variables made have one choice of values. -/
structure EncodesPermutations {V T : Type} (n : ℕ) (satisfied : (HandleId → V) → Prop)
    (made : List HandleId) (tuple : (HandleId → V) → List T) (number : ℤ → T) : Prop where
  sound {ρ : HandleId → V} : satisfied ρ → ∃ ns, IsPermutation n ns ∧ tuple ρ = ns.map number
  complete {ns : List ℤ} : IsPermutation n ns → ∃ ρ, satisfied ρ ∧ tuple ρ = ns.map number
  unique {ρ ρ' : HandleId → V} : satisfied ρ → satisfied ρ' → tuple ρ = tuple ρ' →
    ∀ id ∈ made, ρ id = ρ' id

/-! ### Squares with a single one in each row and each column -/

namespace Tolerant

open LowerM

variable {σ : Type} {P : Primitives Exact σ} {G G' : Set Expr} {s s' : TolerantState σ} {h : Expr}
  {hs : List Expr} {square : List (List Expr)} {ρ ρ' : HandleId → ℚ} {n : ℕ}

theorem unitRow_succ (n : ℕ) (m : ℤ) : unitRow (n + 1) m = indicator (m = 1) :: unitRow n (m - 1) := by
  rw [unitRow, List.range_succ_eq_map, List.map_cons, List.map_map]
  refine congrArg₂ _ (by simp) (List.map_congr_left fun c _ => indicator_congr ?_)
  push_cast
  omega

/-- Zeros and ones that sum up to zero are all zero. -/
theorem eq_unitRow_zero {row : List ℤ} (hbinary : ∀ b ∈ row, b = 0 ∨ b = 1) (hsum : row.sum = 0) :
    row = unitRow row.length 0 := by
  have hnonneg : ∀ b ∈ row, 0 ≤ b := fun b hb => by rcases hbinary b hb with h | h <;> omega
  refine List.ext_getElem (by simp [unitRow]) fun c hc _ => ?_
  have hzero := List.all_zero_of_le_zero_le_of_sum_eq_zero hnonneg hsum (List.getElem_mem hc)
  simp only [unitRow, List.getElem_map, List.getElem_range, hzero]
  exact (indicator_eq_zero.mpr (by omega)).symm

/-- Zeros and ones that sum up to one are a unit row. -/
theorem eq_unitRow {row : List ℤ} (hbinary : ∀ b ∈ row, b = 0 ∨ b = 1) (hsum : row.sum = 1) :
    ∃ k < row.length, row = unitRow row.length ((k : ℤ) + 1) := by
  induction row with
  | nil => cases hsum
  | cons b row ih =>
    obtain ⟨hb, hrest⟩ := List.forall_mem_cons.mp hbinary
    rw [List.sum_cons] at hsum
    rcases hb with rfl | rfl
    · obtain ⟨k, hk, hrow⟩ := ih hrest (by omega)
      refine ⟨k + 1, by simpa using hk, ?_⟩
      rw [List.length_cons, unitRow_succ, indicator_eq_zero.mpr (by push_cast; omega)]
      push_cast
      rw [add_sub_cancel_right, ← hrow]
    · refine ⟨0, by simp, ?_⟩
      rw [List.length_cons, unitRow_succ, indicator_eq_one.mpr (by simp)]
      simpa using eq_unitRow_zero hrest (by omega)

/-- Numbers from one to `n`, each of them once, are a permutation. -/
theorem isPermutation_of_count {ns : List ℤ} (hrange : ∀ m ∈ ns, ∃ k < n, m = ((k : ℕ) : ℤ) + 1)
    (hcount : ∀ i < n, ns.count ((i : ℤ) + 1) = 1) : IsPermutation n ns := by
  have hnodup : ((List.range n).map fun i : ℕ => (i : ℤ) + 1).Nodup :=
    List.nodup_range.map fun a b h => by simpa using h
  refine List.perm_iff_count.mpr fun m => ?_
  by_cases hm : ∃ k < n, m = ((k : ℕ) : ℤ) + 1
  · obtain ⟨k, hk, rfl⟩ := hm
    rw [hcount k hk, List.count_eq_one_of_mem hnodup]
    exact List.mem_map.mpr ⟨k, List.mem_range.mpr hk, rfl⟩
  · rw [List.count_eq_zero_of_not_mem fun hmem => hm (hrange m hmem),
      List.count_eq_zero_of_not_mem fun hmem => ?_]
    obtain ⟨k, hk, rfl⟩ := List.mem_map.mp hmem
    exact hm ⟨k, List.mem_range.mp hk, rfl⟩

/-- Handles that are tied to a square of binary ones have a permutation for their values, and the square
is the one of this permutation. -/
theorem perm_of_tied (hlen : hs.length = n) (hsquare : square.length = n)
    (hrows : ∀ row ∈ square, row.length = n)
    (hbinary : ∀ row ∈ square, ∀ b ∈ row, (semantics σ).int ρ b = 0 ∨ (semantics σ).int ρ b = 1)
    (htied : ∀ p ∈ hs.zip (square.mapIdx Prod.mk), Tied σ square p ρ) :
    IsPermutation n (hs.map ((semantics σ).int ρ)) ∧
      square.map (fun row => row.map ((semantics σ).int ρ)) =
        (hs.map ((semantics σ).int ρ)).map (unitRow n) := by
  have hplace : ∀ (j : ℕ) (hj : j < hs.length) (hj' : j < square.length), ∃ k < n,
      (semantics σ).int ρ hs[j] = (k : ℤ) + 1 ∧
        square[j].map ((semantics σ).int ρ) = unitRow n ((k : ℤ) + 1) ∧
        ((square.filterMap (·[j]?)).map ((semantics σ).int ρ)).sum = 1 := by
    intro j hj hj'
    have hmem : (hs[j], j, square[j]) ∈ hs.zip (square.mapIdx Prod.mk) := by
      refine List.mem_iff_getElem.mpr ⟨j, by simp [hj, hj'], ?_⟩
      simp
    obtain ⟨hone, hcolumn, hvalue⟩ := htied _ hmem
    have hrow := List.getElem_mem hj'
    obtain ⟨k, hk, hunit⟩ := eq_unitRow (by simpa using hbinary _ hrow) hone
    rw [List.length_map, hrows _ hrow] at hk hunit
    exact ⟨k, hk, hvalue.trans (weighted_of_unitRow hk hunit), hunit, hcolumn⟩
  have hunits : square.map (fun row => row.map ((semantics σ).int ρ)) =
      (hs.map ((semantics σ).int ρ)).map (unitRow n) := by
    refine List.ext_getElem (by simp [hlen, hsquare]) fun j hj hj' => ?_
    simp only [List.length_map] at hj hj'
    obtain ⟨k, -, hvalue, hunit, -⟩ := hplace j hj' hj
    simp only [List.getElem_map]
    rw [hunit, hvalue]
  refine ⟨isPermutation_of_count (fun m hm => ?_) fun i hi => ?_, hunits⟩
  · obtain ⟨h, hh, rfl⟩ := List.mem_map.mp hm
    obtain ⟨j, hj, rfl⟩ := List.getElem_of_mem hh
    obtain ⟨k, hk, hvalue, -⟩ := hplace j hj (by omega)
    exact ⟨k, hk, hvalue⟩
  · obtain ⟨-, -, -, -, hcolumn⟩ := hplace i (by omega) (by omega)
    rw [column_of_unitRows hi hunits, sum_indicator] at hcolumn
    exact_mod_cast hcolumn

/-! ### Algebraic solvers -/

/-- What ties a member to its row and its column is required by ranges. -/
theorem imposes_tied (hP : Documented P) {args row : List Expr} {i : ℕ}
    (hleaf : ∀ a ∈ args, ∃ id name integral, a = .leaf id name integral) (hh : h ∈ args)
    (hsquare : ∀ r ∈ square, ∀ b ∈ r, b ∈ args) (hrow : row ∈ square) (hne : row ≠ [])
    (hcolumn : square.filterMap (·[i]?) ≠ []) :
    Imposes (do
      requireOne P row
      requireOne P (square.filterMap (·[i]?))
      let weighted ← (row.mapIdx Prod.mk).mapM fun (column, b) =>
        LowerM.mul (integer (column + 1)) b
      let channel ← P.total weighted
      constrain P (← LowerM.sub h channel) realZero realZero) args
      (fun ρ => ∀ a ∈ args, (semantics σ).Integral ρ a) (Tied σ square (h, i, row)) := by
  have hcells : ∀ b ∈ square.filterMap (·[i]?), b ∈ args := by
    intro b hb
    obtain ⟨r, hr, hget⟩ := List.mem_filterMap.mp hb
    exact hsquare r hr b (List.mem_of_getElem? hget)
  have hcells' : ∀ b ∈ row, b ∈ args := hsquare row hrow
  refine ((imposes_requireOne hP (fun b hb => hleaf b (hcells' b hb)) hne).mono hcells'
    fun ρ hρ b hb => hρ b (hcells' b hb)).seq
    (((imposes_requireOne hP (fun b hb => hleaf b (hcells b hb)) hcolumn).mono hcells
      fun ρ hρ b hb => hρ b (hcells b hb)).seq ?_)
  intro G s s' hw hmem hr
  obtain ⟨weighted, s₁, hmap, hr⟩ := runs_bind.mp hr
  obtain ⟨channel, s₂, htotal, hr⟩ := runs_bind.mp hr
  obtain ⟨t, s₃, hsub, hconstrain⟩ := runs_bind.mp hr
  have hentries : ∀ q ∈ row.mapIdx Prod.mk, q.2 ∈ args := by
    intro q hq
    obtain ⟨c, hc, rfl⟩ := List.mem_mapIdx.mp hq
    exact hcells' _ (List.getElem_mem hc)
  obtain ⟨G₂, h₂, hchannel, hvalue⟩ := gives_weighted hP (f := fun c : ℕ => (c : ℤ) + 1) hw
    (fun q hq => hmem _ (hentries q hq)) (runs_bind.mpr ⟨weighted, s₁, hmap, htotal⟩)
  obtain ⟨G₃, h₃, ht, htvalue⟩ := gives_sub h₂.world (h₂.subset (hmem h hh)) hchannel hsub
  have hterm : t.number? = none := by
    obtain ⟨id, name, integral, rfl⟩ := hleaf h hh
    exact number?_binary hsub (.inl rfl)
  obtain ⟨G', name, hadds⟩ := adds_constrain hP h₃.world ht hterm hconstrain
  refine ⟨G', _, (h₂.adds.trans h₃.adds).trans hadds, fun ρ hint => ?_⟩
  have hdifference : value ρ t = .finite (((semantics σ).int ρ h : ℤ) -
      ((row.mapIdx Prod.mk).map fun q => ((q.1 : ℤ) + 1) * (semantics σ).int ρ q.2).sum : ℤ) := by
    rw [htvalue, value_eq (hint h hh), hvalue ρ fun q hq => hint _ (hentries q hq),
      Exact.finite_sub, Int.cast_sub]
  simp only [List.append_nil, List.nil_append, List.forall_mem_singleton, Range.Holds, Between,
    hdifference, realZero, exact_real]
  change (Exact.finite 0).le _ = true ∧ Exact.le _ (.finite 0) = true ↔ (semantics σ).int ρ h = _
  rw [Exact.finite_le, Exact.finite_le, decide_eq_true_iff, decide_eq_true_iff]
  norm_cast
  omega

/-- What is made for a sequence, and required of it, admits the permutations. -/
def CreatesPermutations (P : Primitives Exact σ) (name : String) (members : List String)
    (s : TolerantState σ) : Prop :=
  ∃ hs s' cs rs, ((backend P).createSequence name members).Runs s hs s' ∧
    s'.solver.created.toList = s.solver.created.toList ++ cs ∧
    s'.solver.posted.toList = s.solver.posted.toList ++ rs ∧ s'.violated = s.violated ∧
    EncodesPermutations members.length
      (fun ρ => (∀ c ∈ cs, Created.Holds ρ c) ∧ ∀ r ∈ rs, Range.Holds ρ r)
      (cs.filterMap (·.handle.id?)) (fun ρ => hs.map (value ρ)) fun m => .finite m

theorem Responds.createSequence (hP : Responds P) (name : String) (members : List String) :
    Returns (createSequence P name members) := by
  have hone {h : Expr} : Returns (Tolerant.constrain P h realOne realOne) := hP.constrain h rfl rfl
  have hzero {h : Expr} : Returns (Tolerant.constrain P h realZero realZero) :=
    hP.constrain h rfl rfl
  refine returns_bind (returns_mapM fun _ _ => hP.createVariable _ _ _ _) fun hs => ?_
  refine returns_bind (returns_mapM fun _ _ => returns_mapM fun _ _ => hP.newBinary _) fun square => ?_
  refine returns_bind (returns_forM (fun p => ?_) _) fun _ => returns_pure hs
  refine returns_bind (returns_bind (hP.total _) fun _ => hone) fun _ => ?_
  refine returns_bind (returns_bind (hP.total _) fun _ => hone) fun _ => ?_
  refine returns_bind (returns_mapM fun _ _ => returns_binary _ _ _ _) fun _ => ?_
  exact returns_bind (hP.total _) fun _ => returns_bind (returns_binary _ _ _ _) fun _ => hzero

/-- The variables of a sequence are its members and a square of binary ones, and the ranges tie them
together. -/
structure AddsSequence (n : ℕ) (s : TolerantState σ) (hs : List Expr) (square : List (List Expr))
    (s' : TolerantState σ) (cs ds : List (Created Exact)) (rs : List (Range Exact)) : Prop where
  created : s'.solver.created.toList = s.solver.created.toList ++ (cs ++ ds)
  posted : s'.solver.posted.toList = s.solver.posted.toList ++ rs
  violated : s'.violated = s.violated
  length_eq : hs.length = n
  square_length : square.length = n
  row_length : ∀ row ∈ square, row.length = n
  members : cs.map (·.handle) = hs
  cells : ds.map (·.handle) = square.flatten
  free : Free s.nextHandle (hs ++ square.flatten)
  member_kind : ∀ c ∈ cs, c.kind = .integer ∧ c.lower = .finite 1 ∧ c.upper = .finite n
  cell_kind : ∀ c ∈ ds, c.kind = .binary ∧ c.lower = .finite 0 ∧ c.upper = .finite 1
  ranges {ρ : HandleId → ℚ} : (∀ a ∈ hs ++ square.flatten, (semantics σ).Integral ρ a) →
    ((∀ r ∈ rs, Range.Holds ρ r) ↔ ∀ p ∈ hs.zip (square.mapIdx Prod.mk), Tied σ square p ρ)

/-- A member that is tied to the square is tied to a row and to a column of it, both with cells. -/
theorem mem_square (hsquare : square.length = n) (hrows : ∀ row ∈ square, row.length = n)
    {i : ℕ} {row : List Expr} (hp : (h, i, row) ∈ hs.zip (square.mapIdx Prod.mk)) :
    h ∈ hs ∧ row ∈ square ∧ row ≠ [] ∧ square.filterMap (·[i]?) ≠ [] := by
  obtain ⟨hh, hindexed⟩ := List.of_mem_zip hp
  obtain ⟨j, hj, heq⟩ := List.mem_mapIdx.mp hindexed
  obtain ⟨rfl, rfl⟩ := Prod.mk.inj heq
  have hrow := List.getElem_mem hj
  have hcell : j < square[j].length := by rwa [hrows _ hrow, ← hsquare]
  exact ⟨hh, hrow, List.ne_nil_of_length_pos (Nat.zero_lt_of_lt hcell),
    List.ne_nil_of_mem (List.mem_filterMap.mpr ⟨_, hrow, List.getElem?_eq_getElem hcell⟩)⟩

theorem createSequence_adds (hP : Documented P) {name : String} {members : List String}
    (hr : (createSequence P name members).Runs s hs s') :
    ∃ square cs ds rs, AddsSequence members.length s hs square s' cs ds rs := by
  obtain ⟨hs, s₁, hhandles, hr⟩ := runs_bind.mp hr
  obtain ⟨square, s₂, hsquare, hr⟩ := runs_bind.mp hr
  obtain ⟨_, s₃, hties, hr⟩ := runs_bind.mp hr
  obtain ⟨rfl, rfl⟩ := runs_pure.mp hr
  obtain ⟨G₁, cs, h₁, hcs⟩ := makes_mapM (fun h => [h]) (fun member G s h s' hw hr =>
    (makes_variable hP hw hr).imp fun _ hmakes => ⟨_, hmakes, rfl⟩) (World.of_numbers _) hhandles
  obtain ⟨G₂, ds, h₂, hds⟩ := makes_mapM id (fun i G s row s' hw hr => by
    obtain ⟨G', ds, hmakes, hds⟩ := makes_mapM (fun h => [h]) (fun column G s b s' hw hr => by
      obtain ⟨G', name, hmakes⟩ := makes_binary hP hw hr
      exact ⟨G', _, hmakes, rfl⟩) hw hr
    exact ⟨G', ds, hmakes, hds.trans (List.flatMap_singleton' row)⟩) h₁.world hsquare
  rw [List.map_id] at hds
  replace hcs := hcs.trans (List.flatMap_singleton' hs)
  have hlength : hs.length = members.length := length_of_runs_mapM hhandles
  have hrows : ∀ row ∈ square, row.length = members.length := forall_of_runs_mapM (fun i s row s' hr =>
    (length_of_runs_mapM hr).trans List.length_range) hsquare
  have hcount : square.length = members.length := (length_of_runs_mapM hsquare).trans List.length_range
  have hfree : Free s.nextHandle (hs ++ square.flatten) :=
    hcs ▸ hds ▸ h₁.free.append h₂.free h₁.next_le h₁.world h₁.mem
  have hmem : ∀ a ∈ hs ++ square.flatten, a ∈ G₂ := by
    intro a ha
    rcases List.mem_append.mp ha with ha | ha
    · exact h₂.subset (h₁.mem a (hcs ▸ ha))
    · exact h₂.mem a (hds ▸ ha)
  have hties' : Imposes _ (hs ++ square.flatten)
      (fun ρ => ∀ a ∈ hs ++ square.flatten, (semantics σ).Integral ρ a)
      fun ρ => ∀ p ∈ hs.zip (square.mapIdx Prod.mk), Tied σ square p ρ :=
    imposes_forM fun p hp =>
      have hplace := mem_square hcount hrows hp
      imposes_tied hP hfree.leaf (List.mem_append_left _ hplace.1)
        (fun r hr b hb => List.mem_append_right _ (List.mem_flatten_of_mem hr hb)) hplace.2.1
        hplace.2.2.1 hplace.2.2.2
  obtain ⟨G₃, rs, h₃, hrs⟩ := hties' h₂.world hmem hties
  have hadds := (h₁.toAdds.trans h₂.toAdds).trans h₃
  exact ⟨square, cs, ds, rs, by simpa using hadds.created, by simpa using hadds.posted, hadds.violated,
    hlength, hcount, hrows, hcs, hds, hfree, h₁.kind_eq, h₂.kind_eq, hrs _⟩

section

variable {cs ds : List (Created Exact)} {rs : List (Range Exact)}

theorem AddsSequence.cell (h : AddsSequence n s hs square s' cs ds rs) {row : List Expr} {b : Expr}
    (hrow : row ∈ square) (hb : b ∈ row) : ∃ c ∈ ds, c.handle = b :=
  List.mem_map.mp (h.cells ▸ List.mem_flatten.mpr ⟨row, hrow, hb⟩)

theorem AddsSequence.binary (h : AddsSequence n s hs square s' cs ds rs)
    (hρ : ∀ c ∈ cs ++ ds, Created.Holds ρ c) :
    ∀ row ∈ square, ∀ b ∈ row, IsBinary (value ρ b) := by
  intro row hrow b hb
  obtain ⟨c, hc, rfl⟩ := h.cell hrow hb
  have hkind := (hρ c (List.mem_append_right _ hc)).kind
  rwa [(h.cell_kind c hc).1] at hkind

theorem AddsSequence.integral (h : AddsSequence n s hs square s' cs ds rs)
    (hρ : ∀ c ∈ cs ++ ds, Created.Holds ρ c) :
    ∀ a ∈ hs ++ square.flatten, (semantics σ).Integral ρ a := by
  intro a ha
  rcases List.mem_append.mp ha with ha | ha
  · obtain ⟨c, hc, rfl⟩ := List.mem_map.mp (h.members ▸ ha)
    have hkind := (hρ c (List.mem_append_left _ hc)).kind
    rwa [(h.member_kind c hc).1] at hkind
  · obtain ⟨row, hrow, hb⟩ := List.mem_flatten.mp ha
    exact (h.binary hρ row hrow a hb).integral

/-- The members are a permutation, and the square is the one of this permutation. -/
theorem AddsSequence.isPermutation (h : AddsSequence n s hs square s' cs ds rs)
    (hρ : (∀ c ∈ cs ++ ds, Created.Holds ρ c) ∧ ∀ r ∈ rs, Range.Holds ρ r) :
    IsPermutation n (hs.map ((semantics σ).int ρ)) ∧
      square.map (fun row => row.map ((semantics σ).int ρ)) =
        (hs.map ((semantics σ).int ρ)).map (unitRow n) := by
  refine perm_of_tied h.length_eq h.square_length h.row_length (fun row hrow b hb => ?_)
    ((h.ranges (h.integral hρ.1)).mp hρ.2)
  rcases h.binary hρ.1 row hrow b hb with h0 | h1
  · exact .inl (int_eq (by simpa using h0))
  · exact .inr (int_eq (by simpa using h1))

/-- The new variables take any integers for the members, each with its row in the square. -/
theorem AddsSequence.takes (h : AddsSequence n s hs square s' cs ds rs) {ns : List ℤ}
    (hns : ns.length = n) : ∃ ρ : HandleId → ℚ,
      hs.map (value ρ) = (ns.map Int.cast).map Exact.finite ∧
      (∀ row ∈ square, ∀ b ∈ row, IsBinary (value ρ b)) ∧
      square.map (fun row => row.map ((semantics σ).int ρ)) = ns.map (unitRow n) := by
  have hunits : (ns.map (unitRow n)).map List.length = List.replicate n n :=
    List.eq_replicate_iff.mpr ⟨by simpa using hns, by simp [unitRow]⟩
  have hrows : square.map List.length = List.replicate n n :=
    List.eq_replicate_iff.mpr ⟨by simpa using h.square_length, by simpa using h.row_length⟩
  have hcells : (ns.map (unitRow n)).flatten.length = square.flatten.length := by
    rw [List.length_flatten, List.length_flatten, hunits, hrows]
  obtain ⟨ρ, -, hvalues⟩ := h.free.takes (fun _ => 0)
    (ns.map Int.cast ++ (ns.map (unitRow n)).flatten.map Int.cast) (by
      rw [List.length_append, List.length_append, List.length_map, List.length_map, hns, h.length_eq,
        hcells])
  rw [List.map_append, List.map_append] at hvalues
  obtain ⟨hmembers, hsquare⟩ := List.append_inj hvalues (by simp [hns, h.length_eq])
  refine ⟨ρ, hmembers, fun row hrow b hb => ?_, List.eq_iff_flatten_eq.mpr ⟨?_, ?_⟩⟩
  · have hmem : value ρ b ∈ square.flatten.map (value ρ) :=
      List.mem_map_of_mem (List.mem_flatten.mpr ⟨row, hrow, hb⟩)
    rw [hsquare] at hmem
    obtain ⟨q, hq, hvalue⟩ := List.mem_map.mp hmem
    obtain ⟨m, hm, rfl⟩ := List.mem_map.mp hq
    obtain ⟨unit, hunit, hm⟩ := List.mem_flatten.mp hm
    obtain ⟨k, -, rfl⟩ := List.mem_map.mp hunit
    obtain ⟨c, -, rfl⟩ := List.mem_map.mp hm
    rw [← hvalue]
    rcases indicator_cases (p := k = (c : ℤ) + 1) with h0 | h1
    · exact .inl (by simp [h0])
    · exact .inr (by simp [h1])
  · rw [← List.map_flatten]
    exact map_int_eq hsquare
  · rw [hunits, ← hrows, List.map_map]
    exact List.map_congr_left fun row _ => List.length_map _

theorem IsBinary.between {v : Exact} (hv : IsBinary v) : Between (.finite 0) (.finite 1) v := by
  rcases hv with rfl | rfl
  · exact ⟨rfl, rfl⟩
  · exact ⟨rfl, rfl⟩

/-- The variables have values of their kinds where the members are a permutation. -/
theorem AddsSequence.created_holds (h : AddsSequence n s hs square s' cs ds rs) {ns : List ℤ}
    (hns : IsPermutation n ns) (hmembers : hs.map (value ρ) = (ns.map Int.cast).map Exact.finite)
    (hbinary : ∀ row ∈ square, ∀ b ∈ row, IsBinary (value ρ b)) :
    ∀ c ∈ cs ++ ds, Created.Holds ρ c := by
  intro c hc
  rcases List.mem_append.mp hc with hc | hc
  · obtain ⟨hkind, hlower, hupper⟩ := h.member_kind c hc
    have hmem : value ρ c.handle ∈ (ns.map Int.cast).map Exact.finite :=
      hmembers ▸ List.mem_map_of_mem (h.members ▸ List.mem_map_of_mem hc)
    obtain ⟨q, hq, hvalue⟩ := List.mem_map.mp hmem
    obtain ⟨m, hm, rfl⟩ := List.mem_map.mp hq
    obtain ⟨k, hk, rfl⟩ := List.mem_map.mp (hns.mem_iff.mp hm)
    have hk := List.mem_range.mp hk
    refine ⟨by rw [hkind, ← hvalue]; exact ⟨_, rfl⟩, ?_, ?_⟩
    · rw [hlower, ← hvalue, Exact.finite_le, decide_eq_true_iff]
      exact_mod_cast (by omega : (1 : ℤ) ≤ k + 1)
    · rw [hupper, ← hvalue, Exact.finite_le, decide_eq_true_iff]
      exact_mod_cast (by omega : (k : ℤ) + 1 ≤ n)
  · obtain ⟨hkind, hlower, hupper⟩ := h.cell_kind c hc
    obtain ⟨row, hrow, hb⟩ := List.mem_flatten.mp (h.cells ▸ List.mem_map_of_mem hc)
    have hb := hbinary row hrow _ hb
    exact ⟨by rw [hkind]; exact hb, hlower ▸ hb.between.1, hupper ▸ hb.between.2⟩

/-- Where two points give the members the same values, they give all new variables the same. -/
theorem AddsSequence.determined (h : AddsSequence n s hs square s' cs ds rs)
    (hρ : (∀ c ∈ cs ++ ds, Created.Holds ρ c) ∧ ∀ r ∈ rs, Range.Holds ρ r)
    (hρ' : (∀ c ∈ cs ++ ds, Created.Holds ρ' c) ∧ ∀ r ∈ rs, Range.Holds ρ' r)
    (htuple : hs.map (value ρ) = hs.map (value ρ')) :
    ∀ id ∈ (cs ++ ds).filterMap (·.handle.id?), ρ id = ρ' id := by
  have hmembers : hs.map ((semantics σ).int ρ) = hs.map ((semantics σ).int ρ') := by
    have hmap := congrArg (List.map intOf) htuple
    rwa [List.map_map, List.map_map] at hmap
  have hsquare : square.map (fun row => row.map ((semantics σ).int ρ)) =
      square.map fun row => row.map ((semantics σ).int ρ') := by
    rw [(h.isPermutation hρ).2, (h.isPermutation hρ').2, hmembers]
  have hints : ∀ a ∈ hs ++ square.flatten, (semantics σ).int ρ a = (semantics σ).int ρ' a := by
    intro a ha
    rcases List.mem_append.mp ha with ha | ha
    · exact List.map_inj_left.mp hmembers a ha
    · obtain ⟨row, hrow, ha⟩ := List.mem_flatten.mp ha
      exact List.map_inj_left.mp (List.map_inj_left.mp hsquare row hrow) a ha
  intro id hid
  obtain ⟨c, hc, hid⟩ := List.mem_filterMap.mp hid
  have hmem : c.handle ∈ hs ++ square.flatten := by
    rw [← h.members, ← h.cells, ← List.map_append]
    exact List.mem_map_of_mem hc
  obtain ⟨i, name, integral, hleaf⟩ := h.free.leaf _ hmem
  have hvalue := value_eq (h.integral hρ.1 _ hmem)
  rw [hints _ hmem, ← value_eq (h.integral hρ'.1 _ hmem), hleaf, value_leaf, value_leaf,
    Exact.finite.injEq] at hvalue
  rw [hleaf] at hid
  cases hid
  exact hvalue

end

/-- Whatever was lowered before, the algebraic solvers get permutations for a sequence. -/
theorem createsPermutations (hP : Documented P) (hR : Responds P) (name : String)
    (members : List String) (s : TolerantState σ) : CreatesPermutations P name members s := by
  obtain ⟨hs, s', hr⟩ := hR.createSequence name members s
  obtain ⟨square, cs, ds, rs, h⟩ := createSequence_adds hP hr
  refine ⟨hs, s', cs ++ ds, rs, hr, h.created, h.posted, h.violated, fun {ρ} hρ => ?_, fun {ns} hns => ?_,
    fun hρ hρ' htuple => h.determined hρ hρ' htuple⟩
  · refine ⟨_, (h.isPermutation hρ).1, ?_⟩
    rw [List.map_map]
    exact List.map_congr_left fun a ha => value_eq (h.integral hρ.1 a (List.mem_append_left _ ha))
  · obtain ⟨ρ, hmembers, hbinary, hsquare⟩ := h.takes (by simpa using hns.length_eq)
    have hcreated := h.created_holds hns hmembers hbinary
    exact ⟨ρ, ⟨hcreated, (h.ranges (h.integral hcreated)).mpr
      (tied_of_perm hns (map_int_eq hmembers) hsquare)⟩, by rw [hmembers, List.map_map]; rfl⟩

end Tolerant

/-! ### CP-SAT -/

namespace CpSat

open LowerM

variable {ρ : HandleId → ℤ} {k : ℕ} {members : List String}

/-- The variable that a call makes. -/
def Call.variable? : Call → Option HandleId
  | .newInteger _ _ h | .newBoolean h => h.id?
  | _ => none

/-- The positions of members, with identities from `k` on. -/
def positions (k : ℕ) (members : List String) : List Expr :=
  members.mapIdx fun i member => .leaf ⟨k + i⟩ (member ++ ".pos") true

theorem positions_cons (k : ℕ) (member : String) (members : List String) :
    positions k (member :: members) =
      .leaf ⟨k⟩ (member ++ ".pos") true :: positions (k + 1) members := by
  rw [positions, List.mapIdx_cons]
  refine congrArg₂ _ rfl (List.mapIdx_eq_mapIdx_iff.mpr fun i _ => ?_)
  rw [Nat.add_right_comm, Nat.add_assoc]

theorem map_value_positions (ρ : HandleId → ℤ) (k : ℕ) (members : List String) :
    (positions k members).map (value ρ) = (List.range members.length).map fun i => ρ ⟨k + i⟩ :=
  List.ext_getElem (by simp [positions]) fun i _ _ => by simp [positions]

theorem runs_positions (n : ℤ) (members : List String) (s : CpSatState) :
    ∃ s', (members.mapM fun member => do
        let h ← leaf (member ++ ".pos") true
        call (.newInteger 0 (n - 1) h)
        return h : CpSatM Exact (List Expr)).Runs s (positions s.nextHandle members) s' ∧
      Makes s s' ((positions s.nextHandle members).map (Call.newInteger 0 (n - 1))) ∧
      s'.violated = s.violated := by
  induction members generalizing s with
  | nil => exact ⟨s, runs_mapM_nil.mpr ⟨rfl, rfl⟩, (List.append_nil _).symm, rfl⟩
  | cons member members ih =>
    let h : Expr := .leaf ⟨s.nextHandle⟩ (member ++ ".pos") true
    let s₁ : CpSatState := { s with
      nextHandle := s.nextHandle + 1
      solver := { s.solver with calls := s.solver.calls.push (.newInteger 0 (n - 1) h) } }
    obtain ⟨s', hr, hmakes, hviolated⟩ := ih s₁
    refine ⟨s', runs_mapM_cons.mpr ⟨h, s₁, _, rfl, hr, positions_cons ..⟩, ?_, hviolated⟩
    rw [Makes, hmakes, positions_cons, List.map_cons, List.append_cons]
    exact congrArg (· ++ _) (Array.toList_push ..)

/-- A member is one more than its position. -/
theorem runs_member (b : Bounds) (p : Expr) (s : CpSatState) :
    ∃ h s', (do track (← LowerM.add p (.const 1)) b : CpSatM Exact Expr).Runs s h s' ∧
      Makes s s' [] ∧ s'.violated = s.violated ∧ ∀ ρ, value ρ h = value ρ p + 1 := by
  cases p with
  | const m =>
    exact ⟨.const (m + 1), s, rfl, (List.append_nil _).symm, rfl, fun ρ => by simp⟩
  | leaf id name integral =>
    exact ⟨_, _, rfl, (List.append_nil _).symm, rfl, fun ρ => by simp⟩
  | node id f args =>
    exact ⟨_, _, rfl, (List.append_nil _).symm, rfl, fun ρ => by simp⟩

theorem runs_members (b : Bounds) (ps : List Expr) (s : CpSatState) :
    ∃ hs s', (ps.mapM fun p => do track (← LowerM.add p (.const 1)) b :
        CpSatM Exact (List Expr)).Runs s hs s' ∧ Makes s s' [] ∧ s'.violated = s.violated ∧
      ∀ ρ, hs.map (value ρ) = (ps.map (value ρ)).map (· + 1) := by
  induction ps generalizing s with
  | nil => exact ⟨[], s, runs_mapM_nil.mpr ⟨rfl, rfl⟩, (List.append_nil _).symm, rfl, fun _ => rfl⟩
  | cons p ps ih =>
    obtain ⟨h, s₁, hfirst, hm₁, hv₁, hvalue⟩ := runs_member b p s
    obtain ⟨hs, s', hrest, hm₂, hv₂, hvalues⟩ := ih s₁
    refine ⟨h :: hs, s', runs_mapM_cons.mpr ⟨h, s₁, hs, hfirst, hrest, rfl⟩, ?_, hv₂.trans hv₁, fun ρ => ?_⟩
    · rw [Makes, hm₂, hm₁, List.append_nil]
    · rw [List.map_cons, List.map_cons, List.map_cons, hvalue, hvalues]

/-- Different positions from zero to below `n` are one less than a permutation. -/
theorem isPermutation_of_positions {n : ℕ} {ks : List ℤ} (hlen : ks.length = n) (hnodup : ks.Nodup)
    (hrange : ∀ k ∈ ks, 0 ≤ k ∧ k ≤ (n : ℤ) - 1) : IsPermutation n (ks.map (· + 1)) := by
  have hall : ((List.range n).map fun i : ℕ => (i : ℤ) + 1).Nodup :=
    List.nodup_range.map fun a b h => by simpa using h
  have hnodup' : (ks.map (· + 1)).Nodup := hnodup.map fun a b h => by simpa using h
  refine (List.subperm_of_subset hnodup' fun m hm => ?_).perm_of_length_le (by simp [hlen])
  obtain ⟨k, hk, rfl⟩ := List.mem_map.mp hm
  obtain ⟨hlo, hhi⟩ := hrange k hk
  exact List.mem_map.mpr ⟨k.toNat, List.mem_range.mpr (by omega), by omega⟩

/-- What is made for a sequence, and required of it, admits the permutations. -/
def CreatesPermutations (name : String) (members : List String) (s : CpSatState) : Prop :=
  ∃ hs s' cs, ((backend : Backend Exact ℤ Solver).createSequence name members).Runs s hs s' ∧
    Makes s s' cs ∧ s'.violated = s.violated ∧
    EncodesPermutations members.length (fun ρ => ∀ c ∈ cs, c.Holds ρ) (cs.filterMap Call.variable?)
      (fun ρ => hs.map (value ρ)) id

theorem createsPermutations (name : String) (members : List String) (s : CpSatState) :
    CreatesPermutations name members s := by
  let n : ℤ := members.length
  obtain ⟨s₁, hpositions, hm₁, hv₁⟩ := runs_positions n members s
  let ps := positions s.nextHandle members
  let s₂ : CpSatState := { s₁ with
    solver := { s₁.solver with calls := s₁.solver.calls.push (.require (.allDifferent ps) none) } }
  obtain ⟨hs, s', hmembers, hm₂, hv₂, hvalues⟩ := runs_members ⟨1, n⟩ ps s₂
  let cs : List Call := ps.map (Call.newInteger 0 (n - 1)) ++ [.require (.allDifferent ps) none]
  have hholds : ∀ ρ, (∀ c ∈ cs, c.Holds ρ) ↔
      (∀ m ∈ ps.map (value ρ), 0 ≤ m ∧ m ≤ n - 1) ∧ (ps.map (value ρ)).Nodup := by
    intro ρ
    rw [List.forall_mem_append, List.forall_mem_map, List.forall_mem_map, List.forall_mem_singleton]
    rfl
  have hmade : ∀ id ∈ cs.filterMap Call.variable?, ∃ i < members.length, id = ⟨s.nextHandle + i⟩ := by
    intro id hid
    obtain ⟨c, hc, hid⟩ := List.mem_filterMap.mp hid
    rcases List.mem_append.mp hc with hc | hc
    · obtain ⟨p, hp, rfl⟩ := List.mem_map.mp hc
      obtain ⟨i, hi, rfl⟩ := List.mem_mapIdx.mp hp
      cases hid
      exact ⟨i, hi, rfl⟩
    · cases List.mem_singleton.mp hc
      cases hid
  refine ⟨hs, s', cs, runs_bind.mpr ⟨ps, s₁, hpositions, runs_bind.mpr ⟨(), s₂, rfl, hmembers⟩⟩, ?_,
    hv₂.trans hv₁, fun {ρ} hρ => ?_, fun {ns} hns => ?_, fun {ρ ρ'} _ _ htuple id hid => ?_⟩
  · rw [Makes, hm₂, List.append_nil]
    simp [s₂, cs, show s₁.solver.calls.toList = _ from hm₁, ps]
  · obtain ⟨hrange, hnodup⟩ := (hholds ρ).mp hρ
    exact ⟨_, isPermutation_of_positions (by simp [ps, positions]) hnodup hrange,
      (hvalues ρ).trans (List.map_id _).symm⟩
  · obtain ⟨hlen, hnodup, hrange⟩ := perm_positions hns
    let ρ : HandleId → ℤ := fun id => (ns.map (· - 1)).getD (id.index - s.nextHandle) 0
    have hps : ps.map (value ρ) = ns.map (· - 1) := by
      refine (map_value_positions ..).trans (List.ext_getElem (by simp [hlen]) fun i hi hi' => ?_)
      rw [List.getElem_map, List.getElem_range, List.getElem_eq_getD 0]
      simp only [ρ, Nat.add_sub_cancel_left]
    refine ⟨ρ, (hholds ρ).mpr (by rw [hps]; exact ⟨hrange, hnodup⟩), ?_⟩
    rw [hvalues, hps, List.map_map]
    exact List.map_congr_left fun m _ => sub_add_cancel m 1
  · obtain ⟨i, hi, rfl⟩ := hmade id hid
    rw [hvalues, hvalues, List.map_inj_right fun a b h => by simpa using h, map_value_positions,
      map_value_positions] at htuple
    exact List.map_inj_left.mp htuple i (List.mem_range.mpr hi)

end CpSat

/-! ### All three -/

/-- Whatever was lowered before, each of the solvers gets the permutations for a sequence. -/
theorem createSequence_permutations (name : String) (members : List String)
    (s : Scip.ScipState Exact) (t : Z3.Z3State Exact) (u : CpSat.CpSatState) :
    Tolerant.CreatesPermutations Scip.primitives name members s ∧
      Tolerant.CreatesPermutations Z3.primitives name members t ∧
      CpSat.CreatesPermutations name members u :=
  ⟨Tolerant.createsPermutations Scip.documented Scip.responds name members s,
    Tolerant.createsPermutations Z3.documented Z3.responds name members t,
    CpSat.createsPermutations name members u⟩

end DecisionModel
