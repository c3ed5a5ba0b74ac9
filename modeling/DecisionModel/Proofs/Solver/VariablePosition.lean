import DecisionModel.Proofs.Solver.ConstantPosition
import DecisionModel.Proofs.Solver.Idempotent
import DecisionModel.Proofs.Tolerant.Values

/-!
# Entries at a variable position

The position of an entry and its key are packed into one index of a flat table, with a row for each key;
rows of short collections end in holes. An integral key and an index that is in the table determine the
row and the column, so that the entry is the one that evaluation reads (`History.variable_position_agrees`).
Real variables are accepted for keys as well, and nothing asks that they are integral: between two keys
the index may be that of an entry under another key (`Halfway.reads_other_key`).

The model may be lowered and terms may be requested in any order before. What carries the proof is that
the entries of the memo go on to read their cells, and that handles of variables are created integral
unless the variables are real (`ReadsCells`).
-/

namespace DecisionModel

open LowerM Backend

/-! ### The solvers' terms have their values -/

namespace Scip

open Tolerant

theorem evaluates : (primitives : Primitives Exact (Solver Exact)).Evaluates where
  toContained := contained
  newVariable hr := by
    obtain ⟨_, s₁, -, hleaf⟩ := runs_bind.mp hr
    obtain ⟨rfl, -⟩ := runs_leaf.mp hleaf
    rfl
  gate := value_gate
  total := value_total
  number?_total {hs k s s'} hr hne _ := by
    cases hs with
    | nil => exact absurd rfl hne
    | cons h hs =>
      obtain ⟨rfl, -⟩ := runs_node.mp hr
      rfl

end Scip

namespace Z3

open Tolerant

theorem evaluates : (primitives : Primitives Exact (Solver Exact)).Evaluates where
  toContained := contained
  newVariable hr := by
    obtain ⟨_, s₁, -, hr⟩ := runs_bind.mp hr
    obtain ⟨k, s₂, hleaf, hr⟩ := runs_bind.mp hr
    obtain ⟨_, s₃, -, hr⟩ := runs_bind.mp hr
    obtain ⟨rfl, -⟩ := runs_pure.mp hr
    obtain ⟨rfl, -⟩ := runs_leaf.mp hleaf
    rfl
  gate := value_gate
  total := value_chainedSum
  number?_total {hs k s s'} hr hne hterms := by
    cases hs with
    | nil => exact absurd rfl hne
    | cons h hs => exact number?_sum hr (hterms h (by simp))

end Z3

namespace Tolerant

variable {σ : Type} {P : Primitives Exact σ} {c : Context Exact} {s s' : TolerantState σ}
  {h key index column flat : Expr} {ρ : HandleId → ℚ} {k i first last : ℤ} {count width : ℕ}

/-! ### One cell -/

/-- The column is the position, which is an integer within the width. -/
theorem value_of_columnOf (hP : P.Evaluates) (hterm : index.number? = none)
    (hr : (columnOf (backend P) width index).Runs s column s') (hρ : s'.solver.Satisfied ρ) :
    ∃ i : ℤ, value ρ index = .finite i ∧ value ρ column = .finite i ∧ 1 ≤ i ∧ i ≤ width := by
  simp only [columnOf, hterm] at hr
  obtain ⟨k, s₁, hnew, hr⟩ := runs_bind.mp hr
  obtain ⟨_, s₂, hpost, hr⟩ := runs_bind.mp hr
  obtain ⟨rfl, rfl⟩ := runs_pure.mp hr
  obtain ⟨hcolumn, hrange⟩ := term_of_newInteger (ρ := ρ) hP hnew
  obtain ⟨q, hq, hindex⟩ := value_of_postEqual hP.toContained (.inl hcolumn) hpost hρ
  obtain ⟨i, hi, h1, hwidth⟩ := hrange
    ((related_of_runs (keeps_postEqual hP.creates.toSteps _ _) hpost).satisfied hρ)
  exact ⟨i, hindex.trans (hq.symm.trans hi), hi, h1, hwidth⟩

/-- The place of an integral key and a column in the flat table. -/
theorem value_of_flatIndex (hP : P.Evaluates)
    (hr : (flatIndex (backend P) count width first key column).Runs s flat s')
    (hρ : s'.solver.Satisfied ρ) (hk : value ρ key = .finite k) (hi : value ρ column = .finite i) :
    flat.number? = none ∧ value ρ flat = .finite ((k - first) * width + i - 1 : ℤ) := by
  obtain ⟨_, s₁, hnew, hr⟩ := runs_bind.mp hr
  obtain ⟨row, s₂, hrow, hr⟩ := runs_bind.mp hr
  obtain ⟨start, s₃, hstart, hr⟩ := runs_bind.mp hr
  obtain ⟨sum, s₄, hsum, hr⟩ := runs_bind.mp hr
  obtain ⟨position, s₅, hposition, hr⟩ := runs_bind.mp hr
  obtain ⟨_, s₆, hpost, hr⟩ := runs_bind.mp hr
  obtain ⟨rfl, rfl⟩ := runs_pure.mp hr
  have hterm := (term_of_newInteger (ρ := ρ) hP hnew).1
  obtain ⟨q, hflat, hq⟩ := value_of_postEqual hP.toContained (.inl hterm) hpost hρ
  refine ⟨hterm, ?_⟩
  have hexact (n : ℤ) : (Numeral.ofInt n : Number Exact).exact = .finite n := rfl
  rw [hflat, ← hq, value_sub hposition, value_add hsum, value_mul hstart, value_sub hrow, hk, hi]
  simp [hexact]

/-- Where the key is integral, so is the position, and the handle is the entry at it. -/
def ReadsEntry (c : Context Exact) (ρ : HandleId → ℚ) (key index h : Expr) : Prop :=
  ∀ k : ℤ, value ρ key = .finite k → ∃ (i : ℤ) (xs : List Exact) (y : Exact),
    value ρ index = .finite i ∧ Reader.CollectionAt c.workspace c.model k xs ∧
      Reader.entry? xs i = some y ∧ (FiniteCollections c → value ρ h = y)

theorem readsEntry_of_entryByKey (hP : P.Evaluates) (hle : first ≤ last) (hterm : index.number? = none)
    (hr : (entryByKey (backend P) c key (keyRange first last) index).Runs s h s')
    (hρ : s'.solver.Satisfied ρ) : ReadsEntry c ρ key index h := by
  intro k hk
  obtain ⟨width, rows, column, flat, s₂, s₃, hrows, hne, hcolumn, hflat, hlookup⟩ :=
    runs_entryByKey hle (runs_entries (P := P)) hr
  have hcreates := hP.creates
  have hρ₃ := (related_of_runs (keeps_lookup hcreates.toSteps _ _) hlookup).satisfied hρ
  have hρ₂ := (related_of_runs (Backend.keeps_flatIndex hcreates.creates.toPreserves _ _ _ _ _)
    hflat).satisfied hρ₃
  obtain ⟨i, hindex, hi, h1, hle⟩ := value_of_columnOf hP hterm hcolumn hρ₂
  obtain ⟨hflatterm, hplace⟩ := value_of_flatIndex hP hflat hρ₃ hk hi
  obtain ⟨e, he, hfound, hvalue⟩ := value_of_lookup hP hflatterm hne hlookup hρ
  have hposition : e.1 = (k - first) * width + i - 1 :=
    Int.cast_inj.mp (Exact.finite.inj (hfound.symm.trans hplace))
  obtain ⟨-, -, xs, y, hread, hentry, hy⟩ := hrows.entry he h1 hle hposition
  refine ⟨i, xs, y, hindex, hread, hentry, fun hfinite => ?_⟩
  rw [hvalue (finite_of_flatEntries hrows hfinite), hy.value_eq]

/-! ### Cells that were lowered -/

variable {u t : Term Exact} {v : VarId} {id cid : NodeId} {origin : NodeId → Option (Term Exact)}

/-- The handle is an entry under what the variable was lowered to, at what the position was lowered to. -/
def ReadsCell (P : Primitives Exact σ) (c : Context Exact) (u : Term Exact) (v : VarId)
    (s : TolerantState σ) (h : Expr) : Prop :=
  ∃ d key index, c.workspace.findVariable v = some d ∧ s.handle? v = some key ∧
    (Backend.translate (backend P) c u).Runs s index s ∧
    (index.number? = none → ∀ ρ, s.solver.Satisfied ρ → ReadsEntry c ρ key index h)

theorem ReadsCell.later (hcell : ReadsCell P c u v s h) (hs : Accumulates s s') :
    ReadsCell P c u v s' h := by
  obtain ⟨d, key, index, hd, hkey, hindex, hreads⟩ := hcell
  exact ⟨d, key, index, hd, handle?_of_entered hs.handles_kept hkey,
    runs_translate_again hindex hs.remembers hs.handles_kept,
    fun hterm ρ hρ => hreads hterm ρ (hs.satisfied hρ)⟩

theorem readsCell_of_lowerEntry (hP : P.Evaluates) {key : Term Exact} (hkey : key.unwrapped = .var v)
    (hr : (lowerEntry (backend P) c (.node cid .collection [key])
      (Backend.translate (backend P) c u)).Runs s h s') : ReadsCell P c u v s' h := by
  obtain ⟨index, s₁, ⟨first, last⟩, handle, hindex, hkeys, hhandle, hentry⟩ := runs_lowerEntry_var hkey hr
  obtain ⟨d, hd, hle⟩ : ∃ d, c.workspace.findVariable v = some d ∧ first ≤ last := by
    unfold variableKeys at hkeys
    split at hkeys
    · exact ⟨_, ‹_›, (runs_keysWithin hkeys).2.1⟩
    · exact absurd hkeys runs_fail
  have hlater : Accumulates _ s' :=
    related_of_runs (keeps_entryByKey hP.creates.creates.toPreserves _ _ _) hentry
  exact ⟨d, handle, index, hd, handle?_of_entered hlater.handles_kept hhandle,
    runs_translate_again hindex hlater.remembers hlater.handles_kept,
    fun hterm ρ hρ => readsEntry_of_entryByKey hP hle hterm hentry hρ⟩

theorem identity_of_positioned {key : Term Exact} (ht : t ∈ positionedTerms id cid u key) :
    t.identity? = some id := by
  simp only [positionedTerms, List.mem_cons, List.not_mem_nil, or_false] at ht
  rcases ht with rfl | rfl <;> rfl

/-- No entry for a node is made while the node is lowered. -/
theorem memo?_before_entry (hP : P.Contained) (ht : t.WellBuilt origin) (hid : t.identity? = some id)
    (hnone : s.memo? id = none)
    (hr : (Backend.translate (backend P) c t).Runs s h { s' with memo := (id, h) :: s'.memo }) :
    s'.memo? id = none :=
  Backend.memo?_before_entry (hP.keep fun _ => upholds_modifySolver _ _).creates.toEncodes.preserves ht
    hid hnone hr

/-- An entry that was not in the memo is lowered, and then it is. -/
theorem readsCell_of_positioned (hP : P.Evaluates) (ht : t.WellBuilt origin) {key : Term Exact}
    (hposition : t ∈ positionedTerms id cid u key) (hkey : key.unwrapped = .var v)
    (hnone : s.memo? id = none) (hr : (Backend.translate (backend P) c t).Runs s h s') :
    ReadsCell P c u v s' h := by
  have hrun := hr
  rw [translate_positioned hposition] at hrun
  obtain ⟨hm, -⟩ | ⟨-, s₁, hlower, rfl⟩ := runs_memoized.mp hrun
  · cases hnone.symm.trans hm
  have hfresh := memo?_before_entry hP.toContained ht (identity_of_positioned hposition) hnone hr
  exact (readsCell_of_lowerEntry hP hkey hlower).later (Visited.memo h hfresh (keeps_refl s₁))

/-- The entries that the memo has read their cells, and variables that are not real were created with
integral values. -/
structure ReadsCells (P : Primitives Exact σ) (c : Context Exact) (origin : NodeId → Option (Term Exact))
    (s : TolerantState σ) : Prop where
  entries {id cid : NodeId} {t u key : Term Exact} {v : VarId} {h : Expr} : s.memo? id = some h →
    origin id = some t → t ∈ positionedTerms id cid u key → key.unwrapped = .var v →
      ReadsCell P c u v s h
  declared {v : VarId} {h : Expr} {d : Variable Exact} : (v, h) ∈ s.handles →
    c.workspace.findVariable v = some d → d.kind ≠ .real → CreatedIntegral h s

/-- Nothing was lowered yet. -/
theorem ReadsCells.of_nothing (hmemo : s.memo = []) (hhandles : s.handles = []) :
    ReadsCells P c origin s where
  entries hm := by simp [LoweringState.memo?, hmemo] at hm
  declared hh := by simp [hhandles] at hh

/-- More is lowered, and this stays so. -/
structure Advances (P : Primitives Exact σ) (c : Context Exact) (origin : NodeId → Option (Term Exact))
    (s s' : TolerantState σ) : Prop extends Accumulates s s' where
  cells : ReadsCells P c origin s → ReadsCells P c origin s'

/-- Neither the memo nor the handles of variables change. -/
theorem Advances.of_same (hs : Accumulates s s') (hmemo : s'.memo = s.memo)
    (hhandles : s'.handles = s.handles) : Advances P c origin s s' where
  toAccumulates := hs
  cells hcells := {
    entries := fun hm ho ht hkey => by
      rw [LoweringState.memo?, hmemo] at hm
      exact (hcells.entries hm ho ht hkey).later hs
    declared := fun hh hd hkind => by
      rw [hhandles] at hh
      exact (hcells.declared hh hd hkind).later hs.created_subset }

instance : Noted (Advances P c origin) where
  refl s := .of_same (keeps_refl s) rfl rfl
  trans _ _ _ h h' :=
    ⟨keeps_trans h.toAccumulates h'.toAccumulates, fun hcells => h'.cells (h.cells hcells)⟩
  next s := .of_same (Unaffected.next s) rfl rfl
  auxiliaries s := .of_same (Unaffected.auxiliaries s) rfl rfl
  violated s texts := .of_same (Unaffected.violated s texts) rfl rfl
  log s lines := .of_same (Unaffected.log s lines) rfl rfl
  note hnotes := .of_same (Noted.note hnotes) rfl rfl

theorem advances_modifyOwn (f : σ → σ) :
    Keeps (Advances P c origin) (modifyOwn f : TolerantM Exact σ Unit) :=
  keeps_modifySolver fun _ => .of_same (.with_solver (List.Subset.refl _) (List.Subset.refl _)) rfl rfl

theorem creates_advances (hP : P.Evaluates) : P.Creates (Advances P c origin) :=
  (hP.keep advances_modifyOwn).creates

/-- What lowering a well-built term enters in the memo reads its cell. -/
theorem enters_advances (hP : P.Evaluates) (ht : t.WellBuilt origin) :
    Backend.Enters (Advances P c origin) (backend P) c t := by
  intro id s h s₁ hid hnone hs hr
  have hlater : Accumulates s₁ { s₁ with memo := (id, h) :: s₁.memo } :=
    Visited.memo h (memo?_before_entry hP.toContained ht hid hnone hr) (keeps_refl s₁)
  refine ⟨keeps_trans hs.toAccumulates hlater, fun hcells => ⟨fun {id'} _ _ _ _ _ _ hm ho hp hkey => ?_,
    fun hh hd hkind => ((hs.cells hcells).declared hh hd hkind).later hlater.created_subset⟩⟩
  rw [memo?_cons] at hm
  by_cases heq : id = id'
  · -- The new entry is that of the term itself, by which the identity is registered.
    subst heq
    rw [if_pos rfl] at hm
    obtain rfl := Option.some.inj hm
    obtain rfl := Option.some.inj (ho.symm.trans (ht.registered (.refl t) (by cases t <;> exact hid)))
    exact readsCell_of_positioned hP ht hp hkey hnone hr
  · rw [if_neg heq] at hm
    exact ((hs.cells hcells).entries hm ho hp hkey).later hlater

theorem keepsWithin_advances (hP : P.Evaluates) (ht : t.WellBuilt origin) :
    KeepsWithin (Advances P c origin) (backend P) c t :=
  keepsWithin_of_enters (creates_advances hP).creates.toPreserves fun _ hu =>
    enters_advances hP (ht.within hu)

/-- Handles are entered of variables that were created as they are declared. -/
theorem Advances.enter {entries : List (VarId × Expr)} (hentries : ∀ e ∈ entries, ∀ d,
    c.workspace.findVariable e.1 = some d → d.kind ≠ .real → CreatedIntegral e.2 s) :
    Advances P c origin s (s.enter entries) := by
  have hs : Accumulates s (s.enter entries) :=
    ⟨fun _ _ hm => hm, List.prefix_append _ _, List.Subset.refl _, List.Subset.refl _⟩
  refine ⟨hs, fun hcells => ⟨fun hm ho ht hkey => (hcells.entries hm ho ht hkey).later hs,
    fun {v h d} hh hd hkind => ?_⟩⟩
  rcases List.mem_append.mp hh with hh | hh
  · exact hcells.declared hh hd hkind
  · exact hentries (v, h) hh d hd hkind

theorem entersVariables_advances (hP : P.Contained) :
    EntersVariables (Advances P c origin) (backend P) c where
  lowered s := .of_same (.of_apart rfl rfl rfl) rfl rfl
  single {v d h s s₁} hd hr := .enter fun e he d' hd' hkind => by
    obtain rfl := List.mem_singleton.mp he
    obtain rfl := Option.some.inj (hd.symm.trans hd')
    exact ⟨_, mem_created hr, rfl, by cases hk : d.kind <;> simp_all [Kind.ofVariable]⟩
  members _ _ hr := .enter fun e he _ _ _ => createdIntegral_member hP hr (List.of_mem_zip he).2

/-- After any requests, the entries that were lowered read their cells. -/
theorem readsCells_after (hP : P.Evaluates) (hw : c.workspace.WellFormed origin) {known : List (Term Exact)}
    (hk : ∀ t ∈ known, t.WellBuilt origin) {requests : List (Request Exact)}
    (hrequests : ∀ r ∈ requests, ∀ x, r.input? = some x → x.Available known)
    {start : TolerantState σ} (hstart : ReadsCells P c origin start) :
    ReadsCells P c origin (after ((backend P).answer (lowerModel P)) (requests.map (c, ·)) start) := by
  have hcreates : P.Creates (Advances P c origin) := creates_advances hP
  refine (related_after (R := Advances P c origin) (fun request hrequest => ?_) start).cells hstart
  obtain ⟨r, hr, rfl⟩ := List.mem_map.mp hrequest
  refine Backend.keeps_answer hcreates.creates.toPreserves ?_ fun t ht => ?_
  · refine keeps_lowerModel hcreates (hP.tolerance advances_modifyOwn) (fun x => ?_)
      (entersVariables_advances hP.toContained) fun t ht => keepsWithin_advances hP (hw.contains ht)
    exact keeps_modifySolver fun _ =>
      .of_same (.with_solver (List.Subset.refl _) (List.Subset.refl _)) rfl rfl
  · exact keepsWithin_advances hP ((hrequests r hr _ ht).known hk)

/-! ### What an entry under a variable reads -/

/-- The key handle is a key of the model, the index handle is a position in the collection under it, and
evaluation reads the entry there, which the third handle is. -/
def AtCell (c : Context Exact) (ρ : HandleId → ℚ) (t u key : Term Exact) (k i h : Expr) : Prop :=
  ∃ (n m : ℤ) (xs : List Exact) (y : Exact), value ρ k = .finite n ∧ 0 ≤ n ∧ n < c.keyCount ∧
    Reader.CollectionAt c.workspace c.model n xs ∧ value ρ i = .finite m ∧ 1 ≤ m ∧ m ≤ xs.length ∧
    Reader.entry? xs m = some y ∧ (FiniteCollections c → value ρ h = y) ∧
    ∀ sol : Solution Exact, sol.model = c.model → sol.evaluators = [] →
      sol.evaluate c.workspace key = .ok (some (.finite n)) →
      sol.evaluate c.workspace u = .ok (some (.finite m)) →
        sol.evaluate c.workspace t = .ok (some y)

theorem ReadsEntry.atCell {key : Term Exact} {k i : Expr} {n : ℤ} (hreads : ReadsEntry c ρ k i h)
    (hk : value ρ k = .finite n) (ht : t ∈ positionedTerms id cid u key) : AtCell c ρ t u key k i h := by
  obtain ⟨m, xs, y, hi, hread, hentry, hvalue⟩ := hreads n hk
  obtain ⟨h0, hcount⟩ := Reader.key_of_collectionAt hread
  obtain ⟨h1, hlen⟩ := Reader.range_of_entry hentry
  refine ⟨n, m, xs, y, hk, h0, hcount, hread, hi, h1, hlen, hentry, hvalue,
    fun sol hmodel hevaluators hkey hu => ?_⟩
  exact (evaluate_positioned_iff ht hmodel hevaluators hu hkey).mpr
    ⟨xs, hread, by rwa [roundHalfEven_int]⟩

/-- Whatever was requested of the solver before: an entry that is lowered, under a variable and at a
position that is no number, is at its cell in every point that satisfies what was posted, unless the
variable is real and not integral there. -/
structure ReadsPositions (P : Primitives Exact σ) (start : TolerantState σ) (c : Context Exact)
    (known : List (Term Exact)) : Prop where
  cell {requests : List (Request Exact)} {before s : TolerantState σ} {id cid : NodeId}
    {t u key : Term Exact} {v : VarId} {h : Expr} :
    (∀ r ∈ requests, ∀ x, r.input? = some x → x.Available known) →
    before = after ((backend P).answer (lowerModel P)) (requests.map (c, ·)) start →
    t ∈ positionedTerms id cid u key → key.unwrapped = .var v → (Input.term t).Available known →
    (Backend.translate (backend P) c t).Runs before h s →
    ∃ k i, s.handle? v = some k ∧ (Backend.translate (backend P) c u).Runs s i s ∧
      (i.number? = none → ∀ ρ, s.solver.Satisfied ρ →
        (∀ d, c.workspace.findVariable v = some d → d.kind = .real → ∃ n : ℤ, value ρ k = .finite n) →
          AtCell c ρ t u key k i h)

theorem readsPositions (hP : P.Evaluates) {known : List (Term Exact)} {start : TolerantState σ}
    (hstart : ∀ origin, ReadsCells P c origin start) (hc : History c.workspace known) :
    ReadsPositions P start c known := by
  obtain ⟨origin, hw, hk⟩ := hc.wellFormed
  refine ⟨fun {_ _ s id _ t _ key v h} hrequests hbefore hposition hkey hknown hr => ?_⟩
  subst hbefore
  have ht : t.WellBuilt origin := hknown.known hk
  have hid := identity_of_positioned hposition
  have hcells : ReadsCells P c origin s := (related_of_runs (keepsWithin_advances hP ht).self hr).cells
    (readsCells_after hP hw hk hrequests (hstart origin))
  obtain ⟨d, k, i, hd, hhandle, hindex, hreads⟩ := hcells.entries (Backend.memo?_of_runs_translate hid hr)
    (ht.registered (.refl t) (by cases t <;> exact hid)) hposition hkey
  refine ⟨k, i, hhandle, hindex, fun hterm ρ hρ hreal => ?_⟩
  obtain ⟨n, hn⟩ : ∃ n : ℤ, value ρ k = .finite n := by
    by_cases hkind : d.kind = .real
    · exact hreal d hd hkind
    · exact (hcells.declared (Table.mem_of_get? hhandle) hd hkind).value hρ
  exact (hreads hterm ρ hρ).atCell hn hposition

end Tolerant

/-- For SCIP and Z3, an entry under a variable key and at a variable position is the one that evaluation
reads, wherever the key is integral; and it is unless the key is real. -/
theorem History.variable_position_agrees {w : Workspace Exact} {known : List (Term Exact)}
    (h : History w known) (m : ModelId) (config : Config Exact) :
    Tolerant.ReadsPositions Z3.primitives Z3.initial ⟨w, m, config⟩ known ∧
      Tolerant.ReadsPositions Scip.primitives ((Scip.openModel config).run.run Scip.initial).2
        ⟨w, m, config⟩ known := by
  refine ⟨Tolerant.readsPositions Z3.evaluates (fun _ => .of_nothing rfl rfl) h,
    Tolerant.readsPositions Scip.evaluates (fun _ => ?_) h⟩
  exact (Scip.keeps_openModel Tolerant.advances_modifyOwn config _).cells (.of_nothing rfl rfl)

/-! ### Between two keys -/

namespace Halfway

open Tolerant

/-- Two entries under each of two keys. -/
def lookup (key : ℤ) : LookupAnswer Exact :=
  if key = 0 then .values [.int 1, .int 2] else if key = 1 then .values [.int 3, .int 4] else .nothing

def container : Term Exact := .node ⟨1⟩ .collection [.var ⟨0⟩]

def entry : Term Exact := .node ⟨2⟩ .entry [container, .var ⟨1⟩]

/-- The entry is the first one under the second key. -/
def constraint : Term Exact := .node ⟨3⟩ (.comparison .eq) [entry, .const (.finite 3)]

/-- The key is real. -/
def calls : List (Call Exact) :=
  [.newModel .feasible, .setCollections ⟨0⟩ lookup (.int 2),
    .addVariable ⟨0⟩ .real "k" (.int 0) (.int 1) (.literal .absent),
    .addVariable ⟨0⟩ .integer "i" (.int 1) (.int 2) (.literal .absent),
    .collection (.term (.var ⟨0⟩)), .entryAt (.term (.var ⟨1⟩)) [.term container],
    .relate .eq (.term entry) (.literal (.int 3)), .addConstraint ⟨0⟩ (.term constraint)]

def workspace : Workspace Exact := calls.foldl (fun w call => (call.run.run.run w).2) {}

/-- The terms that the calls returned. -/
def known : List (Term Exact) := [.var ⟨0⟩, .var ⟨1⟩, container, entry, constraint, constraint]

theorem history : History workspace known := by
  refine (.returned (.addConstraint ⟨0⟩ (.term constraint))
    (.returned (.relate .eq (.term entry) (.literal (.int 3)))
      (.returned (.entryAt (.term (.var ⟨1⟩)) [.term container])
        (.returned (.collection (.term (.var ⟨0⟩)))
          (.returned (.addVariable ⟨0⟩ .integer "i" (.int 1) (.int 2) (.literal .absent))
            (.returned (.addVariable ⟨0⟩ .real "k" (.int 0) (.int 1) (.literal .absent))
              (.returned (.setCollections ⟨0⟩ lookup (.int 2))
                (.returned (.newModel .feasible) .start ?_ rfl) ?_ rfl) ?_ rfl) ?_ rfl) ?_ rfl) ?_ rfl)
                  ?_ rfl) ?_ rfl :
    History workspace ([] ++ [] ++ [.var ⟨0⟩] ++ [.var ⟨1⟩] ++ [container] ++ [entry] ++ [constraint] ++
      [constraint]))
  all_goals simp [Call.inputs, Input.Available, container, entry, constraint]

def context : Context Exact := ⟨workspace, ⟨0⟩, {}⟩

/-- Z3 with the model lowered into it. -/
def lowered : Z3.Z3State Exact :=
  after ((backend Z3.primitives).answer (lowerModel Z3.primitives)) ([.model].map (context, ·)) Z3.initial

/-- A point whose index is that of the first entry under the second key. -/
def point (k i : ℚ) (id : HandleId) : ℚ :=
  if id.index = 0 then k
  else if id.index = 1 ∨ id.index = 2 then i
  else if id.index = 4 then 2
  else if id.index = 12 then 1
  else 0

def solution (k i : ℚ) : Solution Exact where
  model := ⟨0⟩
  values := [(⟨0⟩, .finite k), (⟨1⟩, .finite i)]

theorem finiteCollections : FiniteCollections context := by
  intro k xs hxs x hx
  obtain ⟨h0, hcount⟩ := Reader.key_of_collectionAt hxs
  have hlt : k < 2 := hcount
  obtain rfl | rfl : k = 0 ∨ k = 1 := by omega
  · obtain rfl : [.finite (1 : ℤ), .finite (2 : ℤ)] = xs := Except.ok.inj (Except.ok.inj hxs)
    rcases (by simpa using hx : x = _ ∨ x = _) with rfl | rfl <;> exact ⟨_, rfl⟩
  · obtain rfl : [.finite (3 : ℤ), .finite (4 : ℤ)] = xs := Except.ok.inj (Except.ok.inj hxs)
    rcases (by simpa using hx : x = _ ∨ x = _) with rfl | rfl <;> exact ⟨_, rfl⟩

/-- What the two keys and the two positions are at the two points, and the entry where the key is a half. -/
theorem evaluated : lowered.solver.Satisfied (point 1 1) ∧ lowered.solver.Satisfied (point (1 / 2) 2) ∧
    (lowered.handle? ⟨0⟩).map (fun k => (value (point 1 1) k, value (point (1 / 2) 2) k)) =
      some (.finite (1 : ℤ), .finite (1 / 2)) ∧
    (lowered.handle? ⟨1⟩).map (fun i => (i.number?.isNone, value (point 1 1) i, value (point (1 / 2) 2) i)) =
      some (true, .finite (1 : ℤ), .finite (2 : ℤ)) ∧
    (lowered.memo? ⟨2⟩).map (value (point (1 / 2) 2)) = some (.finite 3) ∧
    ((solution (1 / 2) 2).evaluate workspace entry).toOption = some (some (.finite 2)) := by
  decide +kernel

/-- Under the second key the handle is the first entry, as in evaluation. -/
theorem second_key_reads : ∃ k i h s,
    (Backend.translate (backend Z3.primitives) context entry).Runs lowered h s ∧
      s.handle? ⟨0⟩ = some k ∧ value (point 1 1) k = .finite (1 : ℤ) ∧
      (Backend.translate (backend Z3.primitives) context (.var ⟨1⟩)).Runs s i s ∧
      value (point 1 1) i = .finite (1 : ℤ) ∧ value (point 1 1) h = .finite (3 : ℤ) ∧
      (solution 1 1).evaluate workspace entry = .ok (some (.finite (3 : ℤ))) := by
  obtain ⟨hpoint, -, hkey, hindex, hentry, -⟩ := evaluated
  obtain ⟨h, hm, -⟩ := Option.map_eq_some_iff.mp hentry
  have hr : (Backend.translate (backend Z3.primitives) context entry).Runs lowered h lowered :=
    Backend.runs_translate_of_memo? rfl hm
  have hrequests : ∀ r ∈ [Request.model], ∀ x, r.input? = some x → x.Available known := by
    simp [Request.input?]
  have hposition : entry ∈ positionedTerms ⟨2⟩ ⟨1⟩ (.var ⟨1⟩) (.var ⟨0⟩) := by
    simp [positionedTerms, entry, container]
  obtain ⟨k, i, hk, hi, hcell⟩ := (history.variable_position_agrees ⟨0⟩ {}).1.cell
    hrequests rfl hposition rfl (by simp [Input.Available, known, entry]) hr
  obtain ⟨k', hk', hkvalues⟩ := Option.map_eq_some_iff.mp hkey
  obtain rfl := Option.some.inj (hk'.symm.trans hk)
  obtain ⟨i', hi', hivalues⟩ := Option.map_eq_some_iff.mp hindex
  obtain rfl := Option.some.inj (hi'.symm.trans (runs_variableHandle.mp hi).1)
  simp only [Prod.mk.injEq] at hkvalues hivalues
  obtain ⟨n, m, xs, y, hn, -, -, hxs, hm, -, -, hy, hvalue, hsol⟩ := hcell
    (Option.isNone_iff_eq_none.mp hivalues.1) _ hpoint fun _ _ _ => ⟨1, hkvalues.1⟩
  obtain rfl : (1 : ℤ) = n := Int.cast_inj.mp (Exact.finite.inj (hkvalues.1.symm.trans hn))
  obtain rfl : (1 : ℤ) = m := Int.cast_inj.mp (Exact.finite.inj (hivalues.2.1.symm.trans hm))
  obtain rfl : [.finite (3 : ℤ), .finite (4 : ℤ)] = xs := Except.ok.inj (Except.ok.inj hxs)
  obtain rfl : Exact.finite (3 : ℤ) = y := Option.some.inj hy
  exact ⟨k', i', h, lowered, hr, hk, hn, hi, hm, hvalue finiteCollections, hsol _ rfl rfl rfl rfl⟩

/-- Between the keys the handle is the first entry under the second key as well, though the position is
two and evaluation reads the second entry under the first key. -/
theorem reads_other_key : History workspace known ∧ ∃ k i h s,
    (Backend.translate (backend Z3.primitives) context entry).Runs lowered h s ∧
      s.solver.Satisfied (point (1 / 2) 2) ∧ s.handle? ⟨0⟩ = some k ∧
      (∀ n : ℤ, value (point (1 / 2) 2) k ≠ .finite n) ∧
      (Backend.translate (backend Z3.primitives) context (.var ⟨1⟩)).Runs s i s ∧ i.number? = none ∧
      value (point (1 / 2) 2) i = .finite (2 : ℤ) ∧ value (point (1 / 2) 2) h = .finite 3 ∧
      (solution (1 / 2) 2).evaluate workspace entry = .ok (some (.finite 2)) := by
  obtain ⟨-, hpoint, hkey, hindex, hentry, hevaluate⟩ := evaluated
  obtain ⟨h, hm, hvalue⟩ := Option.map_eq_some_iff.mp hentry
  obtain ⟨k, hk, hkvalues⟩ := Option.map_eq_some_iff.mp hkey
  obtain ⟨i, hi, hivalues⟩ := Option.map_eq_some_iff.mp hindex
  simp only [Prod.mk.injEq] at hkvalues hivalues
  refine ⟨history, k, i, h, lowered, Backend.runs_translate_of_memo? rfl hm, hpoint, hk, fun n hn => ?_,
    runs_variableHandle.mpr ⟨hi, rfl⟩, Option.isNone_iff_eq_none.mp hivalues.1, hivalues.2.2, hvalue,
    eq_ok_of_toOption hevaluate⟩
  have htwice : (1 : ℚ) = 2 * n := by linarith [Exact.finite.inj (hkvalues.2.symm.trans hn)]
  have : (1 : ℤ) = 2 * n := by exact_mod_cast htwice
  omega

end Halfway

end DecisionModel
