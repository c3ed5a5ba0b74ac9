import DecisionModel.Proofs.Lowering.Collection

/-!
# Lowering of entries of collections

An entry at a position of a collection under a key is an element of a flat table, in which the
collections under the keys are rows of one width. Key and position are packed into one index, and the
index determines both (`row_column_unique`), so the entry that the lookup takes is the entry that
evaluation reads (`entry_lowers`).
-/

namespace DecisionModel

open LowerM Backend

variable {ν σ V : Type} [Numeral ν] {B : Backend Exact ν σ} {S : Semantics ν σ V} {c : Context Exact}
  {origin : NodeId → Option (Term Exact)} {G : Set (Handle ν)} {s s' : LoweringState ν σ}

/-! ### Flat tables -/

theorem mem_flatEntries {β : Type} {width : ℕ} {tables : List (List β)} {e : ℤ × β} :
    e ∈ flatEntries width tables ↔ ∃ (row column : ℕ) (table : List β), tables[row]? = some table ∧
      table[column]? = some e.2 ∧ e.1 = row * width + column := by
  obtain ⟨position, x⟩ := e
  simp only [flatEntries, List.mem_flatten, List.mem_mapIdx]
  constructor
  · rintro ⟨_, ⟨row, hrow, rfl⟩, he⟩
    obtain ⟨column, hcolumn, he⟩ := List.mem_mapIdx.mp he
    cases he
    exact ⟨row, column, _, List.getElem?_eq_getElem hrow, List.getElem?_eq_getElem hcolumn, by simp⟩
  · rintro ⟨row, column, table, hrow, hcolumn, rfl⟩
    obtain ⟨hr, rfl⟩ := List.getElem?_eq_some_iff.mp hrow
    obtain ⟨hc, rfl⟩ := List.getElem?_eq_some_iff.mp hcolumn
    exact ⟨_, ⟨row, hr, rfl⟩, List.mem_mapIdx.mpr ⟨column, hc, by simp⟩⟩

/-- An index of a flat table determines row and column. -/
theorem row_column_unique {row column width : ℕ} {k j : ℤ} (hcolumn : column < width) (h0 : 0 ≤ j)
    (hj : j < width) (h : k * width + j = row * width + column) : k = row ∧ j = column := by
  have hw : (0 : ℤ) < width := by omega
  have hk : (k * width + j) / width = k := by
    rw [add_comm, Int.add_mul_ediv_right _ _ hw.ne', Int.ediv_eq_zero_of_lt h0 hj, zero_add]
  have hrow : ((row : ℤ) * width + column) / width = row := by
    rw [add_comm, Int.add_mul_ediv_right _ _ hw.ne', Int.ediv_eq_zero_of_lt (by omega) (by omega),
      zero_add]
  obtain rfl : k = row := by rw [← hk, h, hrow]
  exact ⟨rfl, by omega⟩

/-! ### Integers defined by a term -/

/-- Taking off an integer. -/
theorem derives_sub_int (hB : Faithful B S c) (x : Handle ν) (k : ℤ) :
    S.Derives (α := Exact) (LowerM.sub x (.const (Numeral.ofInt k))) [x] fun ρ n =>
      n = S.int ρ x - k := by
  intro G s h s' hv hargs hr
  have hk := hB.isNumber_ofInt k
  obtain ⟨G₁, g₁, u₁, b₁, e₁⟩ := hB.derives_sub x (.const (Numeral.ofInt k)) hv (by
    simpa using ⟨hargs x (by simp), (usable_number hB hv hk).toHeld⟩) hr
  refine ⟨G₁, g₁, u₁, fun ρ hρ => ?_, e₁⟩
  rw [b₁ ρ hρ, (hk.2 ρ).2]

/-- A new integer that has to equal a term. -/
theorem computes_defined (hB : Faithful B S c) {m : LowerM Exact ν σ (Handle ν)}
    {args : List (Handle ν)} {first last : ℤ} {hint : String} {value : (HandleId → V) → ℤ}
    (hm : S.Derives m args fun ρ n => n = value ρ)
    (hvalue : ∀ ρ ρ', (∀ a ∈ args, S.int ρ a = S.int ρ' a) → value ρ = value ρ') :
    S.Computes (do
        let h ← B.newInteger first last hint
        let p ← m
        B.postEqual h p
        return h) args (fun ρ n => n = value ρ ∧ first ≤ n ∧ n ≤ last)
      fun ρ => first ≤ value ρ ∧ value ρ ≤ last := by
  intro G s h s' hv hargs hr
  simp only [runs_bind, runs_pure] at hr
  obtain ⟨x, s₁, hnew, p, s₂, hp, _, s₃, hpost, rfl, rfl⟩ := hr
  obtain ⟨G₁, g₁, u₁, b₁, e₁⟩ := hB.newInteger hv hnew
  obtain ⟨G₂, g₂, u₂, b₂, e₂⟩ := hm g₁.valid (fun a ha => ((hargs a ha).mono g₁.toGrows).toHeld) hp
  obtain ⟨G₃, g₃, b₃, e₃⟩ := hB.postEqual x p g₂.valid
    (by simpa using ⟨(u₁.mono g₂.toGrows).toHeld, u₂⟩) hpost
  refine ⟨G₃, (g₁.trans g₂).trans g₃, (u₁.mono g₂.toGrows).mono g₃.toGrows, fun ρ hρ => ?_, ?_⟩
  · have hρ₂ := g₃.admits ρ hρ
    exact ⟨(b₃ ρ hρ).trans (b₂ ρ hρ₂), b₁ ρ (g₂.admits ρ hρ₂)⟩
  · -- The new integer takes the value that the term will have.
    rintro ρ hcalm hρ ⟨hfirst, hlast⟩
    have hcalm₂ := g₃.calm hcalm
    obtain ⟨ρ₁, ha₁, hρ₁, hn⟩ := e₁ _ hfirst hlast ρ (g₂.calm hcalm₂) hρ
    obtain ⟨ρ₂, ha₂, hρ₂⟩ := e₂ ρ₁ hcalm₂ hρ₁ trivial
    have hagree := ha₁.trans g₁.next_le ha₂
    have heq : value ρ = value ρ₂ := hvalue ρ ρ₂ fun a ha =>
      hB.int_congr hv.world (hargs a ha).mem hagree
    have hequal : S.int ρ₂ x = S.int ρ₂ p := by
      rw [← hB.int_congr g₁.valid.world u₁.mem ha₂, hn, heq]
      exact (b₂ ρ₂ hρ₂).symm
    obtain ⟨ρ₃, ha₃, hρ₃⟩ := e₃ ρ₂ hcalm hρ₂ hequal
    exact ⟨ρ₃, hagree.trans (g₁.next_le.trans g₂.next_le) ha₃, hρ₃⟩

/-! ### Entries -/

/-- What is asked of a term that is the entry, at the position that `u` is, of the collection under
the key. -/
structure EntryOf (c : Context Exact) (origin : NodeId → Option (Term Exact)) (t u : Term Exact)
    (cid : NodeId) (key : Term Exact) : Prop where
  isNode : t.isNode = true
  wellBuilt : (Term.node cid .collection [key]).WellBuilt origin
  holds (r : Reader c.workspace c.model) {i n : ℤ} {ms : List ℤ} : r.Holds origin u i →
    r.Near origin key → r.Collects (.node cid .collection [key]) ms →
      Reader.entry? ms i = some n → r.Holds origin t n
  ready (r : Reader c.workspace c.model) : r.Ready origin t → r.Ready origin u
  defined (r : Reader c.workspace c.model) : r.Ready origin t → r.Defined key
  near (r : Reader c.workspace c.model) : r.Ready origin t → r.Near origin key
  position (r : Reader c.workspace c.model) {i k : ℤ} : r.Ready origin t → r.Means origin u i →
    r.RoundsTo origin key k → ∃ xs, Reader.CollectionAt c.workspace c.model k xs ∧
      1 ≤ i ∧ i ≤ xs.length

/-- The constants of a collection of integers. -/
theorem runs_constants (hB : Faithful B S c) {ms : List ℤ} {hs : List (Handle ν)}
    (h : ((ms.map fun n : ℤ => Exact.finite n).mapM B.constant).Runs s hs s') :
    s' = s ∧ List.Forall₂ (fun n h => S.IsNumber h n) ms hs := by
  induction ms generalizing hs with
  | nil =>
    obtain ⟨rfl, rfl⟩ := runs_mapM_nil.mp h
    exact ⟨rfl, .nil⟩
  | cons m ms ih =>
    obtain ⟨a, s₁, hs, h₁, h₂, rfl⟩ := runs_mapM_cons.mp h
    obtain ⟨rfl, n, hn, ha⟩ := hB.constant (fun _ => ⟨m, rfl⟩) h₁
    obtain rfl : m = n := by simpa using hn
    obtain ⟨rfl, hall⟩ := ih h₂
    exact ⟨rfl, .cons ha hall⟩

/-- An entry of a list of handles. -/
theorem computes_entry (hB : Faithful B S c) (index : Handle ν) (hs : List (Handle ν)) :
    S.Computes (B.element index (hs.mapIdx fun i h => ((i : ℤ) + 1, h))) (index :: hs)
      (fun ρ n => Reader.entry? (hs.map (S.int ρ)) (S.int ρ index) = some n)
      fun ρ => 1 ≤ S.int ρ index ∧ S.int ρ index ≤ hs.length := by
  intro G s h s' hv hargs hr
  have hargs' : ∀ a ∈ index :: (hs.mapIdx fun i h => ((i : ℤ) + 1, h)).map (·.2),
      S.Usable G s a := by
    intro a ha
    rcases List.mem_cons.mp ha with rfl | ha
    · exact hargs a (by simp)
    · obtain ⟨e, he, rfl⟩ := List.mem_map.mp ha
      obtain ⟨k, -, hk⟩ := mem_mapIdx_entries.mp he
      exact hargs _ (by simp [List.mem_of_getElem? hk])
  obtain ⟨G₁, g₁, u₁, b₁, e₁⟩ := computes_element hB index _ hv hargs' hr
  refine ⟨G₁, g₁, u₁, fun ρ hρ => ?_, e₁.mono ?_⟩
  · obtain ⟨e, he, hindex, hvalue⟩ := b₁ ρ hρ
    obtain ⟨k, hk, hget⟩ := mem_mapIdx_entries.mp he
    exact Reader.entry?_eq_some.mpr ⟨k, hindex.trans hk, by rw [List.getElem?_map, hget, hvalue]; rfl⟩
  · rintro ρ - ⟨h1, hlen⟩
    obtain ⟨k, hk⟩ := Int.eq_ofNat_of_zero_le (show 0 ≤ S.int ρ index - 1 by omega)
    have hget := List.getElem?_eq_getElem (l := hs) (i := k) (by omega)
    exact ⟨(S.int ρ index, hs[k]), mem_mapIdx_entries.mpr ⟨k, by simp; omega, hget⟩, rfl⟩

omit [Numeral ν] in
theorem map_int_numbers {ms : List ℤ} {hs : List (Handle ν)}
    (hall : List.Forall₂ (fun n h => S.IsNumber h n) ms hs) (ρ : HandleId → V) :
    hs.map (S.int ρ) = ms := by
  induction hall with
  | nil => rfl
  | cons hn _ ih => rw [List.map_cons, ih, (hn.2 ρ).2]

/-- An entry of the collection under a constant key. -/
theorem computes_constant_entry (hB : Faithful B S c) {ms : List ℤ} {hs : List (Handle ν)}
    (hall : List.Forall₂ (fun n h => S.IsNumber h n) ms hs) (index : Handle ν) :
    S.Computes (B.element index (hs.mapIdx fun i h => ((i : ℤ) + 1, h))) [index]
      (fun ρ n => Reader.entry? ms (S.int ρ index) = some n)
      fun ρ => 1 ≤ S.int ρ index ∧ S.int ρ index ≤ ms.length := by
  intro G s h s' hv hargs hr
  have hargs' : ∀ a ∈ index :: hs, S.Usable G s a := by
    intro a ha
    rcases List.mem_cons.mp ha with rfl | ha
    · exact hargs a (by simp)
    · obtain ⟨k, hk⟩ := List.getElem?_of_mem ha
      obtain ⟨n, -, hn⟩ := forall₂_getElem?_right hall hk
      exact usable_number hB hv hn
  obtain ⟨G₁, g₁, u₁, b₁, e₁⟩ := computes_entry hB index hs hv hargs' hr
  refine ⟨G₁, g₁, u₁, fun ρ hρ => ?_, e₁.mono fun ρ _ h => hall.length_eq ▸ h⟩
  rw [← map_int_numbers hall ρ]
  exact b₁ ρ hρ

/-- The column is the position, which is in range. -/
theorem computes_columnOf (hB : Faithful B S c) (width : ℕ) (index : Handle ν) :
    S.Computes (columnOf B width index) [index]
      (fun ρ n => n = S.int ρ index ∧ 1 ≤ n ∧ n ≤ width)
      fun ρ => 1 ≤ S.int ρ index ∧ S.int ρ index ≤ width := by
  intro G s h s' hv hargs hr
  unfold columnOf at hr
  split at hr
  · have hpure : S.Derives (pure index : LowerM Exact ν σ _) [index]
        fun ρ n => n = S.int ρ index := by
      intro G s h s' hv hargs hr
      obtain ⟨rfl, rfl⟩ := runs_pure.mp hr
      exact ⟨G, .refl hv, hargs index (by simp), fun _ _ => rfl, .refl⟩
    exact computes_defined hB hpure (fun ρ ρ' h => h index (by simp)) hv hargs (by simpa using hr)
  · rename_i x hx
    obtain ⟨position, s₁, hround, hr₁⟩ := runs_bind.mp hr
    obtain ⟨hposition, rfl⟩ := runs_lift.mp hround
    split at hr₁
    · simp at hr₁
    · simp only [runs_pure] at hr₁
      obtain ⟨rfl, rfl⟩ := hr₁
      have hu := hargs index (by simp)
      obtain rfl := Handle.eq_const hx
      refine ⟨G, .refl hv, hu, fun ρ hρ => ?_, .refl⟩
      have hvalue := (hB.round_eq (hu.integral ρ hρ)).symm.trans hposition
      simp only [Except.ok.injEq] at hvalue
      exact ⟨rfl, by omega, by omega⟩

/-- The place of column and key in the flat table. -/
theorem computes_flatIndex (hB : Faithful B S c) (count width : ℕ) (first : ℤ)
    (key column : Handle ν) :
    S.Computes (flatIndex B count width first key column) [key, column]
      (fun ρ n => n = (S.int ρ key - first) * width + S.int ρ column - 1 ∧ 0 ≤ n ∧
        n ≤ ((count * width : ℕ) : ℤ) - 1)
      fun ρ => 0 ≤ (S.int ρ key - first) * width + S.int ρ column - 1 ∧
        (S.int ρ key - first) * width + S.int ρ column - 1 ≤ ((count * width : ℕ) : ℤ) - 1 := by
  have hrow := (derives_sub_int hB key first).of_subset [key, column] (by simp)
  have hstart := hrow.bind (fun row => (hB.derives_mul row width).of_subset _ (by simp))
    (Q := fun ρ n => n = (S.int ρ key - first) * width) (by
      rintro ρ x n h rfl
      rw [h])
  have hsum := hstart.bind (fun start => (hB.derives_add start column).of_subset _ (by simp))
    (Q := fun ρ n => n = (S.int ρ key - first) * width + S.int ρ column) (by
      rintro ρ x n h rfl
      rw [h])
  have hposition := hsum.bind (fun sum => (derives_sub_int hB sum 1).of_subset _ (by simp))
    (Q := fun ρ n => n = (S.int ρ key - first) * width + S.int ρ column - 1) (by
      rintro ρ x n h rfl
      rw [h])
  intro G s h s' hv hargs hr
  refine computes_defined hB hposition (fun ρ ρ' h => ?_) hv hargs (by
    simpa [flatIndex, bind_assoc] using hr)
  rw [h key (by simp), h column (by simp)]

theorem le_foldl_max {ns : List ℕ} {a n : ℕ} (h : n ≤ a ∨ n ∈ ns) : n ≤ ns.foldl max a := by
  induction ns generalizing a with
  | nil => simpa using h
  | cons m ns ih =>
    refine ih ?_
    rcases h with h | h
    · exact .inl (le_max_of_le_left h)
    · rcases List.mem_cons.mp h with rfl | h
      · exact .inl (le_max_right _ _)
      · exact .inr h

/-- Rows of which one has an entry. -/
theorem exists_ne_nil_of_width {β : Type} {rows : List (List β)}
    (h : (rows.map List.length).foldl max 0 ≠ 0) : ∃ row ∈ rows, row ≠ [] := by
  by_contra hall
  push Not at hall
  refine h ?_
  clear h
  induction rows with
  | nil => rfl
  | cons row rows ih =>
    obtain ⟨rfl, hrest⟩ := List.forall_mem_cons.mp hall
    simpa using ih hrest

theorem getElem?_keyRange {first last k : ℤ} {row : ℕ} :
    (keyRange first last)[row]? = some k ↔ k = first + row ∧ k ≤ last := by
  simp only [keyRange, List.getElem?_map, Option.map_eq_some_iff, List.getElem?_eq_some_iff,
    List.length_range, List.getElem_range, exists_prop]
  constructor
  · rintro ⟨_, ⟨h, rfl⟩, rfl⟩
    omega
  · rintro ⟨rfl, h⟩
    exact ⟨row, ⟨by omega, rfl⟩, rfl⟩

theorem length_keyRange (first last : ℤ) :
    (keyRange first last).length = (last - first + 1).toNat := by simp [keyRange]

theorem headD_keyRange {first last : ℤ} (h : first ≤ last) (k : ℤ) :
    (keyRange first last).headD k = first := by
  have h0 : (keyRange first last)[0]? = some first := getElem?_keyRange.mpr ⟨by simp, h⟩
  rw [List.headD_eq_head?_getD, List.head?_eq_getElem?, h0, Option.getD_some]

/-- The flat index of an entry in range is in range. -/
theorem flat_range {first last k i : ℤ} {width : ℕ} (hfirst : first ≤ k) (hlast : k ≤ last)
    (h1 : 1 ≤ i) (hi : i ≤ width) : 0 ≤ (k - first) * width + i - 1 ∧
      (k - first) * width + i - 1 ≤ (((last - first + 1).toNat * width : ℕ) : ℤ) - 1 := by
  have hn : ((last - first + 1).toNat : ℤ) = last - first + 1 := by omega
  have h0 : 0 ≤ (k - first) * width := mul_nonneg (by omega) (by omega)
  have hle : (k - first) * width ≤ (last - first) * width :=
    mul_le_mul_of_nonneg_right (by omega) (by omega)
  have hsum : (last - first + 1) * width = (last - first) * width + width := by ring
  rw [Nat.cast_mul, hn, hsum]
  omega

/-- The rows of a flat table: the row of each key holds what `R` relates to the entries of the collection
under it, of which there are at most `width`. -/
structure Rows {β : Type} (c : Context Exact) (R : Exact → β → Prop) (first last : ℤ) (width : ℕ)
    (rows : List (List β)) : Prop where
  row {row : ℕ} {ys : List β} : rows[row]? = some ys → ∃ xs, first + row ≤ last ∧ xs.length ≤ width ∧
    Reader.CollectionAt c.workspace c.model (first + row) xs ∧ List.Forall₂ R xs ys
  exists_row {row : ℕ} : first + row ≤ last → ∃ ys, rows[row]? = some ys

omit [Numeral ν] in
theorem runs_rows {R : Exact → Handle ν → Prop} {first last : ℤ} {tables : List (List Exact)}
    {handles : List (List (Handle ν))}
    (hconstants : ∀ xs hs k, Reader.CollectionAt c.workspace c.model k xs → ∀ s s' : LoweringState ν σ,
      Runs (xs.mapM B.constant) s hs s' → s' = s ∧ List.Forall₂ R xs hs)
    (hread : List.Forall₂ (Reader.CollectionAt c.workspace c.model) (keyRange first last) tables)
    (hhandles : Runs (tables.mapM fun table => table.mapM B.constant) s handles s') :
    s' = s ∧ Rows c R first last ((tables.map List.length).foldl max 0) handles := by
  obtain ⟨rfl, hrelated⟩ := runs_mapM_pure (P := fun xs hs => List.Forall₂ R xs hs)
    (fun xs hxs hs s' hx => by
      obtain ⟨row, hrow⟩ := List.getElem?_of_mem hxs
      obtain ⟨k, -, hk⟩ := forall₂_getElem?_right hread hrow
      exact hconstants xs hs k hk _ _ hx) hhandles
  refine ⟨rfl, fun {row hs} hget => ?_, fun {row} hrow => ?_⟩
  · obtain ⟨xs, hxs, hall⟩ := forall₂_getElem?_right hrelated hget
    obtain ⟨k, hk, hcollection⟩ := forall₂_getElem?_right hread hxs
    obtain ⟨rfl, hlast⟩ := getElem?_keyRange.mp hk
    exact ⟨xs, hlast, le_foldl_max (.inr (List.mem_map_of_mem (List.mem_of_getElem? hxs))),
      hcollection, hall⟩
  · obtain ⟨xs, hxs, -⟩ := forall₂_getElem?_left hread (getElem?_keyRange.mpr ⟨rfl, hrow⟩)
    obtain ⟨hs, hget, -⟩ := forall₂_getElem?_left hrelated hxs
    exact ⟨hs, hget⟩

section Rows

variable {β : Type} {R : Exact → β → Prop} {first last : ℤ} {width : ℕ} {rows : List (List β)}

theorem Rows.related (h : Rows c R first last width rows) {e : ℤ × β}
    (he : e ∈ flatEntries width rows) : ∃ x, R x e.2 := by
  obtain ⟨row, place, ys, hget, hplace, -⟩ := mem_flatEntries.mp he
  obtain ⟨xs, -, -, -, hall⟩ := h.row hget
  obtain ⟨x, -, hx⟩ := forall₂_getElem?_right hall hplace
  exact ⟨x, hx⟩

/-- What is found at the place of a key and a position belongs to the entry of the collection under the
key. -/
theorem Rows.entry (h : Rows c R first last width rows) {e : ℤ × β} {k i : ℤ}
    (he : e ∈ flatEntries width rows) (h1 : 1 ≤ i) (hwidth : i ≤ width)
    (hplace : e.1 = (k - first) * width + i - 1) : first ≤ k ∧ k ≤ last ∧ ∃ xs x,
      Reader.CollectionAt c.workspace c.model k xs ∧ Reader.entry? xs i = some x ∧ R x e.2 := by
  obtain ⟨row, place, ys, hget, hentry, hrow⟩ := mem_flatEntries.mp he
  obtain ⟨xs, hlast, hlen, hcollection, hall⟩ := h.row hget
  obtain ⟨x, hx, hrelated⟩ := forall₂_getElem?_right hall hentry
  have hlt : place < xs.length := (List.getElem?_eq_some_iff.mp hx).1
  have hplaces : (k - first) * width + (i - 1) = row * width + place := by
    rw [← hrow, hplace]
    ring
  obtain ⟨hk, hi⟩ := row_column_unique (lt_of_lt_of_le hlt hlen) (by omega) (by omega) hplaces
  obtain rfl : k = first + row := by omega
  exact ⟨by omega, hlast, xs, x, hcollection, Reader.entry?_eq_some.mpr ⟨place, by omega, hx⟩, hrelated⟩

/-- A position within the collection under a key is within the width, and its place is in the table. -/
theorem Rows.exists_entry (h : Rows c R first last width rows) {k i : ℤ} {xs : List Exact}
    (hfirst : first ≤ k) (hlast : k ≤ last) (hread : Reader.CollectionAt c.workspace c.model k xs)
    (h1 : 1 ≤ i) (hlen : i ≤ xs.length) :
    i ≤ width ∧ ∃ e ∈ flatEntries width rows, e.1 = (k - first) * width + i - 1 := by
  obtain ⟨row, hrow⟩ := Int.eq_ofNat_of_zero_le (sub_nonneg.mpr hfirst)
  obtain rfl : k = first + row := by omega
  obtain ⟨ys, hget⟩ := h.exists_row hlast
  obtain ⟨xs', -, hwidth, hcollection, hall⟩ := h.row hget
  obtain rfl : xs = xs' := by simpa using hread.symm.trans hcollection
  have hlength := hall.length_eq
  obtain ⟨place, hplace⟩ := Int.eq_ofNat_of_zero_le (sub_nonneg.mpr h1)
  have hlt : place < ys.length := by omega
  refine ⟨by omega, (row * width + place, ys[place]), mem_flatEntries.mpr
    ⟨row, place, ys, hget, List.getElem?_eq_getElem hlt, rfl⟩, ?_⟩
  rw [hrow]
  omega

end Rows

/-- The entry by key is looked up in a flat table, which is not empty. -/
theorem runs_entryByKey {R : Exact → Handle ν → Prop} {first last : ℤ} {key index h : Handle ν}
    (hle : first ≤ last)
    (hconstants : ∀ xs hs k, Reader.CollectionAt c.workspace c.model k xs → ∀ s s' : LoweringState ν σ,
      Runs (xs.mapM B.constant) s hs s' → s' = s ∧ List.Forall₂ R xs hs)
    (hr : (entryByKey B c key (keyRange first last) index).Runs s h s') :
    ∃ width rows column flat s₁ s₂, Rows c R first last width rows ∧ flatEntries width rows ≠ [] ∧
      (columnOf B width index).Runs s column s₁ ∧
      (flatIndex B (last - first + 1).toNat width first key column).Runs s₁ flat s₂ ∧
      (B.lookup flat (flatEntries width rows)).Runs s₂ h s' := by
  unfold entryByKey at hr
  obtain ⟨tables, s₁, htables, hr⟩ := runs_bind.mp hr
  dsimp only at hr
  split at hr
  · simp [runs_bind] at hr
  rename_i hwidth
  rw [headD_keyRange hle, length_keyRange] at hr
  simp only [runs_bind] at hr
  obtain ⟨column, s₂, hcolumn, flat, s₃, hflat, rows, s₄, hhandles, hlookup⟩ := hr
  obtain ⟨rfl, hread⟩ := runs_mapM_pure (P := fun k xs => Reader.CollectionAt c.workspace c.model k xs)
    (fun k _ xs s' hx => (runs_collection.mp hx).symm) htables
  obtain ⟨rfl, hrows⟩ := runs_rows hconstants hread hhandles
  refine ⟨_, rows, column, flat, s₂, s₄, hrows, ?_, hcolumn, hflat, hlookup⟩
  obtain ⟨xs, hxs, hne⟩ := exists_ne_nil_of_width hwidth
  obtain ⟨row, hrow⟩ := List.getElem?_of_mem hxs
  obtain ⟨k, hk, hcollection⟩ := forall₂_getElem?_right hread hrow
  obtain ⟨rfl, hlast⟩ := getElem?_keyRange.mp hk
  have hlen := List.length_pos_of_ne_nil hne
  obtain ⟨-, e, he, -⟩ := hrows.exists_entry (i := 1) (by omega) hlast hcollection (by omega) (by omega)
  exact List.ne_nil_of_mem he

/-- The entry at a position of the collection under the key. -/
theorem computes_entryByKey (hB : Faithful B S c) (hc : IntegralCollections c)
    (key index : Handle ν) {first last : ℤ} (hle : first ≤ last) :
    S.Computes (entryByKey B c key (keyRange first last) index) [key, index]
      (fun ρ n => S.int ρ key ≤ last ∧ ∃ ms : List ℤ, Reader.CollectionAt c.workspace c.model
        (S.int ρ key) (ms.map fun n : ℤ => Exact.finite n) ∧
          Reader.entry? ms (S.int ρ index) = some n)
      fun ρ => first ≤ S.int ρ key ∧ S.int ρ key ≤ last ∧ ∃ xs,
        Reader.CollectionAt c.workspace c.model (S.int ρ key) xs ∧ 1 ≤ S.int ρ index ∧
          S.int ρ index ≤ xs.length := by
  intro G s h s' hv hargs hr
  obtain ⟨hkey, hindex⟩ : S.Usable G s key ∧ S.Usable G s index := by simpa using hargs
  obtain ⟨width, rows, column, flat, s₂, s₄, hrows, -, hcolumn, hflat, hlookup⟩ := runs_entryByKey
    (R := fun x h => ∃ n : ℤ, x = .finite n ∧ S.IsNumber h n) hle (fun xs hs k hk s s' hx => by
      obtain ⟨ms, rfl⟩ := hc k xs hk
      obtain ⟨rfl, hall⟩ := runs_constants hB hx
      exact ⟨rfl, List.forall₂_map_left_iff.mpr (hall.imp fun n h hn => ⟨n, rfl, hn⟩)⟩) hr
  obtain ⟨G₂, g₂, u₂, b₂, e₂⟩ := computes_columnOf hB _ index hv (by simpa using hindex) hcolumn
  obtain ⟨G₃, g₃, u₃, b₃, e₃⟩ := computes_flatIndex hB _ _ first key column g₂.valid
    (by simpa using ⟨hkey.mono g₂.toGrows, u₂⟩) hflat
  have hlookupArgs : ∀ a ∈ flat :: (flatEntries width rows).map (·.2), S.Usable G₃ s₄ a := by
    intro a ha
    rcases List.mem_cons.mp ha with rfl | ha
    · exact u₃
    · obtain ⟨e, he, rfl⟩ := List.mem_map.mp ha
      obtain ⟨_, n, -, hn⟩ := hrows.related he
      exact usable_number hB g₃.valid hn
  obtain ⟨G₄, g₄, u₄, b₄, e₄⟩ := hB.lookup flat _ g₃.valid hlookupArgs hlookup
  refine ⟨G₄, (g₂.trans g₃).trans g₄, u₄, fun ρ hρ => ?_, ?_⟩
  · have hρ₃ := g₄.admits ρ hρ
    obtain ⟨hcol, h1, hwidth⟩ := b₂ ρ (g₃.admits ρ hρ₃)
    obtain ⟨hplace, -, -⟩ := b₃ ρ hρ₃
    obtain ⟨e, he, hflat', hvalue⟩ := b₄ ρ hρ
    rw [hcol] at h1 hwidth hplace
    obtain ⟨-, hlast, xs, x, hread, hentry, n, rfl, hn⟩ :=
      hrows.entry he h1 hwidth (hflat'.symm.trans hplace)
    obtain ⟨ms, rfl⟩ := hc _ xs hread
    refine ⟨hlast, ms, hread, ?_⟩
    rw [Reader.entry?_map, Option.map_eq_some_iff] at hentry
    obtain ⟨m, hm, heq⟩ := hentry
    obtain rfl : m = n := by simpa using heq
    rw [hm, hvalue, (hn.2 ρ).2]
  · rintro ρ hcalm hρ ⟨hfirst, hlast, xs, hread, h1, hlen⟩
    obtain ⟨hwidth, e, he, hplace⟩ := hrows.exists_entry hfirst hlast hread h1 hlen
    have hcalm₃ := g₄.calm hcalm
    obtain ⟨ρ₂, ha₂, hρ₂⟩ := e₂ ρ (g₃.calm hcalm₃) hρ ⟨h1, hwidth⟩
    have hkey₂ : S.int ρ key = S.int ρ₂ key := hB.int_congr hv.world hkey.mem ha₂
    have hindex₂ : S.int ρ index = S.int ρ₂ index := hB.int_congr hv.world hindex.mem ha₂
    obtain ⟨hcol, -, -⟩ := b₂ ρ₂ hρ₂
    obtain ⟨ρ₃, ha₃, hρ₃⟩ := e₃ ρ₂ hcalm₃ hρ₂
      (flat_range (by omega) (by omega) (by omega) (by omega))
    have hkey₃ := hB.int_congr g₂.valid.world (g₂.subset hkey.mem) ha₃
    have hcol₃ := hB.int_congr g₂.valid.world u₂.mem ha₃
    obtain ⟨hflat', -, -⟩ := b₃ ρ₃ hρ₃
    have hposition : S.int ρ₃ flat = e.1 := by
      rw [hflat', ← hkey₃, ← hkey₂, ← hcol₃, hcol, ← hindex₂, hplace]
    obtain ⟨ρ₄, ha₄, hρ₄⟩ := e₄ ρ₃ hcalm hρ₃ ⟨e, he, hposition⟩
    exact ⟨ρ₄, ha₂.trans g₂.next_le (ha₃.trans g₃.next_le ha₄), hρ₄⟩

theorem entry_lowers (hB : Faithful B S c) (hc : IntegralCollections c) {t u key : Term Exact}
    {cid : NodeId} {lower : LowerM Exact ν σ (Handle ν)} (ht : EntryOf c origin t u cid key)
    (hu : Lowers S c origin u lower) :
    Lowers S c origin t (lowerEntry B c (.node cid .collection [key]) lower) := by
  intro G s h s' hw hr
  simp only [lowerEntry, runs_bind, runs_keyOf] at hr
  obtain ⟨_, s₀, ⟨rfl, rfl⟩, index, s₁, hindex, key', s₂, hlift, hr⟩ := hr
  obtain ⟨hok, rfl⟩ := runs_lift.mp hlift
  cases hok
  split at hr
  · rename_i x
    simp only [constantKey, runs_bind, runs_lift, runs_collection] at hr
    obtain ⟨k, _, ⟨hk, rfl⟩, xs, _, ⟨hxs, rfl⟩, hr⟩ := hr
    obtain ⟨ms, rfl⟩ := hc k xs hxs
    split at hr
    · simp [runs_bind] at hr
    simp only [runs_bind] at hr
    obtain ⟨hs, s₃, hhs, hr⟩ := hr
    obtain ⟨rfl, hall⟩ := runs_constants hB hhs
    refine hu.compute hB ht.isNode (computes_constant_entry hB hall) (fun a ρ r n ha hn => ?_)
      ht.ready (fun a ρ r ha hready => ?_) hw (runs_bind.mpr ⟨index, _, hindex, hr⟩)
    · exact ht.holds r ha (near_const x) (collects ht.wellBuilt (Reader.roundsTo_const hk) hxs) hn
    · obtain ⟨ys, hys, h1, hlen⟩ := ht.position r hready ha.means (Reader.roundsTo_const hk)
      obtain rfl : ys = _ := by simpa using hys.symm.trans hxs
      exact ⟨h1, by simpa using hlen⟩
  · simp only [runs_bind] at hr
    obtain ⟨⟨handle, keys⟩, s₃, hkd, hr⟩ := hr
    obtain ⟨G₁, g₁, w₁, u₁, -, b₁, e₁⟩ := hu hw hindex
    obtain ⟨first, last, G₂, rfl, hk⟩ := keyDomain_lowers hB w₁ (ht.wellBuilt.operand (by simp)) hkd
    obtain ⟨G₃, g₃, u₃, b₃, e₃⟩ := computes_entryByKey hB hc handle index hk.first_le hk.walked.valid
      (by simpa using ⟨hk.usable, u₁.mono hk.grows⟩) hr
    have g₁₂ := g₁.trans hk.grows
    refine ⟨G₃, g₁₂.trans g₃.toGrows, hk.walked.step g₃, u₃, membersKnown_node ht.isNode, ?_, ?_⟩
    · intro ρ r hρ hm
      have hρ₂ := g₃.admits ρ hρ
      have hm₁ := (matched_iff g₁.handles_eq).mpr hm
      have hkey := hk.means ρ r hρ₂ hm₁
      obtain ⟨hlast, ms, hread, hentry⟩ := b₃ ρ hρ
      refine ht.holds r (b₁ ρ r (hk.grows.admits ρ hρ₂) hm) (fun n hn hinf _ => ?_)
        (collects ht.wellBuilt hkey.roundsTo hread) hentry
      have hfar := hk.near hinf
      rw [hn.unique hkey]
      omega
    · have hcount : ∀ {r : Reader c.workspace c.model} {ρ : HandleId → V}, r.Ready origin t →
          Matched S s₀ ρ r → S.Admits ρ s₂ → ∀ k, r.Means origin key k →
            ∃ xs, Reader.CollectionAt c.workspace c.model k xs ∧ 1 ≤ S.int ρ index ∧
              S.int ρ index ≤ xs.length := fun hready hm hρ k hmeans =>
        ht.position _ hready (b₁ _ _ hρ hm).means hmeans.roundsTo
      have e₁₂ : S.Extends s₀ s₃ (ReadyAt S c origin s₀ [t]) := by
        refine e₁.trans g₁ hk.grows hk.extends_ ?_ ?_
        · rintro ρ - ⟨r, hm, hready⟩
          exact ⟨r, hm, by simpa using ht.ready r (hready t (by simp))⟩
        · rintro ρ ρ₁ - ⟨r, hm, hready⟩ ha hρ₁
          have hrt := hready t (by simp)
          have hm₁ := hm.congr hB hw ha
          refine ⟨r, (matched_iff g₁.handles_eq).mpr hm₁, ht.defined r hrt, hrt.bounded,
            ht.near r hrt, fun k hmeans => ?_⟩
          obtain ⟨xs, hxs, -⟩ := hcount hrt hm₁ hρ₁ k hmeans
          exact Reader.key_of_collectionAt hxs
      refine e₁₂.trans g₁₂ g₃.toGrows e₃ (fun _ _ h => h) ?_
      rintro ρ ρ₂ - ⟨r, hm, hready⟩ ha hρ₂
      have hrt := hready t (by simp)
      have hm₂ := hm.congr hB hw ha
      have hkey := hk.means ρ₂ r hρ₂ ((matched_iff g₁.handles_eq).mpr hm₂)
      obtain ⟨xs, hxs, hposition⟩ := hcount hrt hm₂ (hk.grows.admits ρ₂ hρ₂) _ hkey
      obtain ⟨h0, hlt⟩ := Reader.key_of_collectionAt hxs
      obtain ⟨hfirst, hlast⟩ := hk.range r _ hrt.bounded (ht.near r hrt) hkey h0 hlt
      exact ⟨hfirst, hlast, xs, hxs, hposition⟩

/-- What the entry at a position shows of the collection that it is read from. -/
theorem position_of_entry {w : Workspace Exact} {m : ModelId} {r : Reader w m} {cid : NodeId}
    {key : Term Exact} {a : Argument Exact} {p : Option Place} {i k : ℤ} {x : Reading Exact}
    (hkey : (Term.node cid .collection [key]).WellBuilt origin) (ha : r.Gives origin (a.value ()) i)
    (hk : r.RoundsTo origin key k)
    (h : Operator.evaluateEntry [a, r.argument p (.node cid .collection [key])] = .ok (some x)) :
    ∃ xs, Reader.CollectionAt w m k xs ∧ 1 ≤ i ∧ i ≤ xs.length := by
  obtain ⟨cc, hcc⟩ := Option.isSome_iff_exists.mp
    (Reader.collection_argument (r := r) p (.node cid .collection [key]))
  obtain ⟨xs, hxs, hi⟩ := Reader.position_of_entry_collection ha hcc h
  exact ⟨xs, Reader.collectionAt_of_values hkey hk hcc hxs, hi⟩

/-- The named operator takes the position first. -/
theorem entryOf_named {id cid : NodeId} {u key : Term Exact}
    (ht : (Term.node id (.custom "at") [u, .node cid .collection [key]]).WellBuilt origin) :
    EntryOf c origin (.node id (.custom "at") [u, .node cid .collection [key]]) u cid key := by
  have hmem : Term.node cid .collection [key] ∈ [u, .node cid .collection [key]] := by simp
  refine ⟨rfl, ht.operand hmem, fun r i n ms hu hn hms hi => ?_, fun r h => ?_, fun r h => ?_,
    fun r h => ?_, fun r i k h hi hk => ?_⟩
  · refine ⟨Reader.means_custom rfl ?_, near_operands cid (by simp) (by simp) hu.near hn⟩
    rw [arguments_pair]
    exact Reader.entry_collection (hu.means _ (stands_operand ht rfl)) (hms _) hi
  · exact h.operand (by simp) (by simp) (by simp)
  · exact (h.defined.operand hmem).operand (by simp)
  · exact h.near (.operand hmem (by simp) (by simp) .collection)
  · obtain ⟨x, hx⟩ := h.defined.custom rfl
    rw [arguments_pair] at hx
    exact position_of_entry (ht.operand hmem) (hi _ (stands_operand ht rfl)) hk hx

/-- The operator of indexing takes the collection first. -/
theorem entryOf_indexed {id cid : NodeId} {u key : Term Exact}
    (ht : (Term.node id .entry [.node cid .collection [key], u]).WellBuilt origin) :
    EntryOf c origin (.node id .entry [.node cid .collection [key], u]) u cid key := by
  have hmem : Term.node cid .collection [key] ∈ [.node cid .collection [key], u] := by simp
  refine ⟨rfl, ht.operand hmem, fun r i n ms hu hn hms hi => ?_, fun r h => ?_, fun r h => ?_,
    fun r h => ?_, fun r i k h hi hk => ?_⟩
  · refine ⟨Reader.means_node ?_, near_operands cid (by simp) (by simp) hu.near hn⟩
    rw [arguments_pair]
    exact Reader.entry_collection (hu.means _ (stands_operand ht rfl)) (hms _) hi
  · exact h.operand (by simp) (by simp) (by simp)
  · exact (h.defined.operand hmem).operand (by simp)
  · exact h.near (.operand hmem (by simp) (by simp) .collection)
  · obtain ⟨x, hx⟩ := h.defined.evaluate (by simp)
    rw [arguments_pair] at hx
    exact position_of_entry (ht.operand hmem) (hi _ (stands_operand ht rfl)) hk hx

end DecisionModel
