import DecisionModel.Proofs.CpSat.Arithmetic
import DecisionModel.Proofs.CpSat.Logic
import DecisionModel.Proofs.Lowering.Entry

/-!
# Selection for CP-SAT

A conditional is a new variable that equals one of two terms, by the literal of the condition
(`computes_conditional`). A lookup turns its index into an offset from the least position and reads
a list in which the gaps between the positions are filled; the index is kept out of the gaps
(`computes_lookup`).
-/

namespace DecisionModel.CpSat

open LowerM

variable {α : Type} {G G' : Set Expr} {s s' : CpSatState} {h k x y : Expr} {m n : ℤ}
  {ρ ρ' : HandleId → ℤ} {args hs : List Expr}

/-! ### Conditionals -/

/-- A new variable that equals one term where a literal is true and another where it is not. -/
theorem computes_choice (l t e : Expr) (hl : l.number? = none) :
    semantics.Computes (α := α) (do
      let result ← newInteger ((← boundsOf t).hull (← boundsOf e)) "ite"
      requireIf l (linear .eq result t)
      requireIf (← negation l) (linear .eq result e)
      return result) [l, t, e]
      (fun ρ n => (value ρ l = 1 → n = value ρ t) ∧ (value ρ l = 0 → n = value ρ e))
      fun _ => True := by
  have hpost : ∀ r : Expr, semantics.Imposes (α := α) (do
      requireIf l (linear .eq r t)
      requireIf (← negation l) (linear .eq r e)) [r, l, t, e]
      (fun ρ => (value ρ l = 1 → value ρ r = value ρ t) ∧ (value ρ l = 0 → value ρ r = value ρ e))
      fun ρ => value ρ r = if value ρ l = 0 then value ρ e else value ρ t := by
    intro r
    have htrue := posts_requireIf (α := α) (c := linear .eq r t)
      (show l ∈ [r, l, t, e] by simp) fun h hh => by
        rcases List.mem_pair.mp (handles_linear h hh) with rfl | rfl <;> simp
    have hfalse := posts_unless (α := α) (c := linear .eq r e)
      (show l ∈ [r, l, t, e] by simp) hl fun h hh => by
        rcases List.mem_pair.mp (handles_linear h hh) with rfl | rfl <;> simp
    refine (Posts.append htrue hfalse ?_).imposes.mono (fun ρ hρ => ?_) fun ρ hρ => ?_
    · intro G n ρ ρ' hw hargs ha hρ h0
      rw [← value_congr hw (hargs l (by simp)) ha] at h0
      exact Constraint.holds_congr (fun h hh => value_congr hw (hargs h (by
        rcases List.mem_pair.mp (handles_linear h hh) with rfl | rfl <;> simp)) ha) (hρ h0)
    · simpa [Comparison.Relates] using hρ
    · simp only [holds_linear, Comparison.Relates, hρ]
      exact ⟨fun h1 => by rw [if_neg (by omega)], fun h0 => if_pos h0⟩
  have hnew := computes_newInteger (α := α) [l, t, e] "ite"
    (fun s => (s.boundsOf t).hull (s.boundsOf e)) _
    (R := fun ρ n => (value ρ l = 1 → n = value ρ t) ∧ (value ρ l = 0 → n = value ρ e))
    (fun ρ => if value ρ l = 0 then value ρ e else value ρ t) ?_ hpost ?_
  · intro G s k s' hv hargs hr
    refine hnew hv hargs ?_
    simpa only [bind_assoc] using runs_boundsOf_both.mp hr
  · intro G s ρ hv hargs hc hρ
    split
    · exact (boundsOf_contains hv (hargs e (by simp)) hc hρ).hull_right
    · exact (boundsOf_contains hv (hargs t (by simp)) hc hρ).hull_left
  · intro G n ρ ρ' hw hargs ha
    rw [value_congr hw (hargs l (by simp)) ha, value_congr hw (hargs t (by simp)) ha,
      value_congr hw (hargs e (by simp)) ha]

theorem computes_conditional (x y z : Expr) : semantics.Computes (α := α) (conditional x y z) [x, y, z]
    (fun ρ n => n = if value ρ x = 0 then value ρ z else value ρ y) fun _ => True := by
  refine ((computes_truth x).of_subset _ (by simp)).bind (fun l => ?_)
    fun ρ l n hl (hn : (value ρ l = 1 → n = value ρ y) ∧ (value ρ l = 0 → n = value ρ z)) => ?_
  · split
    · rename_i n hn
      obtain rfl := Handle.eq_const hn
      by_cases h0 : n = 0
      · rw [if_pos h0]
        exact Semantics.computes_argument (by simp) fun ρ => by simp [h0, semantics]
      · rw [if_neg h0]
        exact Semantics.computes_argument (by simp) fun ρ => by simp [h0, semantics]
    · rename_i hl
      exact (computes_choice l y z hl).of_subset _ (by simp)
  by_cases h0 : value ρ x = 0
  · rw [if_pos h0]
    exact hn.2 (hl.trans (indicator_eq_zero.mpr (not_not.mpr h0)))
  · rw [if_neg h0]
    exact hn.1 (hl.trans (indicator_eq_one.mpr h0))

/-! ### Lookups -/

theorem positionRange_contains (first : ℤ) (rest : List ℤ) {k : ℤ} (hk : k ∈ first :: rest) :
    (positionRange first rest).1 ≤ k ∧ k ≤ (positionRange first rest).2 := by
  have hmin : ∀ m n : ℤ, (min m n = m ∨ min m n = n) ∧ min m n ≤ m ∧ min m n ≤ n :=
    fun m n => ⟨min_choice m n, min_le_left m n, min_le_right m n⟩
  have hmax : ∀ m n : ℤ, (max m n = m ∨ max m n = n) ∧ max m n ≥ m ∧ max m n ≥ n :=
    fun m n => ⟨max_choice m n, le_max_left m n, le_max_right m n⟩
  exact ⟨(foldl_best (· ≤ ·) hmin first rest).2 k hk, (foldl_best (· ≥ ·) hmax first rest).2 k hk⟩

/-- The offset of an index from the least position, as a new variable. -/
theorem computes_offset (index : Expr) (first last : ℤ) :
    semantics.Computes (α := α) (do
      let offset ← newInteger ⟨0, last - first⟩ "offset"
      let difference ← LowerM.sub index (.const first)
      require (linear .eq offset difference)
      return offset) [index] (fun ρ n => n = value ρ index - first)
      fun ρ => first ≤ value ρ index ∧ value ρ index ≤ last := by
  have hpost : ∀ offset : Expr, semantics.Imposes (α := α) (do
      let difference ← LowerM.sub index (.const first)
      require (linear .eq offset difference)) [offset, index]
      (fun ρ => value ρ offset = value ρ index - first)
      fun ρ => value ρ offset = value ρ index - first ∧
        (first ≤ value ρ index ∧ value ρ index ≤ last) := by
    intro offset G s s' hv hargs hr
    obtain ⟨d, s₁, hd, hr⟩ := runs_bind.mp hr
    have hsub : semantics.Derives (α := α) (LowerM.sub index (.const first)) [index, .const first]
        fun ρ n => n = value ρ index - value ρ (.const first) := derives_binary .sub fun _ _ => value_sub
    obtain ⟨G₁, g₁, u₁, b₁, e₁⟩ := hsub hv
      (by simpa using ⟨(hargs index (by simp)).toHeld, (usable_number hv first).toHeld⟩) hd
    have hoffset := (hargs offset (by simp)).toHeld
    obtain ⟨G₂, g₂, b₂, e₂⟩ := posts_require (α := α) _ (c := linear .eq offset d)
      handles_linear g₁.valid (by simpa using ⟨hoffset.mono g₁.toGrows, u₁⟩) hr
    have hvalue : ∀ ρ, semantics.Admits ρ s₁ → value ρ d = value ρ index - first := fun ρ hρ =>
      (b₁ ρ hρ).trans (by rw [value_const])
    refine ⟨G₂, g₁.trans g₂, fun ρ hρ => ?_, ?_⟩
    · exact (holds_linear.mp (b₂ ρ hρ)).trans (hvalue ρ (g₂.admits ρ hρ))
    · refine e₁.trans g₁.toGrows g₂.toGrows e₂ (fun _ _ _ => trivial) fun ρ ρ₁ _ hD ha hρ₁ => ?_
      refine holds_linear.mpr (Eq.trans ?_ (hvalue ρ₁ hρ₁).symm)
      rw [← value_congr hv.world hoffset.mem ha, hD.1,
        value_congr hv.world (hargs index (by simp)).mem ha]
  have hnew := computes_newInteger_where (α := α) [index] "offset" (fun _ => ⟨0, last - first⟩) _
    (R := fun ρ n => n = value ρ index - first) (fun ρ => value ρ index - first) ?_ hpost ?_
  · intro G s k s' hv hargs hr
    refine hnew hv hargs (runs_bind.mpr ⟨s.solver, s, by simp, ?_⟩)
    simpa only [bind_assoc] using hr
  · intro G s ρ _ _ _ _ hD
    exact ⟨by simpa using hD.1, by simpa using hD.2⟩
  · intro G n ρ ρ' hw hargs ha
    rw [value_congr hw (hargs index (by simp)) ha]
    exact ⟨rfl, fun h => h⟩

theorem foldl_hull_contains {b : Bounds} {bs : List Bounds} (h : ∃ a ∈ b :: bs, a.Contains n) :
    (bs.foldl Bounds.hull b).Contains n := by
  induction bs generalizing b with
  | nil => simpa using h
  | cons c bs ih =>
    obtain ⟨a, ha, hn⟩ := h
    refine ih ?_
    rcases List.mem_cons.mp ha with rfl | ha
    · exact ⟨_, List.mem_cons_self .., hn.hull_left⟩
    · rcases List.mem_cons.mp ha with rfl | ha
      · exact ⟨_, List.mem_cons_self .., hn.hull_right⟩
      · exact ⟨a, List.mem_cons_of_mem _ ha, hn⟩

/-- The interval around the bounds of several terms. -/
def boundsAround (vs : List Expr) : CpSatM α Bounds :=
  match vs with
  | [] => pure Bounds.all
  | v :: vs => combinedBounds Bounds.hull v vs

/-- The value of the term at an offset. -/
def valueAt (offset : Expr) (vs : List Expr) (ρ : HandleId → ℤ) : ℤ :=
  ((vs.map (value ρ))[(value ρ offset).toNat]?).getD 0

theorem valueAt_eq {offset : Expr} {vs : List Expr} {ρ : HandleId → ℤ} {k : ℕ} (hk : k < vs.length)
    (hoffset : value ρ offset = k) : valueAt offset vs ρ = value ρ vs[k] := by
  rw [valueAt, hoffset, Int.toNat_natCast, List.getElem?_map, List.getElem?_eq_getElem hk]
  rfl

/-- The value at an offset in a list, as a new variable. -/
theorem computes_elementAt (offset : Expr) (vs : List Expr) (hvs : vs ≠ []) :
    semantics.Computes (α := α) (do
      let bounds ← boundsAround vs
      let result ← newInteger bounds "element"
      require (.element offset vs result)
      return result) (offset :: vs)
      (fun ρ n => ∃ (k : ℕ) (v : Expr), value ρ offset = k ∧ vs[k]? = some v ∧ n = value ρ v)
      fun ρ => ∃ k : ℕ, value ρ offset = k ∧ k < vs.length := by
  obtain ⟨v, vs, rfl⟩ := List.exists_cons_of_ne_nil hvs
  have hnew := computes_newInteger_where (α := α) (offset :: v :: vs) "element"
    (fun t => (vs.map t.boundsOf).foldl Bounds.hull (t.boundsOf v))
    (fun r => require (.element offset (v :: vs) r))
    (R := fun ρ n => ∃ (k : ℕ) (u : Expr), value ρ offset = k ∧ (v :: vs)[k]? = some u ∧
      n = value ρ u)
    (D := fun ρ => ∃ k : ℕ, value ρ offset = k ∧ k < (v :: vs).length)
    (valueAt offset (v :: vs)) ?_ ?_ ?_
  · simpa [boundsAround, combinedBounds] using hnew
  · rintro G s ρ hv hargs hc hρ ⟨k, hoffset, hk⟩
    rw [valueAt_eq hk hoffset]
    refine foldl_hull_contains ⟨s.solver.boundsOf (v :: vs)[k], ?_, ?_⟩
    · rw [← List.map_cons]
      exact List.mem_map_of_mem (List.getElem_mem hk)
    · exact boundsOf_contains hv (hargs _ (List.mem_cons_of_mem _ (List.getElem_mem hk))) hc hρ
  · intro r
    refine (posts_require _ ?_).imposes.mono (fun ρ hρ => hρ) ?_
    · intro h hh
      simp only [Constraint.handles, List.mem_cons] at hh ⊢
      tauto
    · rintro ρ ⟨hvalue, k, hoffset, hk⟩
      exact ⟨k, _, hoffset, List.getElem?_eq_getElem hk, hvalue.trans (valueAt_eq hk hoffset)⟩
  · intro G n ρ ρ' hw hargs ha
    have hoffset := value_congr hw (hargs offset (by simp)) ha
    have hvalues : (v :: vs).map (value ρ) = (v :: vs).map (value ρ') :=
      List.map_congr_left fun u hu => value_congr hw (hargs u (List.mem_cons_of_mem _ hu)) ha
    exact ⟨by rw [valueAt, valueAt, hoffset, hvalues], by rw [hoffset]; exact fun h => h⟩

/-- What counts at a position: the last entry there, or the filler where there is none. -/
def entryAt (entries : List (ℤ × Expr)) (filler : Expr) (p : ℤ) : Expr :=
  ((entries.reverse.find? (·.1 = p)).map (·.2)).getD filler

theorem entryAt_mem {entries : List (ℤ × Expr)} {filler : Expr}
    (hfiller : filler ∈ entries.map (·.2)) (p : ℤ) : entryAt entries filler p ∈ entries.map (·.2) := by
  unfold entryAt
  cases hfind : entries.reverse.find? (·.1 = p) with
  | none => exact hfiller
  | some e => exact List.mem_map_of_mem (List.mem_reverse.mp (List.mem_of_find?_eq_some hfind))

theorem exists_entry {entries : List (ℤ × Expr)} {p : ℤ} (hp : p ∈ entries.map (·.1))
    (filler : Expr) : ∃ e ∈ entries, e.1 = p ∧ entryAt entries filler p = e.2 := by
  obtain ⟨e, he, rfl⟩ := List.mem_map.mp hp
  have hsome : (entries.reverse.find? (·.1 = e.1)).isSome :=
    List.find?_isSome.mpr ⟨e, List.mem_reverse.mpr he, by simp⟩
  obtain ⟨e', he'⟩ := Option.isSome_iff_exists.mp hsome
  refine ⟨e', List.mem_reverse.mp (List.mem_of_find?_eq_some he'), ?_, by rw [entryAt, he']; rfl⟩
  simpa using List.find?_some he'

/-- The value at the place of an index in a list that starts at `first`. -/
theorem computes_selected (index : Expr) (first last : ℤ) (vs : List Expr) (hle : first ≤ last)
    (hlen : vs.length = (last - first + 1).toNat) :
    semantics.Computes (α := α) (do
      let offset ← newInteger ⟨0, last - first⟩ "offset"
      let difference ← LowerM.sub index (.const first)
      require (linear .eq offset difference)
      let bounds ← boundsAround vs
      let result ← newInteger bounds "element"
      require (.element offset vs result)
      return result) (index :: vs)
      (fun ρ n => ∃ (k : ℕ) (v : Expr), value ρ index = first + k ∧ vs[k]? = some v ∧ n = value ρ v)
      fun ρ => first ≤ value ρ index ∧ value ρ index ≤ last := by
  have hvs : vs ≠ [] := by
    rintro rfl
    simp only [List.length_nil] at hlen
    omega
  have hparts := ((computes_offset (α := α) index first last).of_subset (index :: vs)
    (by simp)).bind_where
    (Q := fun ρ n => ∃ (k : ℕ) (v : Expr), value ρ index = first + k ∧ vs[k]? = some v ∧
      n = value ρ v)
    (D := fun ρ => first ≤ value ρ index ∧ value ρ index ≤ last)
    (fun offset => (computes_elementAt offset vs hvs).of_subset _ fun a ha => by
      rcases List.mem_cons.mp ha with rfl | ha <;> simp [*])
    (fun ρ offset n hoffset hn => ?_) (fun ρ h => h) ?_
  · intro G s h s' hv hargs hr
    refine hparts hv hargs ?_
    simpa only [bind_assoc, pure_bind] using hr
  · obtain ⟨k, v, hk, hv, rfl⟩ := hn
    refine ⟨k, v, ?_, hv, rfl⟩
    rw [← hk]
    linarith [show value ρ offset = value ρ index - first from hoffset]
  · intro G n ρ ρ' offset hw hargs ha hoffset hD
    have hindex := value_congr hw (hargs index (by simp)) ha
    have hvalue : value ρ' offset = value ρ' index - first := hoffset
    refine ⟨(value ρ' offset).toNat, ?_, ?_⟩
    · rw [hvalue, ← hindex]
      omega
    · rw [hvalue, ← hindex]
      omega

theorem computes_lookup (index : Expr) (entries : List (ℤ × Expr)) :
    semantics.Computes (α := α) (lookup index entries) (index :: entries.map (·.2))
      (fun ρ n => ∃ e ∈ entries, value ρ index = e.1 ∧ n = value ρ e.2)
      fun ρ => ∃ e ∈ entries, value ρ index = e.1 := by
  cases entries with
  | nil =>
    intro G s h s' _ _ hr
    exact absurd hr runs_fail
  | cons entry rest =>
    obtain ⟨position, filler⟩ := entry
    obtain ⟨entries, hentries⟩ : ∃ es, es = (position, filler) :: rest := ⟨_, rfl⟩
    obtain ⟨first, last, hrange⟩ : ∃ first last,
        positionRange position (rest.map (·.1)) = (first, last) := ⟨_, _, rfl⟩
    have hcontains : ∀ e ∈ entries, first ≤ e.1 ∧ e.1 ≤ last := by
      intro e he
      have h := positionRange_contains position (rest.map (·.1)) (k := e.1) (by
        rw [← List.map_cons (f := fun e : ℤ × Expr => e.1) (a := (position, filler)), ← hentries]
        exact List.mem_map_of_mem he)
      rwa [hrange] at h
    have hle : first ≤ last := by
      have h := hcontains (position, filler) (by simp [hentries])
      omega
    intro G s h s' hv hargs hr
    simp only [lookup, hrange, ← hentries] at hr hargs ⊢
    obtain ⟨_, s₁, hdomain, hr⟩ := runs_bind.mp hr
    obtain ⟨vs, s₂, hvs, hr⟩ := runs_bind.mp hr
    obtain ⟨G₁, g₁, b₁, e₁⟩ := posts_require (α := α) _
      (c := .inDomain index (ascending (entries.map (·.1))) false)
      (fun a (ha : a ∈ [index]) => ha) hv (by simpa using (hargs index (by simp)).toHeld) hdomain
    have hfiller : filler ∈ entries.map (·.2) := by simp [hentries]
    obtain ⟨G₂, g₂, hvs, e₂⟩ := Semantics.steps_mapM (S := semantics) id (index :: entries.map (·.2))
      (K := fun _ _ => True) (P := fun p v ρ => value ρ v = value ρ (entryAt entries filler p))
      (fun p _ G s v s' hv hargs hr => by
        obtain ⟨G₁, g₁, u₁, b₁, e₁⟩ := computes_asVariable (entryAt entries filler p) hv (by
          simpa using hargs _ (List.mem_cons_of_mem _ (entryAt_mem hfiller p))) hr
        exact ⟨trivial, G₁, g₁, u₁, b₁, e₁⟩) g₁.valid
      (fun a ha => (hargs a ha).mono g₁.toGrows) hvs
    have hlen : vs.length = (last - first + 1).toNat := by
      rw [← hvs.length_eq, length_keyRange]
    have husable : ∀ a ∈ index :: vs, semantics.Usable G₂ s₂ a := by
      intro a ha
      rcases List.mem_cons.mp ha with rfl | ha
      · exact (hargs _ (by simp)).mono (g₁.trans g₂).toGrows
      · obtain ⟨k, hk⟩ := List.mem_iff_getElem?.mp ha
        obtain ⟨_, -, -, hu, -⟩ := forall₂_getElem?_right hvs hk
        exact hu
    obtain ⟨G₃, g₃, u₃, b₃, e₃⟩ := computes_selected index first last vs hle hlen g₂.valid husable
      (by cases vs <;> exact hr)
    refine ⟨G₃, g₁.trans (g₂.trans g₃), u₃, fun ρ hρ => ?_, ?_⟩
    · have hρ₂ := g₃.admits ρ hρ
      obtain ⟨k, v, hindex, hk, hvalue⟩ := b₃ ρ hρ
      have hdom : value ρ index ∈ entries.map (·.1) := by
        simpa [Constraint.Holds, mem_ascending] using b₁ ρ (g₂.admits ρ hρ₂)
      obtain ⟨e, he, hposition, hentry⟩ := exists_entry hdom filler
      obtain ⟨p, hp, -, -, hv⟩ := forall₂_getElem?_right hvs hk
      obtain ⟨rfl, -⟩ := getElem?_keyRange.mp hp
      refine ⟨e, he, hposition.symm, hvalue.trans ((hv ρ hρ₂).trans ?_)⟩
      rw [← hindex, ← hentry]
    · refine e₁.trans g₁.toGrows (g₂.trans g₃).toGrows
        (e₂.trans g₂.toGrows g₃.toGrows e₃ (fun _ _ _ => trivial)
          (D := fun ρ => first ≤ value ρ index ∧ value ρ index ≤ last) ?_) ?_ ?_
      · intro ρ ρ₁ _ hD ha _
        rw [← value_congr g₁.valid.world (g₁.subset (hargs index (by simp)).mem) ha]
        exact hD
      · rintro ρ _ ⟨e, he, hposition⟩
        have hmem : value ρ index ∈ entries.map (·.1) := hposition ▸ List.mem_map_of_mem he
        simpa [Constraint.Holds, mem_ascending] using hmem
      · rintro ρ ρ₁ _ ⟨e, he, hposition⟩ ha _
        rw [← value_congr hv.world (hargs index (by simp)).mem ha, show value ρ index = _ from hposition]
        exact hcontains e he

end DecisionModel.CpSat
