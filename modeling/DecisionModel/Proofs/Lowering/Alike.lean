import DecisionModel.Proofs.Lowering.Circulation
import DecisionModel.Table

/-!
# The walk in circulation

With two back-ends whose operations are alike, the whole walk over a model is alike, and no handle gets
out of circulation on the way (`Backend.alike_translate`, `Backend.alike_post`,
`Backend.alike_lowerModel`). The cases are those of the walk itself.
-/

namespace DecisionModel

open LowerM

variable {α ν σ V β γ : Type}

/-- An operand of the two walks: the same term, lowered alike at every stage. -/
structure Operand.Agree (Own : Stage ν V → Nat → σ → Prop) (o o' : Operand α ν σ) : Prop where
  term : o'.term = o.term
  lower (w : Stage ν V) : Alike Own w o.lower o'.lower Stage.Has

namespace Backend

variable {Own : Stage ν V → Nat → σ → Prop} [Circulation Own] {w w' : Stage ν V}
  {s s' : LoweringState ν σ} {c : Context α} {B B' : Backend α ν σ} {D : Creatable α}

/-! ### Collections -/

section

variable [Numeral ν]

theorem alike_element (hB : B.Agree B' Own D) {index : Handle ν} {entries : List (Int × Handle ν)}
    (hindex : w.Has index) (hentries : ∀ e ∈ entries, w.Has e.2) :
    Alike Own w (B.element index entries) (B'.element index entries) Stage.Has := by
  unfold Backend.element
  cases index.number? with
  | none => exact hB.lookup hindex hentries
  | some x =>
    refine alike_bind (alike_lift _) fun w₁ hw₁ position _ => ?_
    split
    · rename_i h hfound
      exact alike_pure ((hentries (position, h) (Table.mem_of_get? hfound)).mono hw₁)
    · split
      · exact alike_fail _
      · exact alike_fail _

end

omit [Circulation Own] in
/-- The handle of a variable is in circulation. -/
theorem alike_variableHandle (c : Context α) (v : VarId) :
    Alike Own w (variableHandle c v : LowerM α ν σ (Handle ν)) (variableHandle c v) Stage.Has := by
  refine alike_look fun s hs => ?_
  split
  · rename_i h hfound
    exact alike_pure (hs.handles (Table.mem_of_get? hfound))
  · exact alike_fail _

omit [Circulation Own] in
/-- What was lowered before is in circulation, and what is lowered now enters the memo. -/
theorem alike_memoized {id : NodeId} {run run' : LowerM α ν σ (Handle ν)}
    (h : Alike Own w run run' Stage.Has) :
    Alike Own w (memoized id run) (memoized id run') Stage.Has := by
  refine alike_look fun s hs => ?_
  split
  · rename_i h hfound
    exact alike_pure (hs.memo (Table.mem_of_get? hfound))
  · refine alike_bind h fun w₁ _ k hk => ?_
    refine alike_bind (Q := Stage.Admits) (alike_modify fun s₁ hs₁ => ?_) fun w₂ hw₂ _ _ => ?_
    · refine ⟨w₁, le_rfl, ⟨hs₁.handles, fun hp => ?_, hs₁.own⟩, trivial⟩
      rcases List.mem_cons.mp hp with rfl | hp
      · exact hk
      · exact hs₁.memo hp
    · exact alike_pure (hk.mono hw₂)

theorem alike_assumedHandle [Scalar α] (c : Context α) (v : VarId) :
    Alike Own w (assumedHandle c v : LowerM α ν σ (Handle ν)) (assumedHandle c v) Stage.Has := by
  refine alike_look fun s hs => ?_
  split
  · rename_i h hfound
    exact alike_pure (hs.handles (Table.mem_of_get? hfound))
  · exact alike_bind (alike_lift _) fun _ _ _ _ => alike_fail _

/-- Entries whose handles are those of a list. -/
theorem has_mapIdx {f : Nat → Int} {hs : List (Handle ν)} (hhs : w.HasAll hs) :
    ∀ e ∈ hs.mapIdx fun i h => (f i, h), w.Has e.2 := by
  intro e he
  obtain ⟨i, hi, rfl⟩ := List.mem_mapIdx.mp he
  exact hhs _ (List.getElem_mem hi)

variable [Scalar α]

theorem alike_collection (c : Context α) (key : Int) :
    Alike Own w (c.collection key : LowerM α ν σ (List α)) (c.collection key) Stage.Admits :=
  alike_of_untouched (keeps_collection c key)

omit [Scalar α] in
theorem alike_keyOf (c : Context α) (t : Term α) :
    Alike Own w (keyOf c t : LowerM α ν σ (Except Fault (Term α))) (keyOf c t) Stage.Admits :=
  alike_of_untouched (keeps_keyOf c t)

theorem alike_aggregateValue (name : String) (xs : List α) (key : Int) :
    Alike Own w (aggregateValue name xs key : LowerM α ν σ α) (aggregateValue name xs key)
      Stage.Admits := alike_of_untouched (keeps_aggregateValue name xs key)

variable [Numeral ν]

theorem alike_lowerSelected (hB : B.Agree B' Own D) (f : FamilyId) (i : VarId) :
    Alike Own w (lowerSelected B c f i) (lowerSelected B' c f i) Stage.Has := by
  refine alike_bind (alike_mapM_has fun w' _ v _ => alike_assumedHandle c v) fun w₁ _ members hm => ?_
  refine alike_when (alike_fail _) fun w₂ hw₂ => ?_
  refine alike_bind (alike_variableHandle c i) fun w₃ hw₃ index hindex => ?_
  exact alike_element hB hindex (has_mapIdx (hm.mono (hw₂.trans hw₃)))

omit [Numeral ν] in
/-- The keys within some bounds are a range that is not empty. -/
theorem alike_keysWithin (c : Context α) (key : Term α) (lower upper : α) :
    Alike Own w (keysWithin c key lower upper : LowerM α ν σ (ℤ × ℤ))
      (keysWithin c key lower upper) fun _ p => p.1 ≤ p.2 := by
  refine alike_bind (alike_lift _) fun w₁ _ least _ => alike_bind (alike_lift _) fun w₂ _ most _ => ?_
  refine alike_dec (fun _ => ?_) fun hle => alike_pure (not_lt.mp hle)
  exact alike_bind (alike_lift _) fun _ _ _ _ => alike_bind (alike_fail _) fun _ _ _ h => h

omit [Numeral ν] in
theorem alike_variableKeys (c : Context α) (v : VarId) :
    Alike Own w (variableKeys c v : LowerM α ν σ (ℤ × ℤ)) (variableKeys c v)
      fun _ p => p.1 ≤ p.2 := by
  unfold variableKeys
  split
  · exact alike_keysWithin c _ _ _
  · exact alike_fail _

omit [Numeral ν] in
theorem alike_selectedKeys (c : Context α) (id : NodeId) (f : FamilyId) (i : VarId) :
    Alike Own w (selectedKeys c id f i : LowerM α ν σ (ℤ × ℤ)) (selectedKeys c id f i)
      fun _ p => p.1 ≤ p.2 := by
  unfold selectedKeys
  split
  · exact alike_fail _
  · exact alike_keysWithin c _ _ _

theorem length_keyRange_pos {first last : ℤ} (hle : first ≤ last) :
    0 < (keyRange first last).length := by
  simp only [keyRange, List.length_map, List.length_range]
  omega

theorem alike_keyDomain (hB : B.Agree B' Own D) (key : Term α) :
    Alike Own w (keyDomain B c key) (keyDomain B' c key) fun w p => w.Has p.1 ∧ 0 < p.2.length := by
  unfold keyDomain
  dsimp only
  refine alike_whenAfter (alike_lift _) (fun _ _ _ => alike_fail _) fun w₁ _ => ?_
  cases key.unwrapped with
  | var v =>
    refine alike_bind (alike_variableKeys c v) fun w₂ _ keys hkeys => ?_
    exact alike_bind (alike_variableHandle c v) fun w₃ _ h hh =>
      alike_pure ⟨hh, length_keyRange_pos hkeys⟩
  | selected id f i =>
    refine alike_bind (alike_selectedKeys c id f i) fun w₂ _ keys hkeys => ?_
    refine alike_bind (hB.newInteger _ hkeys) fun w₃ _ h hh => ?_
    refine alike_bind (alike_memoized (alike_lowerSelected hB f i)) fun w₄ hw₄ value hvalue => ?_
    exact alike_bind (hB.postEqual (hh.mono hw₄) hvalue) fun w₅ hw₅ _ _ =>
      alike_pure ⟨hh.mono (hw₄.trans hw₅), length_keyRange_pos hkeys⟩
  | _ => exact alike_bind (alike_lift _) fun _ _ _ _ => alike_fail _

theorem alike_lowerAggregate (hB : B.Agree B' Own D) (name : String) (t : Term α) :
    Alike Own w (lowerAggregate B c name t) (lowerAggregate B' c name t) Stage.Has := by
  refine alike_bind (alike_keyOf c t) fun w₁ _ key _ => ?_
  refine alike_bind (alike_lift _) fun w₂ _ key _ => ?_
  split
  · refine alike_bind (alike_lift _) fun w₃ _ k _ => ?_
    refine alike_bind (alike_collection c _) fun w₄ _ xs _ => ?_
    exact alike_bind (alike_aggregateValue _ _ _) fun w₅ _ x _ => hB.constant x
  · refine alike_bind (alike_keyDomain hB _) fun w₃ _ domain ⟨hdomain, _⟩ => ?_
    refine alike_bind (alike_mapM_all persists_entry fun w' _ k _ => ?_)
      fun w₄ hw₄ entries hentries => ?_
    · refine alike_bind (alike_collection c _) fun w₅ _ xs _ => ?_
      refine alike_bind (alike_aggregateValue _ _ _) fun w₆ _ x _ => ?_
      exact alike_bind (hB.constant x) fun w₇ _ h hh => alike_pure hh
    · exact alike_bind (alike_log _ _ _) fun w₅ hw₅ _ _ => alike_element hB
        (hdomain.mono (hw₄.trans hw₅)) fun e he => (hentries e he).mono hw₅

theorem alike_membershipByKey (hB : B.Agree B' Own D) {key : Handle ν} (hkey : w.Has key)
    (keys : List Int) {value value' : LowerM α ν σ (Handle ν)}
    (hvalue : Alike Own w value value' Stage.Has) :
    Alike Own w (membershipByKey B c key keys value) (membershipByKey B' c key keys value')
      Stage.Has := by
  refine alike_bind hvalue fun w₁ hw₁ h hh => ?_
  refine alike_bind (alike_mapM_all persists_entry fun w₂ hw₂ k _ => ?_)
    fun w₂ hw₂ entries hentries => ?_
  · refine alike_bind (alike_collection c _) fun w₃ hw₃ xs _ => ?_
    refine alike_bind (alike_mapM_all persists_hasAny fun _ _ x _ => hB.constant? x) ?_
    intro w₄ hw₄ members hmembers
    refine alike_bind (hB.membership (hh.mono (hw₂.trans (hw₃.trans hw₄))) hmembers) ?_
    exact fun w₅ _ k hk => alike_pure hk
  · exact alike_element hB (hkey.mono (hw₁.trans hw₂)) hentries

theorem alike_lowerMembership (hB : B.Agree B' Own D) {value value' : Operand α ν σ}
    (hvalue : value.Agree Own value') (t : Term α) :
    Alike Own w (lowerMembership B c value t) (lowerMembership B' c value' t) Stage.Has := by
  unfold lowerMembership
  rw [hvalue.term]
  refine alike_bind (alike_keyOf c t) fun w₁ _ key _ => ?_
  refine alike_bind (alike_lift _) fun w₂ _ key _ => ?_
  split
  · refine alike_bind (alike_lift _) fun w₃ _ k _ => ?_
    refine alike_bind (alike_collection c _) fun w₄ _ xs _ => ?_
    cases value.term with
    | const y => exact hB.constant _
    | _ =>
      refine alike_bind (hvalue.lower _) fun w₅ _ h hh => ?_
      refine alike_bind (alike_mapM_all persists_hasAny fun _ _ x _ => hB.constant? x) ?_
      exact fun w₆ hw₆ members hmembers => hB.membership (hh.mono hw₆) hmembers
  · refine alike_bind (alike_keyDomain hB _) fun w₃ _ ⟨handle, keys⟩ ⟨hhandle, _⟩ => ?_
    dsimp only
    split
    · refine alike_bind (alike_mapM_all persists_entry fun w' _ k _ => ?_) fun w₄ hw₄ entries hentries =>
        alike_element hB (hhandle.mono hw₄) hentries
      refine alike_bind (alike_collection c _) fun w₅ _ xs _ => ?_
      exact alike_bind (hB.constant _) fun w₆ _ h hh => alike_pure hh
    · rename_i v _ _
      have hencode := hB.keyedMembership? c keys v hhandle
      generalize B.keyedMembership? c handle keys v = o at hencode ⊢
      generalize B'.keyedMembership? c handle keys v = o' at hencode ⊢
      cases hencode with
      | some h => exact h
      | none => exact alike_membershipByKey hB hhandle _ (hvalue.lower _)
    · exact alike_membershipByKey hB hhandle _ (hvalue.lower _)

omit [Scalar α] in
theorem alike_columnOf (hB : B.Agree B' Own D) {width : ℕ} (hwidth : 0 < width) {index : Handle ν}
    (hindex : w.Has index) :
    Alike Own w (columnOf B width index) (columnOf B' width index) Stage.Has := by
  unfold columnOf
  cases index.number? with
  | none =>
    refine alike_bind (hB.newInteger _ (by omega)) fun w₁ hw₁ column hcolumn => ?_
    exact alike_bind (hB.postEqual hcolumn (hindex.mono hw₁)) fun w₂ hw₂ _ _ =>
      alike_pure (hcolumn.mono hw₂)
  | some x =>
    refine alike_bind (alike_lift _) fun w₁ hw₁ position _ => alike_when (alike_fail _) ?_
    exact fun w₂ hw₂ => alike_pure (hindex.mono (hw₁.trans hw₂))

omit [Circulation Own] [Scalar α] in
/-- Where any node circulates, so do those of the index. -/
theorem alike_flatIndex [OpenCirculation Own] {key column : Handle ν}
    (hinteger : ∀ {w} (lower upper : ℤ) (hint : String), Alike Own w (B.newInteger lower upper hint)
      (B'.newInteger lower upper hint) Stage.Has)
    (hequal : ∀ {w x y}, w.Has x → w.Has y →
      Alike Own w (B.postEqual x y) (B'.postEqual x y) Stage.Admits)
    (count width : ℕ) (firstKey : ℤ) (hkey : w.Has key) (hcolumn : w.Has column) :
    Alike Own w (flatIndex B count width firstKey key column)
      (flatIndex B' count width firstKey key column) Stage.Has := by
  refine alike_bind (hinteger _ _ _) fun w₁ hw₁ flat hflat => ?_
  refine alike_bind (alike_sub (hkey.mono hw₁) (Stage.has_const _ _)) fun w₂ hw₂ row hrow => ?_
  refine alike_bind (alike_mul hrow (Stage.has_const _ _)) fun w₃ hw₃ start hstart => ?_
  refine alike_bind (alike_add hstart (hcolumn.mono (hw₁.trans (hw₂.trans hw₃)))) ?_
  intro w₄ hw₄ sum hsum
  refine alike_bind (alike_sub hsum (Stage.has_const _ _)) fun w₅ hw₅ position hposition => ?_
  have hflat₅ := hflat.mono (hw₂.trans (hw₃.trans (hw₄.trans hw₅)))
  exact alike_bind (hequal hflat₅ hposition) fun w₆ hw₆ _ _ => alike_pure (hflat₅.mono hw₆)

omit [Numeral ν] in
theorem has_flatEntries {width : Nat} {tables : List (List (Handle ν))}
    (htables : ∀ table ∈ tables, w.HasAll table) : ∀ e ∈ flatEntries width tables, w.Has e.2 := by
  intro e he
  obtain ⟨rows, hrows, he⟩ := List.mem_flatten.mp he
  obtain ⟨i, hi, rfl⟩ := List.mem_mapIdx.mp hrows
  exact has_mapIdx (htables _ (List.getElem_mem hi)) e he

theorem alike_entryByKey (hB : B.Agree B' Own D) {key index : Handle ν} (hkey : w.Has key)
    {keys : List Int} (hkeys : 0 < keys.length) (hindex : w.Has index) :
    Alike Own w (entryByKey B c key keys index) (entryByKey B' c key keys index) Stage.Has := by
  refine alike_bind (alike_of_untouched (keeps_mapM fun k _ => keeps_collection c k)) ?_
  intro w₁ hw₁ tables _
  refine alike_dec (fun _ => alike_bind (alike_fail _) fun _ _ _ h => h) fun hwidth => ?_
  have hpos := Nat.pos_of_ne_zero hwidth
  refine alike_bind (alike_columnOf hB hpos (hindex.mono hw₁)) fun w₃ hw₃ column hcolumn => ?_
  refine alike_bind (hB.flatIndex _ hkeys hpos (hkey.mono (hw₁.trans hw₃)) hcolumn) ?_
  intro w₄ hw₄ flat hflat
  refine alike_bind (alike_mapM_all persists_hasAll fun _ _ table _ => ?_)
    fun w₅ hw₅ tables htables => ?_
  · exact alike_mapM_has fun _ _ x _ => hB.constant x
  · exact hB.lookup (hflat.mono hw₅) (has_flatEntries htables)

theorem alike_lowerEntry (hB : B.Agree B' Own D) (t : Term α) {index index' : LowerM α ν σ (Handle ν)}
    (hindex : ∀ w, Alike Own w index index' Stage.Has) :
    Alike Own w (lowerEntry B c t index) (lowerEntry B' c t index') Stage.Has := by
  refine alike_bind (alike_keyOf c t) fun w₁ _ key _ => alike_bind (hindex w₁) fun w₂ _ h hh => ?_
  refine alike_bind (alike_lift _) fun w₃ hw₃ key _ => ?_
  split
  · refine alike_bind (alike_lift _) fun w₄ hw₄ k _ => ?_
    refine alike_bind (alike_collection c _) fun w₅ hw₅ xs _ => ?_
    refine alike_when (alike_fail _) fun w₆ hw₆ => ?_
    refine alike_bind (alike_mapM_has fun _ _ x _ => hB.constant x) fun w₇ hw₇ handles hhandles => ?_
    exact alike_element hB (hh.mono (hw₃.trans (hw₄.trans (hw₅.trans (hw₆.trans hw₇)))))
      (has_mapIdx hhandles)
  · exact alike_bind (alike_keyDomain hB _) fun w₄ hw₄ domain ⟨hdomain, hkeys⟩ =>
      alike_entryByKey hB hdomain hkeys (hh.mono (hw₃.trans hw₄))

/-! ### Terms -/

section

variable {operands operands' : List (Operand α ν σ)}
  (ho : List.Forall₂ (Operand.Agree Own) operands operands')

omit [Circulation Own] [Scalar α] [Numeral ν] in
include ho in
theorem rel_getElem? (position : Nat) :
    Option.Rel (Operand.Agree Own) operands[position]? operands'[position]? := by
  induction ho generalizing position with
  | nil => exact .none
  | cons h _ ih =>
    cases position with
    | zero => exact .some h
    | succ position => exact ih position

omit [Circulation Own] [Scalar α] [Numeral ν] in
include ho in
/-- A step with the operand at a position, if there is one. -/
theorem alike_withNth (position : Nat) {f f' : Operand α ν σ → LowerM α ν σ β}
    {Q : Stage ν V → β → Prop} (hf : ∀ o o', Operand.Agree Own o o' → Alike Own w (f o) (f' o') Q) :
    Alike Own w (Operand.nth operands position >>= f) (Operand.nth operands' position >>= f') Q := by
  have hrel := rel_getElem? ho position
  unfold Operand.nth
  generalize operands[position]? = o at hrel ⊢
  generalize operands'[position]? = o' at hrel ⊢
  cases hrel with
  | some h => exact hf _ _ h
  | none => exact alike_fail _

omit [Circulation Own] [Scalar α] [Numeral ν] in
include ho in
theorem alike_lowerNth (position : Nat) (w : Stage ν V) :
    Alike Own w (Operand.lowerNth operands position) (Operand.lowerNth operands' position)
      Stage.Has := alike_withNth ho position fun _ _ h => h.lower w

omit [Circulation Own] [Scalar α] [Numeral ν] in
include ho in
theorem alike_lowerAll (w : Stage ν V) :
    Alike Own w (lowerAll operands) (lowerAll operands') Stage.HasAll := by
  unfold lowerAll
  induction ho generalizing w with
  | nil => exact alike_pure (Stage.hasAll_nil w)
  | cons h _ ih =>
    rw [List.mapM_cons, List.mapM_cons]
    refine alike_bind (h.lower w) fun w₁ _ x hx => alike_bind (ih w₁) fun w₂ hw₂ xs hxs => ?_
    exact alike_pure (Stage.hasAll_cons.mpr ⟨hx.mono hw₂, hxs⟩)

omit [Circulation Own] [Scalar α] [Numeral ν] in
include ho in
theorem alike_chain {f f' : Handle ν → Handle ν → LowerM α ν σ (Handle ν)}
    (hf : ∀ w x y, Stage.Has w x → w.Has y → Alike Own w (f x y) (f' x y) Stage.Has) :
    Alike Own w (chain f operands) (chain f' operands') Stage.Has := by
  unfold chain
  cases ho with
  | nil => exact alike_fail _
  | cons h hrest =>
    refine alike_bind (h.lower w) fun w₁ hw x hx => ?_
    clear h hw
    induction hrest generalizing w₁ x with
    | nil => exact alike_pure hx
    | cons h _ ih =>
      rw [List.foldlM_cons, List.foldlM_cons]
      refine alike_bind (alike_bind (h.lower w₁) fun w₂ hw₂ y hy => hf w₂ x y (hx.mono hw₂) hy) ?_
      exact fun w₃ _ z hz => ih w₃ z hz

include ho in
theorem alike_lowerInline (hB : B.Agree B' Own D) (name : String) :
    Alike Own w (lowerInline B name operands) (lowerInline B' name operands') Stage.Has := by
  have hnth := alike_lowerNth ho
  have hadd := alike_chain (w := w) ho fun w x y => hB.add (w := w) (x := x) (y := y)
  have hempty : operands'.isEmpty = operands.isEmpty := by cases ho <;> rfl
  have htail : List.Forall₂ (Operand.Agree Own) operands.tail operands'.tail := by
    cases ho with
    | nil => exact .nil
    | cons _ h => exact h
  unfold lowerInline
  rw [ho.length_eq, hB.name, hempty]
  split
  · exact hB.constant _
  · exact alike_ite (hB.constant _) hadd
  · refine alike_bind hadd fun w₁ _ total htotal => alike_bind (hB.constant _) fun w₂ hw₂ n hn => ?_
    exact hB.divide (htotal.mono hw₂) hn
  · exact alike_bind (alike_lowerAll ho w) fun w₁ _ hs hhs => hB.minimum hhs
  · exact alike_bind (alike_lowerAll ho w) fun w₁ _ hs hhs => hB.maximum hhs
  · exact alike_bind (hnth 0 w) fun w₁ _ h hh => hB.absolute hh
  · exact alike_bind (hnth 0 w) fun w₁ _ x hx => alike_bind (hnth 1 w₁) fun w₂ hw₂ y hy =>
      hB.power (hx.mono hw₂) hy
  · refine alike_bind (hnth 0 w) fun w₁ _ i hi => alike_bind (hnth 1 w₁) fun w₂ hw₂ t ht => ?_
    exact alike_bind (hnth 2 w₂) fun w₃ hw₃ e he =>
      hB.conditional (hi.mono (hw₂.trans hw₃)) (ht.mono hw₃) he
  · refine alike_bind (alike_lowerAll ho w) fun w₁ _ handles hhandles => ?_
    cases hlast : handles.getLast? with
    | none => exact alike_fail _
    | some otherwise =>
      have hpairs := hhandles.dropLast
      exact hB.firstMatch hpairs.evens hpairs.tail.evens
        (hhandles _ (List.mem_of_getLast? hlast))
  · refine alike_bind (hnth 0 w) fun w₁ _ h hh => alike_bind (alike_lowerAll htail w₁) ?_
    exact fun w₂ hw₂ hs hhs => hB.membership (hh.mono hw₂) hhs.some
  · refine alike_bind (hnth 0 w) fun w₁ _ h hh => alike_bind (alike_lowerAll htail w₁) ?_
    exact fun w₂ hw₂ hs hhs => alike_bind (hB.membership (hh.mono hw₂) hhs.some)
      fun w₃ _ k hk => hB.complement hk
  · refine alike_bind (alike_lowerAll htail w) fun w₁ _ hs hhs => alike_bind (hnth 0 w₁) ?_
    exact fun w₂ hw₂ h hh => alike_element hB hh (has_mapIdx (hhs.mono hw₂))
  · exact alike_fail _

include ho in
theorem alike_lowerCustom (hB : B.Agree B' Own D) (name : String) :
    Alike Own w (lowerCustom B c name operands) (lowerCustom B' c name operands') Stage.Has := by
  have hsole {os os' : List (Operand α ν σ)} (h : List.Forall₂ (Operand.Agree Own) os os') :
      Operand.soleCollection? os' = Operand.soleCollection? os := by
    cases h with
    | nil => rfl
    | cons h hrest =>
      cases hrest with
      | nil => simp only [Operand.soleCollection?, h.term]
      | cons => rfl
  unfold lowerCustom
  rw [hsole ho]
  dsimp only
  split
  case' h_1 => refine alike_ite (alike_lowerAggregate hB _ _) ?_
  all_goals
    cases ho with
    | nil => exact alike_lowerInline .nil hB name
    | @cons o o' os os' h hrest =>
      have hinline := fun name => alike_lowerInline (w := w) (.cons h hrest) hB name
      rw [List.tail_cons, List.tail_cons, hsole hrest]
      cases Operand.soleCollection? os with
      | none => exact hinline name
      | some container =>
        dsimp only
        split
        · exact alike_lowerMembership hB h _
        · exact alike_bind (alike_lowerMembership hB h _) fun _ _ _ hk => hB.complement hk
        · exact alike_lowerEntry hB _ h.lower
        · exact hinline _

omit [Circulation Own] in
theorem alike_lowerComparison (hB : B.Agree B' Own D) (k : Comparison) {x y : Handle ν}
    (hx : w.Has x) (hy : w.Has y) :
    Alike Own w (lowerComparison B k x y) (lowerComparison B' k x y) Stage.Has := by
  unfold lowerComparison
  split
  · exact hB.constant _
  · exact hB.reify k hx hy

include ho in
theorem alike_lowerNode (hB : B.Agree B' Own D) (op : Operator) (text : Unit → Except Fault String) :
    Alike Own w (lowerNode B c op text operands) (lowerNode B' c op text operands') Stage.Has := by
  have hnth := alike_lowerNth ho
  cases op with
  | wrapper => exact hnth 0 w
  | negation => exact alike_bind (hnth 0 w) fun _ _ _ hx => hB.negate hx
  | sum => exact alike_chain ho fun _ _ _ => hB.add
  | difference => exact alike_chain ho fun _ _ _ => hB.subtract
  | product => exact alike_chain ho fun _ _ _ => hB.multiply
  | quotient => exact alike_chain ho fun _ _ _ => hB.divide
  | comparison k =>
    exact alike_bind (hnth 0 w) fun w₁ _ x hx => alike_bind (hnth 1 w₁) fun w₂ hw₂ y hy =>
      alike_lowerComparison hB k (hx.mono hw₂) hy
  | complement => exact alike_bind (hnth 0 w) fun _ _ _ hx => hB.complement hx
  | conjunction => exact alike_bind (alike_lowerAll ho w) fun _ _ _ hhs => hB.conjoin hhs
  | disjunction => exact alike_bind (alike_lowerAll ho w) fun _ _ _ hhs => hB.disjoin hhs
  | entry =>
    refine alike_withNth ho 0 fun o o' h => alike_withNth ho 1 fun i i' hindex => ?_
    rw [h.term]
    exact alike_lowerEntry hB _ hindex.lower
  | custom name => exact alike_lowerCustom ho hB name
  | collection => exact alike_bind (alike_lift _) fun _ _ _ _ => alike_fail _

end

omit [Circulation Own] in
theorem agree_operandsOf {ts : List (Term α)}
    (h : ∀ t ∈ ts, ∀ w, Alike Own w (translate B c t) (translate B' c t) Stage.Has) :
    List.Forall₂ (Operand.Agree Own) (operandsOf B c ts) (operandsOf B' c ts) := by
  induction ts with
  | nil => exact .nil
  | cons t ts ih =>
    rw [operandsOf, operandsOf]
    refine .cons ⟨rfl, h t List.mem_cons_self⟩ ?_
    exact ih fun u hu => h u (List.mem_cons_of_mem t hu)

/-- Lowering a term, node by node. -/
theorem alike_translate (hB : B.Agree B' Own D) (t : Term α) (w : Stage ν V) :
    Alike Own w (translate B c t) (translate B' c t) Stage.Has := by
  induction t using Term.induction generalizing w with
  | const x => exact hB.constant x
  | var v => exact alike_variableHandle c v
  | selected id f i => exact alike_memoized (alike_lowerSelected hB f i)
  | node id op ts ih =>
    rw [translate, translate]
    exact alike_memoized (alike_lowerNode (agree_operandsOf ih) hB op _)

/-! ### Constraints -/

omit [Numeral ν] in
theorem alike_postFolded (isTrue : Bool) (t : Term α) :
    Alike Own w (postFolded c isTrue t : LowerM α ν σ Unit) (postFolded c isTrue t) Stage.Admits :=
  alike_of_untouched (keeps_postFolded isTrue t)

theorem alike_postHandle (hB : B.Agree B' Own D) (t : Term α) :
    Alike Own w (postHandle B c t) (postHandle B' c t) Stage.Admits := by
  refine alike_bind (alike_translate hB t w) fun w₁ _ h hh => ?_
  cases h.number? with
  | none => exact hB.postTrue hh
  | some x => exact alike_postFolded _ _

theorem alike_postComparisonOf (hB : B.Agree B' Own D) (k : Comparison) (ts : List (Term α))
    (t : Term α) :
    Alike Own w (postComparisonOf B c k ts t) (postComparisonOf B' c k ts t) Stage.Admits := by
  have hnth := alike_lowerNth (agree_operandsOf (c := c) fun t (_ : t ∈ ts) => alike_translate hB t)
  refine alike_bind (hnth 0 w) fun w₁ _ x hx => alike_bind (hnth 1 w₁) fun w₂ hw₂ y hy => ?_
  split
  · exact alike_postFolded _ _
  · exact hB.postComparison k (hx.mono hw₂) hy

/-- Posting a constraint; of a conjunction, each part is posted. -/
theorem alike_post (hB : B.Agree B' Own D) (t : Term α) (w : Stage ν V) :
    Alike Own w (post B c t) (post B' c t) Stage.Admits := by
  induction t using Term.induction generalizing w with
  | const x => exact alike_postHandle hB _
  | var v => exact alike_postHandle hB _
  | selected id f i => exact alike_postHandle hB _
  | node id op ts ih =>
    unfold post
    split
    · exact alike_fail _
    · exact alike_ite (ih _ List.mem_cons_self w) (alike_postHandle hB _)
    · rw [postAll_eq_forM, postAll_eq_forM]
      exact alike_forM fun w _ u hu => ih u hu w
    · exact alike_postComparisonOf hB _ _ _
    · exact alike_postHandle hB _

theorem alike_translateInput (hB : B.Agree B' Own D) (x : Input α) :
    Alike Own w (translateInput B c x) (translateInput B' c x) Stage.Has := by
  unfold translateInput
  split
  · exact alike_translate hB _ w
  · exact hB.constant _
  · exact alike_fail _
  · exact alike_fail _

theorem alike_postInput (hB : B.Agree B' Own D) (x : Input α) :
    Alike Own w (postInput B c x) (postInput B' c x) Stage.Admits := by
  unfold postInput
  split
  · exact alike_post hB _ w
  · exact alike_fail _

/-! ### Models -/

omit [Circulation Own] [Scalar α] [Numeral ν] in
theorem alike_enterHandle (v : VarId) {h : Handle ν} (hh : w.Has h) :
    Alike Own w (enterHandle v h : LowerM α ν σ Unit) (enterHandle v h) Stage.Admits := by
  refine alike_modify fun s hs => ⟨w, le_rfl, ⟨fun hp => ?_, hs.memo, hs.own⟩, trivial⟩
  rcases List.mem_append.mp hp with hp | hp
  · exact hs.handles hp
  · obtain rfl := List.mem_singleton.mp hp
    exact hh

omit [Circulation Own] [Scalar α] in
theorem alike_createVariableOf (hB : B.Agree B' Own D) {v : VarId}
    (hv : ∀ d ∈ c.workspace.findVariable v, D.Takes d) :
    Alike Own w (createVariableOf B c v) (createVariableOf B' c v) Stage.Admits := by
  unfold createVariableOf
  split
  · exact alike_bind (hB.createVariable (hv _ ‹_›)) fun _ _ _ hh => alike_enterHandle v hh
  · exact alike_pure trivial

omit [Scalar α] in
theorem alike_createSequenceOf (hB : B.Agree B' Own D) {q : SequenceId}
    (hq : D.TakesSequence ((c.workspace.sequenceMembers q).map c.workspace.variableName)) :
    Alike Own w (createSequenceOf B c q) (createSequenceOf B' c q) Stage.Admits := by
  refine alike_bind (hB.createSequence _ hq) fun w₁ _ handles hhandles => ?_
  refine alike_bind (alike_forM fun w₂ hw₂ p hp => ?_) fun _ _ _ _ => alike_log _ _ _
  exact alike_enterHandle p.1 ((hhandles _ (List.of_mem_zip hp).2).mono hw₂)

theorem alike_postDefinitionOf (hB : B.Agree B' Own D) (v : VarId) :
    Alike Own w (postDefinitionOf B c v) (postDefinitionOf B' c v) Stage.Admits := by
  unfold postDefinitionOf
  split
  · refine alike_bind (alike_translate hB _ w) fun w₁ _ h hh => ?_
    refine alike_bind (alike_assumedHandle c v) fun w₂ hw₂ x hx => ?_
    exact alike_bind (hB.postDefinition _ hx (hh.mono hw₂)) fun _ _ _ _ => alike_log _ _ _
  · exact alike_pure trivial

/-- Lowering a whole model, wherever it stops. -/
theorem alike_lowerModel (hB : B.Agree B' Own D) (hc : D.TakesModel c) (w : Stage ν V) :
    Alike Own w (lowerModel B c) (lowerModel B' c) Stage.Admits := by
  unfold lowerModel
  rw [hB.name]
  refine alike_look fun s _ => alike_when (alike_fail _) fun w₁ _ => ?_
  refine alike_bind (Q := Stage.Admits) (alike_modify fun s hs =>
    ⟨w₁, le_rfl, ⟨hs.handles, hs.memo, hs.own⟩, trivial⟩) fun w₂ _ _ _ => ?_
  split
  · rename_i model hmodel
    have hv {v} (h : v ∈ model.vars ∨ v ∈ model.families.flatMap c.workspace.members) :
        v ∈ c.vars := by
      simp only [Context.vars, Workspace.allVariables, hmodel]
      rcases h with h | h
      · exact List.mem_append_left _ (List.mem_append_right _ h)
      · exact List.mem_append_right _ h
    refine alike_bind (alike_forM fun _ _ q hq =>
      alike_createSequenceOf hB (hc.sequences model hmodel q hq)) fun w₃ _ _ _ => ?_
    refine alike_bind (alike_forM fun _ _ v hm => alike_createVariableOf hB (hc.vars v (hv (.inl hm)))) ?_
    intro w₄ _ _ _
    refine alike_bind (alike_forM fun _ _ v hm => alike_createVariableOf hB (hc.vars v (hv (.inr hm)))) ?_
    intro w₅ _ _ _
    refine alike_bind (alike_forM fun _ _ v _ => alike_postDefinitionOf hB v) fun w₆ _ _ _ => ?_
    refine alike_bind (alike_forM fun w' _ t _ => ?_) fun w₇ _ _ _ => ?_
    · exact alike_bind (alike_post hB t w') fun _ _ _ _ => alike_log _ _ _
    split
    · refine alike_bind (alike_translate hB _ w₇) fun w₈ _ h hh => ?_
      refine alike_bind (hB.postObjective _ hh) fun w₉ _ _ _ => ?_
      exact alike_bind (alike_log _ _ _) fun _ _ _ _ => alike_look fun _ _ => alike_log _ _ _
    · exact alike_look fun _ _ => alike_log _ _ _
  · exact alike_pure trivial

end Backend

end DecisionModel
