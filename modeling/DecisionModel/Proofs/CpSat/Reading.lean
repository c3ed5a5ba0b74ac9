import DecisionModel.Proofs.CpSat.Arithmetic
import DecisionModel.Proofs.Lowering.Circulation

/-!
# Noted bounds, read in any way

The lowering notes an interval for each handle that it hands on, and gets the domains of new variables
from these intervals. What an interval says can be read in more than one way: it holds all values of
the handle, or it is merely not empty. A `Reading` is such a way, with a law for each operation on
intervals; `Tracked` says that all that the lowering noted is right in this reading, at the points
where the solver may still be. Here are the steps from which the encodings are made, each of which
leaves the notes right, also where the lowering fails afterwards.
-/

namespace DecisionModel.CpSat

open LowerM

variable {α β : Type}

/-! ### Intervals -/

namespace Bounds

/-- No part of the interval is beyond the widest one. -/
def Within (b : Bounds) : Prop := -widest ≤ b.lower ∧ b.upper ≤ widest

/-- The interval is empty only if it is beyond the widest one. -/
def Sensible (b : Bounds) : Prop := b.lower ≤ widest → -widest ≤ b.upper → b.lower ≤ b.upper

instance (b : Bounds) : Decidable b.Within := inferInstanceAs (Decidable (_ ∧ _))

theorem within_clamp (b : Bounds) : b.clamp.Within := ⟨le_max_left _ _, min_le_left _ _⟩

theorem within_unit : (⟨0, 1⟩ : Bounds).Within := by decide +kernel

theorem Within.neg {b : Bounds} (h : b.Within) : b.neg.Within :=
  ⟨neg_le_neg h.2, neg_le.mp h.1⟩

theorem widest_pos : 0 < widest := by decide +kernel

/-- Cutting leaves something of an interval, unless all of it is beyond the widest one. -/
theorem sensible_clamp {b : Bounds} (h : b.lower ≤ b.upper) : b.clamp.Sensible := by
  have hpos := widest_pos
  unfold Sensible clamp
  dsimp only
  omega

theorem ordered_mul (a b : Bounds) : (a.mul b).lower ≤ (a.mul b).upper :=
  ((min_le_left _ _).trans (min_le_left _ _)).trans ((le_max_left _ _).trans (le_max_left _ _))

theorem ordered_abs (b : Bounds) : b.abs.lower ≤ b.abs.upper := by
  unfold abs
  dsimp only
  split <;> omega

theorem ordered_hull {a b : Bounds} (h : a.lower ≤ a.upper) : (a.hull b).lower ≤ (a.hull b).upper :=
  (min_le_left _ _).trans (h.trans (le_max_left _ _))

theorem ordered_least {a b : Bounds} (ha : a.lower ≤ a.upper) (hb : b.lower ≤ b.upper) :
    (a.least b).lower ≤ (a.least b).upper := min_le_min ha hb

theorem ordered_greatest {a b : Bounds} (ha : a.lower ≤ a.upper) (hb : b.lower ≤ b.upper) :
    (a.greatest b).lower ≤ (a.greatest b).upper := max_le_max ha hb

end Bounds

/-! ### Readings -/

/-- The second solver is the first one, after more calls and more notes. -/
structure Solver.Extends (t t' : Solver) : Prop where
  calls {c : Call} : c ∈ t.calls.toList → c ∈ t'.calls.toList
  bounds {p : HandleId × Bounds} : p ∈ t.bounds → p ∈ t'.bounds
  cut : t.cut = true → t'.cut = true

/-- A way to read the intervals that are noted. -/
structure Reading where
  /-- What an interval says of a value. -/
  Spans : Bounds → ℤ → Prop
  /-- What is true of all intervals that are noted, whatever the values. -/
  Proper : Bounds → Prop
  /-- Where the solver may be. -/
  Possible : Solver → (HandleId → ℤ) → Prop
  const (n : ℤ) : Spans ⟨n, n⟩ n
  neg {a : Bounds} {m : ℤ} : Spans a m → Spans a.neg (-m)
  add {a b : Bounds} {m n : ℤ} : Spans a m → Spans b n → Spans (a.add b) (m + n)
  sub {a b : Bounds} {m n : ℤ} : Spans a m → Spans b n → Spans (a.sub b) (m - n)
  mul {a b : Bounds} {m n : ℤ} : Spans a m → Spans b n → Spans (a.mul b) (m * n)
  complement {m : ℤ} : Spans ⟨0, 1⟩ m → Spans ⟨0, 1⟩ (1 - m)
  ordered {b : Bounds} {m : ℤ} : Spans b m → b.lower ≤ b.upper
  proper {b : Bounds} : b.Within → Proper b
  proper_neg {b : Bounds} : Proper b → Proper b.neg
  /-- Calls and notes only take possibilities away. -/
  possible {t t' : Solver} {ρ : HandleId → ℤ} : t.Extends t' → Possible t' ρ → Possible t ρ
  domain {t : Solver} {ρ : HandleId → ℤ} {b : Bounds} {h : Expr} : Possible t ρ →
    .newInteger b.lower b.upper h ∈ t.calls.toList → b.Sensible → Spans b (value ρ h)
  truth {t : Solver} {ρ : HandleId → ℤ} {h : Expr} : Possible t ρ →
    .newBoolean h ∈ t.calls.toList → Spans ⟨0, 1⟩ (value ρ h)
  /-- An interval that was cut is noted as such. -/
  clamp {t : Solver} {ρ : HandleId → ℤ} {id : HandleId} {b : Bounds} {m : ℤ} : Possible t ρ →
    (id, b.clamp) ∈ t.bounds → (b.clamp ≠ b → t.cut = true) → Spans b m → Spans b.clamp m

variable {R : Reading} {w w' : Stage ℤ ℤ} {n m : ℕ} {t t' : Solver} {a b : Bounds} {h k x y : Expr}

/-- The interval is right for the term, wherever the solver may still be. -/
structure Spanned (R : Reading) (w : Stage ℤ ℤ) (b : Bounds) (h : Expr) : Prop where
  knows : w.Knows h
  spans {ρ : HandleId → ℤ} : ρ ∈ w.points → R.Spans b (value ρ h)

/-- The interval is not empty, if the solver may still be anywhere. -/
def Ordered (w : Stage ℤ ℤ) (b : Bounds) : Prop := ∀ ρ ∈ w.points, b.lower ≤ b.upper

theorem Spanned.mono (hs : Spanned R w b h) (hw : w ≤ w') : Spanned R w' b h :=
  ⟨hs.knows.mono hw, fun hρ => hs.spans (hw.2 hρ)⟩

theorem persists_spanned (b : Bounds) : Persists fun w h => Spanned R w b h :=
  fun _ _ _ hw hs => hs.mono hw

theorem Spanned.ordered (hs : Spanned R w b h) : Ordered w b := fun _ hρ => R.ordered (hs.spans hρ)

theorem spanned_const (R : Reading) (w : Stage ℤ ℤ) (n : ℤ) : Spanned R w ⟨n, n⟩ (.const n) :=
  ⟨(w.has_const n).knows, fun {ρ} _ => (value_const (ρ := ρ) n).symm ▸ R.const n⟩

/-! ### The invariant -/

/-- What the lowering noted is right. -/
structure Tracked (R : Reading) (w : Stage ℤ ℤ) (n : ℕ) (t : Solver) : Prop where
  world : World w.terms n
  points {ρ : HandleId → ℤ} : R.Possible t ρ → ρ ∈ w.points
  calls {c : Call} {h : Expr} : c ∈ t.calls.toList → h ∈ c.handles → w.Knows h
  domains {l u : ℤ} {h : Expr} : .newInteger l u h ∈ t.calls.toList →
    R.Proper ⟨l, u⟩ ∧ Spanned R w ⟨l, u⟩ h
  bounds {p : HandleId × Bounds} : p ∈ t.bounds →
    R.Proper p.2 ∧ ∃ h, Spanned R w p.2 h ∧ h.id? = some p.1
  literals {id : HandleId} : id ∈ t.literals → ∃ h, Spanned R w ⟨0, 1⟩ h ∧ h.id? = some id
  negations {p : HandleId × Expr} : p ∈ t.negations → Spanned R w ⟨0, 1⟩ p.2
  /-- The bounds of what circulates are noted. -/
  noted {h : Expr} : w.Has h → Noted t h

/-- Notes stay right when there are more terms and fewer points; new ones have to be right. -/
theorem Tracked.change (ht : Tracked R w n t) (hw : w ≤ w') (hworld : World w'.terms m)
    (hpoints : ∀ ρ, R.Possible t' ρ → ρ ∈ w'.points) (hextends : t.Extends t')
    (hcalls : ∀ c ∈ t'.calls.toList, c ∈ t.calls.toList ∨ (∀ h ∈ c.handles, w'.Knows h) ∧
      ∀ l u h, c = .newInteger l u h → R.Proper ⟨l, u⟩ ∧ Spanned R w' ⟨l, u⟩ h)
    (hbounds : ∀ p ∈ t'.bounds, p ∈ t.bounds ∨
      R.Proper p.2 ∧ ∃ h, Spanned R w' p.2 h ∧ h.id? = some p.1)
    (hliterals : ∀ id ∈ t'.literals, id ∈ t.literals ∨
      ∃ h, Spanned R w' ⟨0, 1⟩ h ∧ h.id? = some id)
    (hnegations : ∀ p ∈ t'.negations, p ∈ t.negations ∨ Spanned R w' ⟨0, 1⟩ p.2)
    (hnoted : ∀ h, w'.Has h → w.Has h ∨ Noted t' h) : Tracked R w' m t' where
  world := hworld
  points := hpoints _
  calls hc hh := by
    rcases hcalls _ hc with hc | hc
    · exact (ht.calls hc hh).mono hw
    · exact hc.1 _ hh
  domains hc := by
    rcases hcalls _ hc with hc | hc
    · exact (ht.domains hc).imp_right fun hs => hs.mono hw
    · exact hc.2 _ _ _ rfl
  bounds hp := by
    rcases hbounds _ hp with hp | hp
    · obtain ⟨hproper, h, hs, hid⟩ := ht.bounds hp
      exact ⟨hproper, h, hs.mono hw, hid⟩
    · exact hp
  literals hid := by
    rcases hliterals _ hid with hid | hid
    · obtain ⟨h, hs, heq⟩ := ht.literals hid
      exact ⟨h, hs.mono hw, heq⟩
    · exact hid
  negations hp := (hnegations _ hp).elim (fun hp => (ht.negations hp).mono hw) id
  noted hh := by
    rcases hnoted _ hh with hh | hh
    · intro id hid
      obtain ⟨b, hb⟩ := ht.noted hh id hid
      exact ⟨b, hextends.bounds hb⟩
    · exact hh

instance : Circulation (Tracked R) where
  next ht hnm := ht.change le_rfl (ht.world.mono hnm) (fun _ => ht.points) ⟨id, id, id⟩
    (fun _ => .inl) (fun _ => .inl) (fun _ => .inl) (fun _ => .inl) fun _ => .inl

/-- A literal is spanned by zero and one. -/
theorem Tracked.spanned_literal (ht : Tracked R w n t) (hk : w.Knows h) {id : HandleId}
    (hid : h.id? = some id) (hm : id ∈ t.literals) : Spanned R w ⟨0, 1⟩ h := by
  obtain ⟨l, hl, heq⟩ := ht.literals hm
  rwa [ht.world.unique hk hl.knows hid heq]

/-- What the lowering finds in its notes is right. -/
theorem Tracked.boundsOf (ht : Tracked R w n t) (hh : w.Has h) :
    Spanned R w (t.boundsOf h) h ∧ (h.isNumber = false → R.Proper (t.boundsOf h)) := by
  cases hn : h.number? with
  | some x =>
    obtain rfl := Handle.eq_const hn
    exact ⟨spanned_const R w x, fun h => nomatch h⟩
  | none =>
    obtain ⟨id, hid⟩ := Option.ne_none_iff_exists'.mp (Handle.id?_ne_none hn)
    obtain ⟨hproper, k, hk, hkid⟩ := ht.bounds ((ht.noted hh).boundsOf_mem hid)
    obtain rfl := ht.world.unique hh.knows hk.knows hid hkid
    exact ⟨hk, fun _ => hproper⟩

/-! ### Steps -/

variable {Q : Stage ℤ ℤ → β → Prop} {m m' : CpSatM α β}

/-- What is right can be used at any moment. -/
theorem alike_tracked (hf : ∀ n t, Tracked R w n t → Alike (Tracked R) w m m' Q) :
    Alike (Tracked R) w m m' Q := fun s hs => hf s.nextHandle s.solver hs.own s hs

theorem alike_getSolver {f f' : Solver → CpSatM α β}
    (hf : ∀ n t, Tracked R w n t → Alike (Tracked R) w (f t) (f' t) Q) :
    Alike (Tracked R) w (getSolver >>= f) (getSolver >>= f') Q :=
  fun s hs => hf s.nextHandle s.solver hs.own s hs

theorem alike_modifySolver {f : Solver → Solver} {Q : Stage ℤ ℤ → Unit → Prop}
    (h : ∀ n t, Tracked R w n t → ∃ w', w ≤ w' ∧ Tracked R w' n (f t) ∧ Q w' ()) :
    Alike (Tracked R) w (modifySolver f : CpSatM α Unit) (modifySolver f) Q :=
  alike_modify fun s hs => by
    obtain ⟨w', hw, ht, hq⟩ := h s.nextHandle s.solver hs.own
    exact ⟨w', hw, hs.mono hw rfl rfl ht, hq⟩

/-- A note that is neither a call nor an interval. -/
theorem alike_remark {f : Solver → Solver} (hcalls : ∀ t, (f t).calls = t.calls)
    (hbounds : ∀ t, (f t).bounds = t.bounds) (hcut : ∀ t, t.cut = true → (f t).cut = true)
    (hliterals : ∀ t, ∀ id ∈ (f t).literals, id ∈ t.literals ∨
      ∃ h, Spanned R w ⟨0, 1⟩ h ∧ h.id? = some id)
    (hnegations : ∀ t, ∀ p ∈ (f t).negations, p ∈ t.negations ∨ Spanned R w ⟨0, 1⟩ p.2) :
    Alike (Tracked R) w (modifySolver f : CpSatM α Unit) (modifySolver f) Stage.Admits := by
  refine alike_modifySolver fun n t ht => ⟨w, le_rfl, ?_, trivial⟩
  have hextends : t.Extends (f t) := ⟨fun hc => (hcalls t).symm ▸ hc, fun hp => (hbounds t).symm ▸ hp,
    hcut t⟩
  exact ht.change le_rfl ht.world (fun _ hρ => ht.points (R.possible hextends hρ)) hextends
    (fun _ hc => .inl (hcalls t ▸ hc)) (fun _ hp => .inl (hbounds t ▸ hp)) (hliterals t)
    (hnegations t) fun _ => .inl

theorem alike_auxiliaryName (hint : String) :
    Alike (Tracked R) w (auxiliaryName hint : CpSatM α String) (auxiliaryName hint) Stage.Admits :=
  alike_of_untouched (keeps_auxiliaryName hint)

/-- A new term over terms that were made. -/
theorem Tracked.make (ht : Tracked R w n t) (hid : h.id? = some ⟨n⟩)
    (hargs : ∀ id f args, h = .node id f args → ∀ a ∈ args, w.Knows a) :
    Tracked R (w.make h) (n + 1) t :=
  ht.change (w.le_make h) (ht.world.insert hid (Nat.lt_succ_self n) hargs) (fun _ => ht.points)
    ⟨id, id, id⟩ (fun _ => .inl) (fun _ => .inl) (fun _ => .inl) (fun _ => .inl) fun _ => .inl

theorem alike_leaf (name : String) (integral : Bool) :
    Alike (Tracked R) w (leaf name integral : CpSatM α Expr) (leaf name integral) Stage.Knows := by
  intro s hs
  let k : Expr := .leaf ⟨s.nextHandle⟩ name integral
  refine ⟨rfl, w.make k, w.le_make k, hs.mono (w.le_make k) rfl rfl ?_, ?_⟩
  · exact hs.own.make (h := k) rfl fun _ _ _ h => nomatch h
  · rintro _ ⟨⟩
    exact Set.mem_insert k _

theorem alike_node (f : SolverFunction) {args : List Expr} (hargs : ∀ a ∈ args, w.Knows a) :
    Alike (Tracked R) w (node f args : CpSatM α Expr) (node f args) fun w k =>
      w.Knows k ∧ ∃ id, k = .node id f args := by
  intro s hs
  let k : Expr := .node ⟨s.nextHandle⟩ f args
  refine ⟨rfl, w.make k, w.le_make k, hs.mono (w.le_make k) rfl rfl ?_, ?_⟩
  · refine hs.own.make (h := k) rfl fun id' f' args' heq => ?_
    obtain ⟨-, -, rfl⟩ := Handle.node.inj heq
    exact hargs
  · rintro _ ⟨⟩
    exact ⟨Set.mem_insert k _, _, rfl⟩

theorem alike_binary {f : ℤ → ℤ → ℤ} (symbol : SolverFunction)
    (hf : ∀ id ρ, value ρ (.node id symbol [x, y]) = f (value ρ x) (value ρ y)) (hx : w.Knows x)
    (hy : w.Knows y) :
    Alike (Tracked R) w (binary f symbol x y : CpSatM α Expr) (binary f symbol x y) fun w k =>
      w.Knows k ∧ ∀ ρ, value ρ k = f (value ρ x) (value ρ y) := by
  unfold binary
  split
  · exact alike_pure ⟨(w.has_const _).knows, fun ρ => by simp⟩
  · refine (alike_node symbol (by simp [hx, hy])).mono fun w' _ k ⟨hk, id, heq⟩ => ⟨hk, fun ρ => ?_⟩
    rw [heq]
    exact hf id ρ

theorem alike_neg (hx : w.Knows x) :
    Alike (Tracked R) w (neg x : CpSatM α Expr) (neg x) fun w k =>
      w.Knows k ∧ ∀ ρ, value ρ k = -value ρ x := by
  unfold neg
  split
  · exact alike_pure ⟨(w.has_const _).knows, fun ρ => by simp [Numeral.neg]⟩
  · refine (alike_node .neg (by simp [hx])).mono fun w' _ k ⟨hk, id, heq⟩ => ⟨hk, fun ρ => ?_⟩
    rw [heq]
    exact value_neg

/-! ### Calls -/

/-- A call about terms that were made. A new domain has to be right after the call. -/
theorem Tracked.push (ht : Tracked R w n t) (hw : w ≤ w') (hterms : w'.terms = w.terms)
    (hhandles : w'.handles = w.handles) {c : Call}
    (hpoints : ∀ ρ, R.Possible { t with calls := t.calls.push c } ρ → ρ ∈ w'.points)
    (hc : ∀ h ∈ c.handles, w.Knows h)
    (hdomain : ∀ l u h, c = .newInteger l u h → R.Proper ⟨l, u⟩ ∧ Spanned R w' ⟨l, u⟩ h) :
    Tracked R w' n { t with calls := t.calls.push c } := by
  refine ht.change hw (hterms ▸ ht.world) hpoints ⟨fun hc => ?_, id, id⟩ (fun c' hc' => ?_)
    (fun _ => .inl) (fun _ => .inl) (fun _ => .inl) fun h hh => .inl ?_
  · exact Array.toList_push .. ▸ List.mem_append_left _ hc
  · rw [Array.toList_push, List.mem_append, List.mem_singleton] at hc'
    refine hc'.imp_right fun hc' => ?_
    subst hc'
    exact ⟨fun h hh => (hc h hh).mono hw, hdomain⟩
  · rwa [Stage.Has, hhandles] at hh

/-- More calls leave fewer possibilities. -/
theorem Solver.extends_push (t : Solver) (c : Call) : t.Extends { t with calls := t.calls.push c } :=
  ⟨fun hc => Array.toList_push .. ▸ List.mem_append_left _ hc, id, id⟩

theorem alike_call {c : Call} (hc : ∀ h ∈ c.handles, w.Knows h)
    (hnew : ∀ l u h, c ≠ .newInteger l u h) :
    Alike (Tracked R) w (call c : CpSatM α Unit) (call c) Stage.Admits :=
  alike_modifySolver fun _ t ht => ⟨w, le_rfl, ht.push le_rfl rfl rfl
    (fun _ hρ => ht.points (R.possible (t.extends_push c) hρ)) hc
    fun l u h heq => absurd heq (hnew l u h), trivial⟩

theorem alike_require {c : Constraint} (hc : ∀ h ∈ c.handles, w.Knows h) :
    Alike (Tracked R) w (require c : CpSatM α Unit) (require c) Stage.Admits :=
  alike_call (c := .require c none) (fun h hh => hc h (by simpa [Call.handles] using hh))
    fun _ _ _ h => nomatch h

theorem alike_requireIf {literal : Expr} {c : Constraint} (hl : w.Knows literal)
    (hc : ∀ h ∈ c.handles, w.Knows h) :
    Alike (Tracked R) w (requireIf literal c : CpSatM α Unit) (requireIf literal c) Stage.Admits := by
  refine alike_call (c := .require c (some literal)) (fun h hh => ?_) fun _ _ _ h => nomatch h
  rcases List.mem_cons.mp hh with rfl | hh
  · exact hl
  · exact hc h hh

theorem knows_linear (c : Comparison) (hx : w.Knows x) (hy : w.Knows y) :
    ∀ h ∈ (linear c x y).handles, w.Knows h := by
  intro h hh
  rcases List.mem_cons.mp (handles_linear h hh) with rfl | hh
  · exact hx
  · exact List.mem_singleton.mp hh ▸ hy

/-- The domain of a new variable. -/
theorem alike_newDomain (hh : w.Knows h) (hproper : R.Proper b) (hb : ∀ ρ ∈ w.points, b.Sensible) :
    Alike (Tracked R) w (call (.newInteger b.lower b.upper h) : CpSatM α Unit)
      (call (.newInteger b.lower b.upper h)) fun w _ => Spanned R w b h := by
  refine alike_modifySolver fun _ t ht => ?_
  have hw := w.le_restrict fun ρ => R.Spans b (value ρ h)
  have hs : Spanned R (w.restrict fun ρ => R.Spans b (value ρ h)) b h := ⟨hh, fun hρ => hρ.2⟩
  refine ⟨_, hw, ht.push hw rfl rfl (fun ρ hρ => ?_) ?_ ?_, hs⟩
  · have hpoint := ht.points (R.possible (t.extends_push _) hρ)
    exact ⟨hpoint, R.domain hρ (by simp) (hb ρ hpoint)⟩
  · simpa [Call.handles] using hh
  · intro l u h heq
    cases heq
    exact ⟨hproper, hs⟩

/-- The domain of a new literal. -/
theorem alike_newTruth (hh : w.Knows h) :
    Alike (Tracked R) w (call (.newBoolean h) : CpSatM α Unit) (call (.newBoolean h)) fun w _ =>
      Spanned R w ⟨0, 1⟩ h := by
  refine alike_modifySolver fun _ t ht => ?_
  have hw := w.le_restrict fun ρ => R.Spans ⟨0, 1⟩ (value ρ h)
  refine ⟨_, hw, ?_, ⟨hh, fun hρ => hρ.2⟩⟩
  refine ht.push hw rfl rfl (fun ρ hρ => ?_) ?_ fun _ _ _ heq => nomatch heq
  · exact ⟨ht.points (R.possible (t.extends_push _) hρ), R.truth hρ (by simp)⟩
  · simpa [Call.handles] using hh

/-! ### Notes -/

/-- An entry for a term, which circulates from then on. It has to be right after it is noted. -/
theorem alike_note {id : HandleId} (hk : w.Knows h) (hid : h.id? = some id) (hproper : R.Proper b)
    {f : Solver → Solver} (hf : ∀ t, f t = { t with
      bounds := (id, b) :: t.bounds
      cut := (f t).cut }) (hcut : ∀ t, t.cut = true → (f t).cut = true)
    (hspans : ∀ t, ∀ ρ ∈ w.points, R.Possible (f t) ρ → R.Spans b (value ρ h)) :
    Alike (Tracked R) w (do modifySolver f; return h : CpSatM α Expr) (do modifySolver f; return h)
      fun w k => k = h ∧ w.Has k := by
  let w₁ := (w.insert h).restrict fun ρ => R.Spans b (value ρ h)
  have hw : w ≤ w₁ := (w.le_insert h).trans (Stage.le_restrict _ _)
  have hterms : w₁.terms = w.terms := Set.insert_eq_of_mem hk
  have hs : Spanned R w₁ b h := ⟨hk.mono hw, fun hρ => hρ.2⟩
  refine alike_bind (Q := fun w _ => w.Has h) (alike_modifySolver fun n t ht =>
    ⟨w₁, hw, ?_, w.has_insert h⟩) fun _ _ _ hh => alike_pure ⟨rfl, hh⟩
  have hextends : t.Extends (f t) :=
    ⟨fun hc => by rwa [hf], fun hp => by rw [hf]; exact List.mem_cons_of_mem _ hp, hcut t⟩
  refine ht.change hw (by rw [hterms]; exact ht.world) (fun ρ hρ => ?_) hextends
    (fun c hc => .inl ?_) (fun p hp => ?_) (fun _ hl => .inl ?_) (fun _ hp => .inl ?_) fun k hk => ?_
  · have hpoint := ht.points (R.possible hextends hρ)
    exact ⟨hpoint, hspans t ρ hpoint hρ⟩
  · rwa [hf] at hc
  · rw [hf] at hp
    rcases List.mem_cons.mp hp with rfl | hp
    · exact .inr ⟨hproper, h, hs, hid⟩
    · exact .inl hp
  · rwa [hf] at hl
  · rwa [hf] at hp
  · rcases hk with rfl | hk
    · exact .inr fun id' hid' => ⟨b, by rw [hf, Option.some.inj (hid.symm.trans hid')]; simp⟩
    · exact .inl hk

theorem alike_track (hproper : h.isNumber = false → R.Proper b) (hs : Spanned R w b h) :
    Alike (Tracked R) w (track h b : CpSatM α Expr) (track h b) fun w k => k = h ∧ w.Has k := by
  cases h with
  | const x => exact alike_pure ⟨rfl, w.has_const x⟩
  | leaf | node =>
    exact alike_note hs.knows rfl (hproper rfl) (fun _ => rfl) (fun _ => id) fun _ _ hρ _ => hs.spans hρ

theorem alike_boundsOf (hh : w.Has h) :
    Alike (Tracked R) w (boundsOf h : CpSatM α Bounds) (boundsOf h) fun w b =>
      Spanned R w b h ∧ (h.isNumber = false → R.Proper b) :=
  alike_getSolver fun _ _ ht => alike_pure (ht.boundsOf hh)

end DecisionModel.CpSat
