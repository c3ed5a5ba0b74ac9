import DecisionModel.Proofs.Lowering.Memo
import DecisionModel.Proofs.Lowering.Semantics

/-!
# Handles in circulation, along any run

Lowering makes handles, keeps them and hands them on; wherever it fails, what it kept until then stays.
A `Stage` says what is known at some moment: which handles circulate, and at which points the solver may
still be. `Circulates` ties a state to a stage: all handles that the state keeps are in circulation, and
the back-end's own part is in order, in a sense that is left to the back-end.

`Alike` compares two programs. From every state of a stage they do the same, and they end, with a
result or with an error, in a state of a later stage. `Backend.Agree` asks this of the operations of two
back-ends, over handles in circulation.
-/

namespace DecisionModel

open LowerM

variable {α ν σ V β γ : Type}

/-! ### Stages -/

/-- What is known at some moment. -/
structure Stage (ν V : Type) where
  /-- The handles in circulation, numbers among them. -/
  handles : Set (Handle ν)
  const_mem (x : ν) : .const x ∈ handles
  /-- The terms that were made; those in circulation are among them. -/
  terms : Set (Handle ν)
  subset : handles ⊆ terms
  /-- Where the solver may still be. -/
  points : Set (HandleId → V)

namespace Stage

/-- Later on there are more handles and terms, and fewer points are left. -/
instance : Preorder (Stage ν V) where
  le w w' := (w.handles ⊆ w'.handles ∧ w.terms ⊆ w'.terms) ∧ w'.points ⊆ w.points
  le_refl _ := ⟨⟨subset_rfl, subset_rfl⟩, subset_rfl⟩
  le_trans _ _ _ h h' := ⟨⟨h.1.1.trans h'.1.1, h.1.2.trans h'.1.2⟩, h'.2.trans h.2⟩

variable {w w' : Stage ν V}

/-- Only numbers circulate yet, and the solver may be anywhere. -/
def initial : Stage ν V := ⟨World.numbers, fun _ => rfl, World.numbers, Set.Subset.rfl, Set.univ⟩

/-- One more handle circulates. -/
def insert (w : Stage ν V) (h : Handle ν) : Stage ν V where
  handles := Insert.insert h w.handles
  const_mem x := .inr (w.const_mem x)
  terms := Insert.insert h w.terms
  subset := Set.insert_subset_insert w.subset
  points := w.points

theorem le_insert (w : Stage ν V) (h : Handle ν) : w ≤ w.insert h :=
  ⟨⟨Set.subset_insert _ _, Set.subset_insert _ _⟩, subset_rfl⟩

/-- One more term is made, which does not circulate yet. -/
def make (w : Stage ν V) (h : Handle ν) : Stage ν V :=
  { w with terms := Insert.insert h w.terms, subset := w.subset.trans (Set.subset_insert _ _) }

theorem le_make (w : Stage ν V) (h : Handle ν) : w ≤ w.make h :=
  ⟨⟨subset_rfl, Set.subset_insert _ _⟩, subset_rfl⟩

/-- Some points drop out. -/
def restrict (w : Stage ν V) (C : (HandleId → V) → Prop) : Stage ν V :=
  { w with points := {ρ ∈ w.points | C ρ} }

theorem le_restrict (w : Stage ν V) (C : (HandleId → V) → Prop) : w ≤ w.restrict C :=
  ⟨⟨subset_rfl, subset_rfl⟩, fun _ h => h.1⟩

/-- The handle is in circulation. -/
def Has (w : Stage ν V) (h : Handle ν) : Prop := h ∈ w.handles

def HasAll (w : Stage ν V) (hs : List (Handle ν)) : Prop := ∀ h ∈ hs, w.Has h

def HasAny (w : Stage ν V) (o : Option (Handle ν)) : Prop := ∀ h ∈ o, w.Has h

/-- The term was made. -/
def Knows (w : Stage ν V) (h : Handle ν) : Prop := h ∈ w.terms

/-- Nothing is said of a result. -/
def Admits (_ : Stage ν V) (_ : β) : Prop := True

theorem has_insert (w : Stage ν V) (h : Handle ν) : (w.insert h).Has h := Set.mem_insert _ _

@[simp] theorem has_const (w : Stage ν V) (x : ν) : w.Has (.const x) := w.const_mem x

@[simp] theorem hasAll_nil (w : Stage ν V) : w.HasAll [] := by simp [HasAll]

@[simp] theorem hasAll_cons {h : Handle ν} {hs : List (Handle ν)} :
    w.HasAll (h :: hs) ↔ w.Has h ∧ w.HasAll hs := List.forall_mem_cons

theorem Has.mono {h : Handle ν} (hh : w.Has h) (hw : w ≤ w') : w'.Has h := hw.1.1 hh

theorem Knows.mono {h : Handle ν} (hh : w.Knows h) (hw : w ≤ w') : w'.Knows h := hw.1.2 hh

theorem Has.knows {h : Handle ν} (hh : w.Has h) : w.Knows h := w.subset hh

theorem HasAll.mono {hs : List (Handle ν)} (hh : w.HasAll hs) (hw : w ≤ w') : w'.HasAll hs :=
  fun h hm => (hh h hm).mono hw

theorem HasAll.dropLast {hs : List (Handle ν)} (hh : w.HasAll hs) : w.HasAll hs.dropLast :=
  fun h hm => hh h (List.dropLast_subset _ hm)

theorem HasAll.tail {hs : List (Handle ν)} (hh : w.HasAll hs) : w.HasAll hs.tail :=
  fun h hm => hh h (List.mem_of_mem_tail hm)

theorem HasAll.evens {hs : List (Handle ν)} (hh : w.HasAll hs) : w.HasAll (Backend.evens hs) := by
  induction hs using Backend.evens.induct with
  | case1 => exact hh
  | case2 h => exact hh
  | case3 h k hs ih =>
    obtain ⟨hfirst, -, hrest⟩ := by simpa using hh
    exact hasAll_cons.mpr ⟨hfirst, ih hrest⟩

theorem HasAll.some {hs : List (Handle ν)} (hh : w.HasAll hs) :
    ∀ o ∈ hs.map Option.some, w.HasAny o := by
  intro o ho h hh'
  obtain ⟨k, hk, rfl⟩ := List.mem_map.mp ho
  cases hh'
  exact hh _ hk

end Stage

/-- A fact that stays once it holds. -/
def Persists (Q : Stage ν V → β → Prop) : Prop := ∀ ⦃w w' x⦄, w ≤ w' → Q w x → Q w' x

theorem persists_has : Persists (Stage.Has (ν := ν) (V := V)) := fun _ _ _ hw h => h.mono hw

theorem persists_hasAll : Persists (Stage.HasAll (ν := ν) (V := V)) := fun _ _ _ hw h => h.mono hw

theorem persists_hasAny : Persists (Stage.HasAny (ν := ν) (V := V)) :=
  fun _ _ _ hw ho h hh => (ho h hh).mono hw

/-- An entry of a table stays in circulation. -/
theorem persists_entry : Persists fun (w : Stage ν V) (e : Int × Handle ν) => w.Has e.2 :=
  fun _ _ _ hw h => h.mono hw

/-- A back-end's own part is in order at a stage, the least free identity being given, which may
grow. -/
class Circulation (Own : Stage ν V → Nat → σ → Prop) : Prop where
  next {w : Stage ν V} {n m : Nat} {e : σ} : Own w n e → n ≤ m → Own w m e

/-- Moreover, any new node over handles in circulation may enter it. -/
class OpenCirculation (Own : Stage ν V → Nat → σ → Prop) : Prop extends Circulation Own where
  node {w : Stage ν V} {n : Nat} {e : σ} {args : List (Handle ν)} (f : SolverFunction) :
    Own w n e → w.HasAll args → ∃ w', w ≤ w' ∧ w'.Has (.node ⟨n⟩ f args) ∧ Own w' (n + 1) e

/-- The state belongs to the stage. -/
structure Circulates (Own : Stage ν V → Nat → σ → Prop) (w : Stage ν V) (s : LoweringState ν σ) :
    Prop where
  handles {p : VarId × Handle ν} : p ∈ s.handles → w.Has p.2
  memo {p : NodeId × Handle ν} : p ∈ s.memo → w.Has p.2
  own : Own w s.nextHandle s.solver

/-- Neither a handle nor the back-end's part is touched. -/
structure Untouched (s s' : LoweringState ν σ) : Prop where
  handles : s'.handles = s.handles
  memo : s'.memo = s.memo
  next_le : s.nextHandle ≤ s'.nextHandle
  solver : s'.solver = s.solver

instance : Unaffected (Untouched (ν := ν) (σ := σ)) where
  refl _ := ⟨rfl, rfl, Nat.le_refl _, rfl⟩
  trans _ _ _ h h' := ⟨h'.handles.trans h.handles, h'.memo.trans h.memo,
    h.next_le.trans h'.next_le, h'.solver.trans h.solver⟩
  next _ := ⟨rfl, rfl, Nat.le_succ _, rfl⟩
  auxiliaries _ := ⟨rfl, rfl, Nat.le_refl _, rfl⟩
  violated _ _ := ⟨rfl, rfl, Nat.le_refl _, rfl⟩
  log _ _ := ⟨rfl, rfl, Nat.le_refl _, rfl⟩

section

variable {Own : Stage ν V → Nat → σ → Prop} {w w' : Stage ν V} {s s' : LoweringState ν σ}

theorem Circulates.mono (hs : Circulates Own w s) (hw : w ≤ w') (hhandles : s'.handles = s.handles)
    (hmemo : s'.memo = s.memo) (hown : Own w' s'.nextHandle s'.solver) : Circulates Own w' s' where
  handles hp := (hs.handles (hhandles ▸ hp)).mono hw
  memo hp := (hs.memo (hmemo ▸ hp)).mono hw
  own := hown

theorem Circulates.untouched [Circulation Own] (hs : Circulates Own w s) (h : Untouched s s') :
    Circulates Own w s' :=
  hs.mono le_rfl h.handles h.memo (h.solver ▸ Circulation.next hs.own h.next_le)

/-! ### Programs that are alike -/

/-- From all states of the stage the second program does what the first one does, which ends in a state
of a later stage; of a result, `Q` holds then. -/
def Alike (Own : Stage ν V → Nat → σ → Prop) (w : Stage ν V) (m m' : LowerM α ν σ β)
    (Q : Stage ν V → β → Prop) : Prop :=
  ∀ s, Circulates Own w s → m'.run.run s = m.run.run s ∧
    ∃ w', w ≤ w' ∧ Circulates Own w' (m.run.run s).2 ∧ ∀ x, (m.run.run s).1 = .ok x → Q w' x

variable {Q Q' : Stage ν V → β → Prop} {R : Stage ν V → γ → Prop} {m m' : LowerM α ν σ β}
  {f f' : β → LowerM α ν σ γ}

theorem alike_pure {x : β} (h : Q w x) : Alike Own w (pure x : LowerM α ν σ β) (pure x) Q :=
  fun _ hs => ⟨rfl, w, le_rfl, hs, fun _ hy => by cases hy; exact h⟩

theorem alike_fail (e : LoweringError α) : Alike Own w (fail e : LowerM α ν σ β) (fail e) Q :=
  fun _ hs => ⟨rfl, w, le_rfl, hs, fun _ hy => nomatch hy⟩

theorem Alike.mono (h : Alike Own w m m' Q) (hQ : ∀ w', w ≤ w' → ∀ x, Q w' x → Q' w' x) :
    Alike Own w m m' Q' := by
  intro s hs
  obtain ⟨heq, w', hw, hs', hx⟩ := h s hs
  exact ⟨heq, w', hw, hs', fun x hr => hQ w' hw x (hx x hr)⟩

/-- What is known of the runs that return. -/
theorem Alike.and_runs {F : β → Prop} (h : Alike Own w m m' Q)
    (hF : ∀ s x s', Circulates Own w s → m.Runs s x s' → F x) :
    Alike Own w m m' fun w x => Q w x ∧ F x := by
  intro s hs
  obtain ⟨heq, w', hw, hs', hx⟩ := h s hs
  exact ⟨heq, w', hw, hs', fun x hr => ⟨hx x hr, hF s x _ hs (Prod.ext hr rfl)⟩⟩

theorem alike_bind (hm : Alike Own w m m' Q)
    (hf : ∀ w', w ≤ w' → ∀ x, Q w' x → Alike Own w' (f x) (f' x) R) :
    Alike Own w (m >>= f) (m' >>= f') R := by
  intro s hs
  obtain ⟨heq, w₁, hw₁, hs₁, hx⟩ := hm s hs
  rcases hr : m.run.run s with ⟨e | x, s₁⟩ <;> rw [hr] at heq hs₁ hx
  · rw [run_bind_of_error hr, run_bind_of_error heq]
    exact ⟨rfl, w₁, hw₁, hs₁, fun _ hy => nomatch hy⟩
  · rw [run_bind_of_ok hr, run_bind_of_ok heq]
    obtain ⟨heq', w₂, hw₂, hs₂, hy⟩ := hf w₁ hw₁ x (hx x rfl) s₁ hs₁
    exact ⟨heq', w₂, hw₁.trans hw₂, hs₂, hy⟩

/-- A look at the state, and what follows it. -/
theorem alike_look {f f' : LoweringState ν σ → LowerM α ν σ γ}
    (hf : ∀ s, Circulates Own w s → Alike Own w (f s) (f' s) R) :
    Alike Own w (get >>= f) (get >>= f') R := fun s hs => hf s hs s hs

theorem alike_modify {g : LoweringState ν σ → LoweringState ν σ} {Q : Stage ν V → PUnit → Prop}
    (h : ∀ s, Circulates Own w s → ∃ w', w ≤ w' ∧ Circulates Own w' (g s) ∧ Q w' ⟨⟩) :
    Alike Own w (modify g : LowerM α ν σ PUnit) (modify g) Q := by
  intro s hs
  obtain ⟨w', hw, hs', hq⟩ := h s hs
  exact ⟨rfl, w', hw, hs', fun _ _ => hq⟩

/-- Two cases, each with what is known in it. -/
theorem alike_dec {p : Prop} [Decidable p] {n n' : LowerM α ν σ β} (hm : p → Alike Own w m m' Q)
    (hn : ¬p → Alike Own w n n' Q) : Alike Own w (if p then m else n) (if p then m' else n') Q := by
  split
  · exact hm ‹_›
  · exact hn ‹_›

theorem alike_ite {p : Prop} [Decidable p] {n n' : LowerM α ν σ β} (hm : Alike Own w m m' Q)
    (hn : Alike Own w n n' Q) : Alike Own w (if p then m else n) (if p then m' else n') Q :=
  alike_dec (fun _ => hm) fun _ => hn

/-- A step that is taken under a condition only, and what follows it. -/
theorem alike_when {p : Prop} [Decidable p] {m m' : LowerM α ν σ PUnit}
    {f f' : PUnit → LowerM α ν σ γ} (hm : Alike Own w m m' Stage.Admits)
    (hf : ∀ w', w ≤ w' → Alike Own w' (f ⟨⟩) (f' ⟨⟩) R) :
    Alike Own w (if p then m >>= f else f ⟨⟩) (if p then m' >>= f' else f' ⟨⟩) R :=
  alike_ite (alike_bind hm fun w' hw _ _ => hf w' hw) (hf w le_rfl)

/-- The same for a step that first takes another one. -/
theorem alike_whenAfter {δ : Type} {p : Prop} [Decidable p] {m m' : LowerM α ν σ δ}
    {g g' : δ → LowerM α ν σ PUnit} {f f' : PUnit → LowerM α ν σ γ}
    (hm : Alike Own w m m' Stage.Admits)
    (hg : ∀ w', w ≤ w' → ∀ x, Alike Own w' (g x) (g' x) Stage.Admits)
    (hf : ∀ w', w ≤ w' → Alike Own w' (f ⟨⟩) (f' ⟨⟩) R) :
    Alike Own w (if p then m >>= fun x => g x >>= f else f ⟨⟩)
      (if p then m' >>= fun x => g' x >>= f' else f' ⟨⟩) R := by
  refine alike_ite (alike_bind hm fun w₁ hw₁ x _ => ?_) (hf w le_rfl)
  exact alike_bind (hg w₁ hw₁ x) fun w₂ hw₂ _ _ => hf w₂ (hw₁.trans hw₂)

/-- Steps over a list. What holds of each result has to stay until the last one is there. -/
theorem alike_mapM {f f' : γ → LowerM α ν σ β} {xs : List γ} {Q : γ → Stage ν V → β → Prop}
    (hQ : ∀ x, Persists (Q x)) (hf : ∀ w', w ≤ w' → ∀ x ∈ xs, Alike Own w' (f x) (f' x) (Q x)) :
    Alike Own w (xs.mapM f) (xs.mapM f') fun w ys => List.Forall₂ (fun x y => Q x w y) xs ys := by
  induction xs generalizing w with
  | nil => exact alike_pure .nil
  | cons x xs ih =>
    rw [List.mapM_cons, List.mapM_cons]
    refine alike_bind (hf w le_rfl x List.mem_cons_self) fun w₁ hw₁ y hy => ?_
    refine alike_bind (ih fun w' hw z hz => hf w' (hw₁.trans hw) z (List.mem_cons_of_mem x hz)) ?_
    exact fun w₂ hw₂ ys hys => alike_pure (.cons (hQ x hw₂ hy) hys)

theorem forall_of_forall₂ {Q : β → Prop} {xs : List γ} {ys : List β}
    (h : List.Forall₂ (fun _ y => Q y) xs ys) : ∀ y ∈ ys, Q y := by
  induction h with
  | nil => simp
  | cons hy _ ih => simpa using ⟨hy, ih⟩

/-- The same where nothing ties a result to its element. -/
theorem alike_mapM_all {f f' : γ → LowerM α ν σ β} {xs : List γ} (hQ : Persists Q)
    (hf : ∀ w', w ≤ w' → ∀ x ∈ xs, Alike Own w' (f x) (f' x) Q) :
    Alike Own w (xs.mapM f) (xs.mapM f') fun w ys => ∀ y ∈ ys, Q w y :=
  (alike_mapM (fun _ => hQ) hf).mono fun _ _ _ => forall_of_forall₂

theorem alike_mapM_has {f f' : γ → LowerM α ν σ (Handle ν)} {xs : List γ}
    (hf : ∀ w', w ≤ w' → ∀ x ∈ xs, Alike Own w' (f x) (f' x) Stage.Has) :
    Alike Own w (xs.mapM f) (xs.mapM f') Stage.HasAll := alike_mapM_all persists_has hf

theorem alike_forM {f f' : γ → LowerM α ν σ PUnit} {xs : List γ}
    (hf : ∀ w', w ≤ w' → ∀ x ∈ xs, Alike Own w' (f x) (f' x) Stage.Admits) :
    Alike Own w (xs.forM f) (xs.forM f') Stage.Admits := by
  induction xs generalizing w with
  | nil => exact alike_pure trivial
  | cons x xs ih =>
    refine alike_bind (hf w le_rfl x List.mem_cons_self) fun w₁ hw₁ _ _ => ?_
    exact ih fun w' hw z hz => hf w' (hw₁.trans hw) z (List.mem_cons_of_mem x hz)

theorem alike_foldlM {f f' : β → γ → LowerM α ν σ β} {xs : List γ} {y : β}
    (hf : ∀ w', w ≤ w' → ∀ y, Q w' y → ∀ x ∈ xs, Alike Own w' (f y x) (f' y x) Q) (hy : Q w y) :
    Alike Own w (xs.foldlM f y) (xs.foldlM f' y) Q := by
  induction xs generalizing w y with
  | nil => exact alike_pure hy
  | cons x xs ih =>
    rw [List.foldlM_cons, List.foldlM_cons]
    refine alike_bind (hf w le_rfl y hy x List.mem_cons_self) fun w₁ hw₁ z hz => ?_
    exact ih (fun w' hw z hz x hx => hf w' (hw₁.trans hw) z hz x (List.mem_cons_of_mem _ hx)) hz

variable [Circulation Own]

/-- A program that makes no handles. -/
theorem alike_of_untouched (h : Keeps Untouched m) : Alike Own w m m Stage.Admits :=
  fun s hs => ⟨rfl, w, le_rfl, hs.untouched (h s), fun _ _ => trivial⟩

theorem alike_lift (r : Except Fault β) :
    Alike Own w (lift r : LowerM α ν σ β) (lift r) Stage.Admits := alike_of_untouched (keeps_lift r)

omit [Circulation Own] in
/-- What follows a result that no fault prevented. -/
theorem alike_lift_ok (r : Except Fault β) :
    Alike Own w (lift r : LowerM α ν σ β) (lift r) fun _ x => r = .ok x := by
  cases r with
  | ok x => exact alike_pure rfl
  | error f => exact alike_fail _

theorem alike_log (config : Config α) (level : Int) (line : Except Fault String) :
    Alike Own w (log config level line : LowerM α ν σ Unit) (log config level line) Stage.Admits :=
  alike_of_untouched (keeps_log config level line)

omit [Circulation Own] in
theorem alike_const (x : ν) :
    Alike Own w (pure (.const x) : LowerM α ν σ (Handle ν)) (pure (.const x)) Stage.Has :=
  alike_pure (w.has_const x)

/-! ### Nodes that circulate -/

omit [Circulation Own]

variable [OpenCirculation Own]

theorem alike_node (f : SolverFunction) {args : List (Handle ν)} (hargs : w.HasAll args) :
    Alike Own w (node f args : LowerM α ν σ (Handle ν)) (node f args) Stage.Has := by
  intro s hs
  obtain ⟨w', hw, hnode, hown⟩ := OpenCirculation.node f hs.own hargs
  exact ⟨rfl, w', hw, hs.mono hw rfl rfl hown, fun _ hy => by cases hy; exact hnode⟩

theorem alike_binary (f : ν → ν → ν) (symbol : SolverFunction) {x y : Handle ν} (hx : w.Has x)
    (hy : w.Has y) :
    Alike Own w (binary f symbol x y : LowerM α ν σ (Handle ν)) (binary f symbol x y) Stage.Has := by
  unfold binary
  split
  · exact alike_const _
  · exact alike_node _ (by simp [hx, hy])

variable [Numeral ν]

theorem alike_add {x y : Handle ν} (hx : w.Has x) (hy : w.Has y) :
    Alike Own w (add x y : LowerM α ν σ (Handle ν)) (add x y) Stage.Has := alike_binary _ _ hx hy

theorem alike_sub {x y : Handle ν} (hx : w.Has x) (hy : w.Has y) :
    Alike Own w (sub x y : LowerM α ν σ (Handle ν)) (sub x y) Stage.Has := alike_binary _ _ hx hy

theorem alike_mul {x y : Handle ν} (hx : w.Has x) (hy : w.Has y) :
    Alike Own w (mul x y : LowerM α ν σ (Handle ν)) (mul x y) Stage.Has := alike_binary _ _ hx hy

theorem alike_neg {x : Handle ν} (hx : w.Has x) :
    Alike Own w (neg x : LowerM α ν σ (Handle ν)) (neg x) Stage.Has := by
  unfold neg
  split
  · exact alike_const _
  · exact alike_node _ (by simp [hx])

end

/-! ### Back-ends that are alike -/

/-- What may be created of a model: a back-end need not be in order with every variable and every
sequence, which is given by the names of its members. -/
structure Creatable (α : Type) where
  Takes : Variable α → Prop
  TakesSequence : List String → Prop

/-- All variables and all sequences of the model may be created. -/
structure Creatable.TakesModel (D : Creatable α) (c : Context α) : Prop where
  vars : ∀ v ∈ c.vars, ∀ d ∈ c.workspace.findVariable v, D.Takes d
  sequences : ∀ model ∈ c.workspace.findModel c.model, ∀ q ∈ model.sequences,
    D.TakesSequence ((c.workspace.sequenceMembers q).map c.workspace.variableName)

/-- The operations of two back-ends, over handles in circulation. What is created is restricted to
`D`, and new integers have a range that is not empty. -/
structure Backend.Agree [Numeral ν] (B B' : Backend α ν σ) (Own : Stage ν V → Nat → σ → Prop)
    (D : Creatable α) : Prop where
  name : B'.name = B.name
  constant {w} (x : α) : Alike Own w (B.constant x) (B'.constant x) Stage.Has
  constant? {w} (x : α) : Alike Own w (B.constant? x) (B'.constant? x) Stage.HasAny
  negate {w h} : w.Has h → Alike Own w (B.negate h) (B'.negate h) Stage.Has
  add {w x y} : w.Has x → w.Has y → Alike Own w (B.add x y) (B'.add x y) Stage.Has
  subtract {w x y} : w.Has x → w.Has y → Alike Own w (B.subtract x y) (B'.subtract x y) Stage.Has
  multiply {w x y} : w.Has x → w.Has y → Alike Own w (B.multiply x y) (B'.multiply x y) Stage.Has
  divide {w x y} : w.Has x → w.Has y → Alike Own w (B.divide x y) (B'.divide x y) Stage.Has
  power {w x y} : w.Has x → w.Has y → Alike Own w (B.power x y) (B'.power x y) Stage.Has
  absolute {w h} : w.Has h → Alike Own w (B.absolute h) (B'.absolute h) Stage.Has
  minimum {w hs} : w.HasAll hs → Alike Own w (B.minimum hs) (B'.minimum hs) Stage.Has
  maximum {w hs} : w.HasAll hs → Alike Own w (B.maximum hs) (B'.maximum hs) Stage.Has
  reify {w x y} (c : Comparison) : w.Has x → w.Has y →
    Alike Own w (B.reify c x y) (B'.reify c x y) Stage.Has
  complement {w h} : w.Has h → Alike Own w (B.complement h) (B'.complement h) Stage.Has
  conjoin {w hs} : w.HasAll hs → Alike Own w (B.conjoin hs) (B'.conjoin hs) Stage.Has
  disjoin {w hs} : w.HasAll hs → Alike Own w (B.disjoin hs) (B'.disjoin hs) Stage.Has
  conditional {w c t e} : w.Has c → w.Has t → w.Has e →
    Alike Own w (B.conditional c t e) (B'.conditional c t e) Stage.Has
  firstMatch {w cs vs h} : w.HasAll cs → w.HasAll vs → w.Has h →
    Alike Own w (B.firstMatch cs vs h) (B'.firstMatch cs vs h) Stage.Has
  membership {w h hs} : w.Has h → (∀ o ∈ hs, w.HasAny o) →
    Alike Own w (B.membership h hs) (B'.membership h hs) Stage.Has
  lookup {w h} {entries : List (Int × Handle ν)} : w.Has h → (∀ e ∈ entries, w.Has e.2) →
    Alike Own w (B.lookup h entries) (B'.lookup h entries) Stage.Has
  keyedMembership? {w key} (c : Context α) (keys : List Int) (v : VarId) : w.Has key →
    Option.Rel (fun m m' => Alike Own w m m' Stage.Has) (B.keyedMembership? c key keys v)
      (B'.keyedMembership? c key keys v)
  createVariable {w d} : D.Takes d →
    Alike Own w (B.createVariable d) (B'.createVariable d) Stage.Has
  createSequence {w} (name : String) {members : List String} : D.TakesSequence members →
    Alike Own w (B.createSequence name members) (B'.createSequence name members) Stage.HasAll
  newInteger {w} {lower upper : Int} (hint : String) : lower ≤ upper →
    Alike Own w (B.newInteger lower upper hint) (B'.newInteger lower upper hint) Stage.Has
  flatIndex {w key column} {count width : Nat} (firstKey : Int) : 0 < count → 0 < width → w.Has key →
    w.Has column → Alike Own w (B.flatIndex count width firstKey key column)
      (B'.flatIndex count width firstKey key column) Stage.Has
  postEqual {w x y} : w.Has x → w.Has y → Alike Own w (B.postEqual x y) (B'.postEqual x y) Stage.Admits
  postComparison {w x y} (c : Comparison) : w.Has x → w.Has y →
    Alike Own w (B.postComparison c x y) (B'.postComparison c x y) Stage.Admits
  postTrue {w h} : w.Has h → Alike Own w (B.postTrue h) (B'.postTrue h) Stage.Admits
  postDefinition {w x h} (name : String) : w.Has x → w.Has h →
    Alike Own w (B.postDefinition name x h) (B'.postDefinition name x h) Stage.Admits
  postObjective {w h} (sense : Sense) : w.Has h →
    Alike Own w (B.postObjective sense h) (B'.postObjective sense h) Stage.Admits

end DecisionModel
