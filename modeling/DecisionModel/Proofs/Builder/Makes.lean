import DecisionModel.Proofs.Builder.WellFormed

/-!
# What building makes

`Makes` is a triple for `Build`: from a well-formed workspace a computation reaches a well-formed one,
whether it refuses or not, the register and the variables only grow, and what it returns has a
property. The lemmas follow the primitives of `Build`, and `makes_node` says that a node over
well-built operands is well built.
-/

namespace DecisionModel.Build

variable {α β γ : Type} [Scalar α] {origin origin' : NodeId → Option (Term α)} {w w' : Workspace α}

/-! ### Triples -/

/-- From `w`, which is well formed over `origin`, `m` makes a well-formed workspace, and `Q` holds of
what it returns. -/
def Makes (origin : NodeId → Option (Term α)) (w : Workspace α) (m : Build α β)
    (Q : (NodeId → Option (Term α)) → Workspace α → β → Prop) : Prop :=
  ∃ origin', Grown origin w origin' (m.run.run w).2 ∧
    ∀ x, (m.run.run w).1 = .ok x → Q origin' (m.run.run w).2 x

variable {P Q : (NodeId → Option (Term α)) → Workspace α → β → Prop}
  {R : (NodeId → Option (Term α)) → Workspace α → γ → Prop}

theorem Makes.bind {m : Build α β} {f : β → Build α γ} (hm : Makes origin w m P)
    (hf : ∀ origin₁ w₁ x, Grown origin w origin₁ w₁ → P origin₁ w₁ x → Makes origin₁ w₁ (f x) R) :
    Makes origin w (m >>= f) R := by
  obtain ⟨origin₁, g₁, h₁⟩ := hm
  unfold Makes
  rw [ExceptT.run_bind, StateT.run_bind]
  rcases hrun : m.run.run w with ⟨x | x, w₁⟩
  · rw [hrun] at g₁
    exact ⟨origin₁, g₁, fun _ h => nomatch h⟩
  · rw [hrun] at g₁ h₁
    obtain ⟨origin₂, g₂, h₂⟩ := hf origin₁ w₁ x g₁ (h₁ x rfl)
    exact ⟨origin₂, g₁.trans g₂, h₂⟩

theorem Makes.mono {m : Build α β} (h : Makes origin w m P)
    (hPQ : ∀ origin₁ w₁ x, Grown origin w origin₁ w₁ → P origin₁ w₁ x → Q origin₁ w₁ x) :
    Makes origin w m Q := by
  obtain ⟨origin₁, g, h⟩ := h
  exact ⟨origin₁, g, fun x hx => hPQ _ _ x g (h x hx)⟩

theorem makes_pure (hw : w.WellFormed origin) {x : β} (hQ : Q origin w x) :
    Makes origin w (pure x) Q := by
  refine ⟨origin, .refl hw, fun y hy => ?_⟩
  cases hy
  exact hQ

theorem makes_refuse (hw : w.WellFormed origin) {e : BuildError α} :
    Makes origin w (refuse e : Build α β) Q := ⟨origin, .refl hw, fun _ h => nomatch h⟩

/-- After a refusal nothing is made. -/
theorem makes_refusal (hw : w.WellFormed origin) {e : BuildError α} {f : β → Build α γ} :
    Makes origin w (refuse e >>= f) R :=
  (makes_refuse (Q := fun _ _ _ => False) hw).bind fun _ _ _ _ h => h.elim

/-- What is made after a check that refuses if `p` holds. -/
theorem makes_check (hw : w.WellFormed origin) {p : Prop} [Decidable p] {e : BuildError α}
    {f : PUnit → Build α β} (h : ¬ p → Makes origin w (f ⟨⟩) Q) :
    Makes origin w (if p then refuse e >>= f else f ⟨⟩) Q := by
  split
  · exact makes_refusal hw
  · exact h ‹_›

theorem makes_lift (hw : w.WellFormed origin) {r : Except Fault β}
    (hQ : ∀ x, r = .ok x → Q origin w x) : Makes origin w (lift r) Q := by
  cases r with
  | ok x => exact makes_pure hw (hQ x rfl)
  | error f => exact makes_refuse hw

/-- What is made after a look at the workspace. -/
theorem makes_get {f : Workspace α → Build α β} (h : Makes origin w (f w) Q) :
    Makes origin w (get >>= f) Q := h

/-- What is made after the workspace was changed. -/
theorem makes_modify {g : Workspace α → Workspace α} {f : PUnit → Build α β}
    (h : Grown origin w origin' (g w)) (hf : Makes origin' (g w) (f ⟨⟩) Q) :
    Makes origin w (modify g >>= f) Q := by
  obtain ⟨origin₂, g₂, h₂⟩ := hf
  exact ⟨origin₂, h.trans g₂, h₂⟩

theorem makes_set {f : PUnit → Build α β} (h : Grown origin w origin' w')
    (hf : Makes origin' w' (f ⟨⟩) Q) : Makes origin w (set w' >>= f) Q :=
  makes_modify (g := fun _ => w') h hf

/-- Steps over a list, with a property of each result that building keeps. -/
theorem makes_mapM {f : β → Build α γ} {xs : List β} (hw : w.WellFormed origin)
    (hkeep : ∀ origin₁ w₁ origin₂ w₂ y, Grown origin₁ w₁ origin₂ w₂ → R origin₁ w₁ y →
      R origin₂ w₂ y)
    (hf : ∀ x ∈ xs, ∀ origin₁ w₁, Grown origin w origin₁ w₁ → Makes origin₁ w₁ (f x) R) :
    Makes origin w (xs.mapM f) fun origin' w' ys =>
      ys.length = xs.length ∧ ∀ y ∈ ys, R origin' w' y := by
  induction xs generalizing origin w with
  | nil => exact makes_pure hw ⟨rfl, by simp⟩
  | cons x xs ih =>
    rw [List.mapM_cons]
    refine (hf x (by simp) origin w (.refl hw)).bind fun origin₁ w₁ y g₁ hy => ?_
    refine (ih g₁.wellFormed fun z hz origin₂ w₂ g₂ =>
      hf z (by simp [hz]) origin₂ w₂ (g₁.trans g₂)).bind fun origin₂ w₂ ys g₂ hys => ?_
    refine makes_pure g₂.wellFormed ⟨by simp [hys.1], fun z hz => ?_⟩
    rcases List.mem_cons.mp hz with rfl | hz
    · exact hkeep _ _ _ _ _ g₂ hy
    · exact hys.2 z hz

/-! ### Terms -/

/-- What is returned is a well-built term. -/
abbrev IsTerm : (NodeId → Option (Term α)) → Workspace α → Term α → Prop :=
  fun origin _ t => t.WellBuilt origin

theorem makes_node (hw : w.WellFormed origin) {op : Operator} {ts : List (Term α)}
    (hs : op.Shape ts) (hts : ∀ t ∈ ts, t.WellBuilt origin)
    (hop : ∀ name, op = .custom name → name ∈ w.operators := by simp) :
    Makes origin w (node op ts) IsTerm := by
  have hg : Grown origin w _ { w with nextNode := w.nextNode + 1 } :=
    grown_enter hw (t := .node ⟨w.nextNode⟩ op ts) fun name h => hop name (Option.some.inj h)
  refine ⟨_, hg, fun t ht => ?_⟩
  cases ht
  exact .node (by simp) hs fun t ht => hg.wellBuilt (hts t ht)

theorem makes_wrapTerm (hw : w.WellFormed origin) {t : Term α} (ht : t.WellBuilt origin) :
    Makes origin w (wrapTerm t) IsTerm := by
  unfold wrapTerm
  split
  · exact makes_pure hw ht
  · exact makes_node hw ⟨t, rfl⟩ (by simpa using ht)

theorem makes_operand (hw : w.WellFormed origin) {x : Input α} (hx : x.Known origin) :
    Makes origin w (operand x) IsTerm := by
  cases x with
  | term t => exact makes_pure hw hx
  | literal l =>
    refine (makes_lift (Q := fun _ _ _ => True) hw fun _ _ => trivial).bind fun origin₁ w₁ o g _ => ?_
    cases o with
    | some x => exact makes_pure g.wellFormed (.const x)
    | none => exact makes_refuse g.wellFormed
  | other kind description => exact makes_refuse hw

theorem makes_wrap (hw : w.WellFormed origin) {x : Input α} (hx : x.Known origin) :
    Makes origin w (wrap x) IsTerm :=
  (makes_operand hw hx).bind fun _ _ _ g ht => makes_wrapTerm g.wellFormed ht

theorem makes_operands (hw : w.WellFormed origin) {xs : List (Input α)}
    (hxs : ∀ x ∈ xs, x.Known origin) :
    Makes origin w (xs.mapM operand) fun origin' _ ts =>
      ts.length = xs.length ∧ ∀ t ∈ ts, t.WellBuilt origin' :=
  makes_mapM (R := IsTerm) hw (fun _ _ _ _ _ g ht => g.wellBuilt ht) fun x hx _ _ g =>
    makes_operand g.wellFormed (g.known (hxs x hx))

end DecisionModel.Build
