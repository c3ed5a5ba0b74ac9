import DecisionModel.Builder.Function
import DecisionModel.Proofs.Builder.Makes

/-!
# Expressions are well built

Each builder of expressions, given well-built terms, returns a well-built term. Most of them make one
node (`makes_apply`, `makes_connect`, `makes_custom`); a copy gives new identities to all nodes of a
term (`makes_copy`).
-/

namespace DecisionModel.Build

variable {α β : Type} [Scalar α] {origin origin' : NodeId → Option (Term α)} {w w' : Workspace α}

/-- What is returned can be used. -/
abbrev IsKnown : (NodeId → Option (Term α)) → Workspace α → Input α → Prop :=
  fun origin _ x => x.Known origin

theorem Makes.input {m : Build α (Term α)} (h : Makes origin w m IsTerm) :
    Makes origin w (Input.term <$> m) IsKnown := by
  rw [← bind_pure_comp]
  exact h.bind fun _ _ _ g ht => makes_pure g.wellFormed ht

theorem makes_apply (hw : w.WellFormed origin) {op : Operator} {xs : List (Input α)}
    (hs : ∀ ts : List (Term α), ts.length = xs.length → op.Shape ts)
    (hxs : ∀ x ∈ xs, x.Known origin) (hop : ∀ name, op ≠ .custom name := by simp) :
    Makes origin w (apply op xs) IsTerm :=
  (makes_operands hw hxs).bind fun _ _ ts g ⟨hlen, hts⟩ =>
    makes_node g.wellFormed (hs ts hlen) hts fun name h => absurd h (hop name)

theorem makes_calculate (hw : w.WellFormed origin) {op : Operator}
    {f : Number α → Number α → Number α} {x y : Input α}
    (hs : ∀ ts : List (Term α), ts ≠ [] → op.Shape ts) (hx : x.Known origin)
    (hy : y.Known origin) (hop : ∀ name, op ≠ .custom name := by simp) :
    Makes origin w (calculate op f x y) IsKnown := by
  have hne : ∀ ts : List (Term α), ts.length = [x, y].length → op.Shape ts := fun ts hlen =>
    hs ts (List.ne_nil_of_length_eq_add_one hlen)
  unfold calculate
  split
  · exact makes_pure hw trivial
  · exact (makes_apply hw hne (by simp [hx, hy]) hop).input

theorem makes_negate (hw : w.WellFormed origin) {x : Input α} (hx : x.Known origin) :
    Makes origin w (negate x) IsKnown := by
  unfold negate
  split
  · exact makes_pure hw trivial
  · have hs : ∀ ts : List (Term α), ts.length = [x].length → Operator.negation.Shape ts :=
      fun ts h => List.length_eq_one_iff.mp h
    exact (makes_apply hw hs (by simp [hx])).input

theorem makes_compare (hw : w.WellFormed origin) (c : Comparison) {x y : Input α}
    (hx : x.Known origin) (hy : y.Known origin) : Makes origin w (compare c x y) IsTerm := by
  have hs : ∀ ts : List (Term α), ts.length = [x, y].length → (Operator.comparison c).Shape ts :=
    fun ts h => List.length_eq_two.mp h
  exact makes_apply hw hs (by simp [hx, hy])

theorem makes_relateToOther (hw : w.WellFormed origin) (c : Comparison) (kind : String) :
    Makes origin w (relateToOther c kind) IsKnown := by
  unfold relateToOther
  split
  · exact makes_pure hw trivial
  · exact makes_pure hw trivial
  · exact makes_refuse hw

theorem makes_relateToLiteral (hw : w.WellFormed origin) (c : Comparison) {t : Term α}
    (ht : t.WellBuilt origin) (l : Literal α) :
    Makes origin w (relateToLiteral c t l) IsKnown := by
  unfold relateToLiteral
  split
  · exact makes_relateToOther hw _ _
  · exact (makes_compare hw c (x := .term t) (y := .literal l) ht trivial).input

theorem makes_relate (hw : w.WellFormed origin) (c : Comparison) {x y : Input α}
    (hx : x.Known origin) (hy : y.Known origin) : Makes origin w (relate c x y) IsKnown := by
  unfold relate
  split
  · unfold relateLiterals
    split
    · exact makes_pure hw trivial
    · exact makes_pure hw trivial
    · exact makes_pure hw trivial
    · exact makes_relateToOther hw _ _
  · exact makes_relateToLiteral hw _ hy _
  · exact makes_relateToLiteral hw _ hx _
  · exact (makes_compare hw c hx hy).input
  · exact makes_relateToOther hw _ _
  · exact makes_relateToOther hw _ _

omit [Scalar α] in
theorem spliced_wellBuilt {op : Operator} {t : Term α} (ht : t.WellBuilt origin) :
    ∀ s ∈ spliced op t, s.WellBuilt origin := by
  intro s hs
  unfold spliced at hs
  split at hs
  · cases t with
    | node id op' ts => exact ht.operand hs
    | _ => simp [Term.operands] at hs
  · obtain rfl := List.mem_singleton.mp hs
    exact ht

theorem makes_connect (hw : w.WellFormed origin) {op : Operator} {x y : Input α}
    (hs : ∀ ts : List (Term α), op.Shape ts) (hx : x.Known origin) (hy : y.Known origin)
    (hop : ∀ name, op ≠ .custom name := by simp) : Makes origin w (connect op x y) IsTerm :=
  (makes_operand hw hx).bind fun _ _ _ g hs' =>
    (makes_operand g.wellFormed (g.known hy)).bind fun _ _ _ g' ht => by
      refine makes_node g'.wellFormed (hs _) (fun u hu => ?_) fun name h => absurd h (hop name)
      rcases List.mem_append.mp hu with hu | hu
      · exact spliced_wellBuilt (g'.wellBuilt hs') u hu
      · exact spliced_wellBuilt ht u hu

theorem makes_complement (hw : w.WellFormed origin) {x : Input α} (hx : x.Known origin) :
    Makes origin w (complement x) IsTerm := by
  refine (makes_operand hw hx).bind fun _ _ t g ht => ?_
  split
  · exact makes_wrapTerm g.wellFormed (ht.operand (by simp))
  · exact makes_refuse g.wellFormed
  · exact makes_node g.wellFormed ⟨t, rfl⟩ (by simpa using ht)

theorem makes_implies (hw : w.WellFormed origin) {x y : Input α} (hx : x.Known origin)
    (hy : y.Known origin) : Makes origin w (implies x y) IsTerm :=
  (makes_complement hw hx).bind fun _ _ _ g ht =>
    makes_connect g.wellFormed (fun _ => trivial) ht (g.known hy)

/-- The condition and the consequence of an implication are well built. -/
theorem makes_implication (hw : w.WellFormed origin) {x : Input α} (hx : x.Known origin) :
    Makes origin w (implication? x) fun origin' _ p =>
      ∀ s t, p = some (s, t) → s.WellBuilt origin' ∧ t.WellBuilt origin' := by
  unfold implication?
  split
  · split
    · exact makes_pure hw (by simp)
    · have hcondition := (hx.operand (List.mem_cons_self ..)).operand (List.mem_cons_self ..)
      have hconsequence := hx.operand (List.mem_cons_of_mem _ (List.mem_singleton_self _))
      refine (makes_wrapTerm hw hcondition).bind fun _ _ _ g hs => ?_
      refine (makes_wrapTerm g.wellFormed (g.wellBuilt hconsequence)).bind fun _ _ _ g' ht => ?_
      refine makes_pure g'.wellFormed fun s t h => ?_
      cases h
      exact ⟨g'.wellBuilt hs, ht⟩
  · exact makes_refuse hw
  · exact makes_pure hw (by simp)

/-! ### Copies -/

/-- The second register has no operators that the first one has not. -/
def SameOperators (origin origin' : NodeId → Option (Term α)) : Prop :=
  ∀ ⦃id s⦄, origin' id = some s → ∃ id₀ s₀, origin id₀ = some s₀ ∧ s₀.operator? = s.operator?

omit [Scalar α] in
theorem SameOperators.trans {origin'' : NodeId → Option (Term α)} (h : SameOperators origin origin')
    (h' : SameOperators origin' origin'') : SameOperators origin origin'' := by
  intro id s hs
  obtain ⟨id₁, s₁, hs₁, hop₁⟩ := h' hs
  obtain ⟨id₀, s₀, hs₀, hop₀⟩ := h hs₁
  exact ⟨id₀, s₀, hs₀, hop₀.trans hop₁⟩

/-- A copy has identities that were not given before, and is well built over a register with them. -/
def Copied (origin : NodeId → Option (Term α)) (next : Nat) (t : Term α) (r : Term α × Nat) : Prop :=
  ∃ origin', (∀ id s, origin id = some s → origin' id = some s) ∧
    (∀ id s, origin' id = some s → id.index < r.2) ∧ next ≤ r.2 ∧ r.1.WellBuilt origin' ∧
    r.1.isCollection = t.isCollection ∧ SameOperators origin origin'

omit [Scalar α] in
theorem copyAll_wellBuilt {ts : List (Term α)}
    (ih : ∀ t ∈ ts, ∀ (origin : NodeId → Option (Term α)) (next : Nat), t.WellBuilt origin →
      (∀ id s, origin id = some s → id.index < next) → Copied origin next t (t.copy next))
    {next : Nat} (hts : ∀ t ∈ ts, t.WellBuilt origin)
    (hfresh : ∀ id s, origin id = some s → id.index < next) :
    ∃ origin', (∀ id s, origin id = some s → origin' id = some s) ∧
      (∀ id s, origin' id = some s → id.index < (Term.copyAll next ts).2) ∧
      next ≤ (Term.copyAll next ts).2 ∧ (∀ t ∈ (Term.copyAll next ts).1, t.WellBuilt origin') ∧
      (Term.copyAll next ts).1.map Term.isCollection = ts.map Term.isCollection ∧
      SameOperators origin origin' := by
  induction ts generalizing origin next with
  | nil =>
    exact ⟨origin, fun _ _ h => h, hfresh, Nat.le_refl _, by simp [Term.copyAll], rfl,
      fun id s h => ⟨id, s, h, rfl⟩⟩
  | cons t ts ihs =>
    obtain ⟨origin₁, ho₁, hf₁, hn₁, hw₁, hc₁, hop₁⟩ :=
      ih t (by simp) origin next (hts t (by simp)) hfresh
    obtain ⟨origin₂, ho₂, hf₂, hn₂, hw₂, hc₂, hop₂⟩ := ihs (fun u hu => ih u (by simp [hu]))
      (fun u hu => (hts u (by simp [hu])).mono ho₁) hf₁
    refine ⟨origin₂, fun id s h => ho₂ id s (ho₁ id s h), hf₂, Nat.le_trans hn₁ hn₂, fun u hu => ?_, ?_,
      hop₁.trans hop₂⟩
    · simp only [Term.copyAll] at hu
      rcases List.mem_cons.mp hu with rfl | hu
      · exact hw₁.mono ho₂
      · exact hw₂ u hu
    · simp only [Term.copyAll, List.map_cons, hc₁, hc₂]

omit [Scalar α] in
/-- The form that an operator calls for is one of the number of operands and of collections among
them. -/
theorem shape_congr {op : Operator} {ss ts : List (Term α)}
    (h : ss.map Term.isCollection = ts.map Term.isCollection) (hs : op.Shape ts) : op.Shape ss := by
  have hlen : ss.length = ts.length := by simpa using congrArg List.length h
  cases op with
  | wrapper | negation | complement | collection =>
    obtain ⟨t, rfl⟩ := hs
    exact List.length_eq_one_iff.mp hlen
  | comparison c =>
    obtain ⟨s, t, rfl⟩ := hs
    exact List.length_eq_two.mp hlen
  | entry =>
    obtain ⟨container, index, rfl, hc⟩ := hs
    obtain ⟨s, t, rfl⟩ := List.length_eq_two.mp hlen
    exact ⟨s, t, rfl, by simpa [hc] using congrArg List.head? h⟩
  | difference | quotient => exact List.length_pos_iff.mp (hlen ▸ List.length_pos_iff.mpr hs)
  | custom name => exact ⟨fun n hn => hlen.trans (hs.1 n hn), hlen ▸ hs.2⟩
  | _ => trivial

omit [Scalar α] in
theorem copy_wellBuilt (t : Term α) :
    ∀ (origin : NodeId → Option (Term α)) (next : Nat), t.WellBuilt origin →
      (∀ id s, origin id = some s → id.index < next) → Copied origin next t (t.copy next) := by
  induction t using Term.induction with
  | node id op ts ih =>
    intro origin next ht hfresh
    obtain ⟨origin₁, ho, hf, hn, hw, hc, hop⟩ :=
      copyAll_wellBuilt ih (fun t hm => ht.operand hm) hfresh
    rcases hcopy : Term.copyAll next ts with ⟨us, n⟩
    rw [hcopy] at hf hn hw hc
    have hne : ∀ id s, origin₁ id = some s → id ≠ ⟨n⟩ := by
      rintro id s h rfl
      exact absurd (hf _ _ h) (Nat.lt_irrefl n)
    have hgrow : ∀ id s, origin₁ id = some s →
        Function.update origin₁ ⟨n⟩ (some (.node ⟨n⟩ op us)) id = some s := fun id s h => by
      rw [Function.update_of_ne (hne id s h), h]
    simp only [Term.copy, hcopy]
    refine ⟨Function.update origin₁ ⟨n⟩ (some (.node ⟨n⟩ op us)),
      fun id s h => hgrow id s (ho id s h), fun id s h => ?_, Nat.le_succ_of_le hn, ?_, rfl,
      fun i s h => ?_⟩
    · by_cases hid : id = ⟨n⟩
      · rw [hid]
        exact Nat.lt_succ_self n
      · rw [Function.update_of_ne hid] at h
        exact Nat.lt_succ_of_lt (hf id s h)
    · exact .node (by simp) (shape_congr hc (ht.shape (.refl _))) fun u hu => (hw u hu).mono hgrow
    · by_cases hid : i = ⟨n⟩
      · rw [hid, Function.update_self] at h
        cases h
        exact ⟨id, _, ht.registered (.refl _) rfl, rfl⟩
      · rw [Function.update_of_ne hid] at h
        exact hop h
  | _ =>
    exact fun origin next ht hfresh => ⟨origin, fun _ _ h => h, hfresh, Nat.le_refl _, ht, rfl,
      fun id s h => ⟨id, s, h, rfl⟩⟩

theorem makes_copy (hw : w.WellFormed origin) {x : Input α} (hx : x.Known origin) :
    Makes origin w (copy x) IsKnown := by
  unfold copy
  split
  · rename_i t
    obtain ⟨origin', ho, hf, hn, ht, -, hop⟩ := copy_wellBuilt t origin w.nextNode hx
      fun _ _ => hw.fresh
    have hnext : ({ w with nextNode := (t.copy w.nextNode).2 } : Workspace α).WellFormed origin :=
      hw.congr rfl rfl rfl rfl hn fun _ => id
    have hnamed : w.Names origin' := fun id s hs name hname => by
      obtain ⟨id₀, s₀, hs₀, hsame⟩ := hop hs
      exact hw.named hs₀ name (hsame.trans hname)
    have hg : Grown origin w origin' { w with nextNode := (t.copy w.nextNode).2 } :=
      ⟨ho _ _, fun h => h, hnext.register ho hf hnamed⟩
    exact ⟨origin', hg, fun y hy => by cases hy; exact ht⟩
  · exact makes_pure hw hx

/-! ### Named operators -/

theorem grown_registerOperator (hw : w.WellFormed origin) (name : String) :
    Grown origin w origin (w.registerOperator name) := by
  refine ⟨fun h => h, fun h => by simpa [Workspace.findVariable] using h, ?_⟩
  refine hw.congr (by simp) (by simp) (by simp) (by simp) (by simp) fun other h => ?_
  rw [Workspace.registerOperator_operators]
  split
  · exact h
  · exact List.mem_append_left _ h

/-- The checks of a named operator leave it the operands that it reads. -/
theorem operandsRead_le {name : String} {n : Nat}
    (harity : ∀ k, Operator.arity? name = some k → n = k)
    (hconditional : ¬ (name = "n_ary_if" ∧ (n < 3 ∨ n % 2 = 0)))
    (hneeded : ¬ (name ∈ ["min", "max", "avg", "element_of", "not_element_of", "at"] ∧ n = 0)) :
    Operator.operandsRead name ≤ n := by
  unfold Operator.operandsRead
  split
  case h_1 => exact Nat.le_of_eq (harity 1 rfl).symm
  case h_2 =>
    have hn : ¬ (n < 3 ∨ n % 2 = 0) := fun h => hconditional ⟨rfl, h⟩
    omega
  case h_6 => exact Nat.le_of_eq (harity 2 rfl).symm
  case h_7 => exact Nat.le_of_eq (harity 3 rfl).symm
  case h_8 => exact Nat.zero_le n
  all_goals exact Nat.pos_of_ne_zero fun h => hneeded ⟨by simp, h⟩

theorem makes_custom (hw : w.WellFormed origin) {name : String} {xs : List (Input α)}
    (hxs : ∀ x ∈ xs, x.Known origin) : Makes origin w (custom name xs) IsTerm := by
  refine (makes_operands hw hxs).bind fun origin₁ w₁ ts g ⟨_, hts⟩ => ?_
  have hnode : (Operator.custom name).Shape ts →
      Makes origin₁ w₁ (do modify (·.registerOperator name); node (.custom name) ts) IsTerm := by
    intro hs
    have g' := grown_registerOperator g.wellFormed name
    refine makes_modify g' (makes_node g'.wellFormed hs hts fun other h => ?_)
    obtain rfl : name = other := by simpa using h
    exact Workspace.mem_registerOperator _ name
  have hlast : (∀ n, Operator.arity? name = some n → ts.length = n) → Makes origin₁ w₁ (do
      if name = "n_ary_if" ∧ (ts.length < 3 ∨ ts.length % 2 = 0) then
        refuse (.conditionalShape ts.length)
      if name ∈ ["min", "max", "avg", "element_of", "not_element_of", "at"] ∧ ts.length = 0 then
        refuse (.needsOperand name)
      modify (·.registerOperator name)
      node (.custom name) ts) IsTerm := fun harity =>
    makes_check g.wellFormed fun hconditional => makes_check g.wellFormed fun hneeded =>
      hnode ⟨harity, operandsRead_le harity hconditional hneeded⟩
  refine makes_check g.wellFormed fun _ => ?_
  dsimp only
  split
  · rename_i expected harity
    refine makes_check g.wellFormed fun hcount => hlast fun n hn => ?_
    rw [harity] at hn
    cases hn
    exact not_not.mp hcount
  · rename_i hnone
    exact hlast fun n hn => absurd hn (hnone n)

/-! ### Functions -/

/-- Looking for a collection only converts what is given. -/
theorem makes_anyCollection (hw : w.WellFormed origin) {xs : List (Input α)}
    (hxs : ∀ x ∈ xs, x.Known origin) : Makes origin w (anyCollection xs) fun _ _ _ => True := by
  induction xs generalizing origin w with
  | nil => exact makes_pure hw trivial
  | cons x xs ih =>
    unfold anyCollection
    refine (makes_operand hw (hxs x (by simp))).bind fun _ _ t g _ => ?_
    split
    · exact makes_pure g.wellFormed trivial
    · exact ih g.wellFormed fun y hy => g.known (hxs y (by simp [hy]))

theorem makes_checkSingleCollection (hw : w.WellFormed origin) (name : String) {xs : List (Input α)}
    (hxs : ∀ x ∈ xs, x.Known origin) :
    Makes origin w (checkSingleCollection name xs) fun _ _ _ => True := by
  unfold checkSingleCollection
  split
  · refine (makes_anyCollection hw hxs).bind fun _ _ _ g _ => ?_
    split
    · exact makes_refuse g.wellFormed
    · exact makes_pure g.wellFormed trivial
  · exact makes_pure hw trivial

theorem makes_collection (hw : w.WellFormed origin) {key : Input α} (hk : key.Known origin) :
    Makes origin w (collection key) IsTerm :=
  (makes_operand hw hk).bind fun _ _ t g ht => makes_check g.wellFormed fun _ =>
    makes_node g.wellFormed ⟨t, rfl⟩ (by simpa using ht)

theorem makes_aggregate (hw : w.WellFormed origin) (name : String) {xs : List (Input α)}
    (hxs : ∀ x ∈ xs, x.Known origin) : Makes origin w (aggregate name xs) IsTerm :=
  (makes_checkSingleCollection hw name hxs).bind fun _ _ _ g _ =>
    makes_custom g.wellFormed fun x hx => g.known (hxs x hx)

theorem makes_magnitude (hw : w.WellFormed origin) {x : Input α} (hx : x.Known origin) :
    Makes origin w (magnitude x) IsKnown := by
  unfold magnitude
  split
  · exact makes_pure hw trivial
  · exact (makes_custom hw (by simpa using hx)).input

/-- A named operator of a value and values of which none is a collection beside others. -/
theorem makes_checkedCustom (hw : w.WellFormed origin) (name : String) {x : Input α}
    {xs : List (Input α)} (hx : x.Known origin) (hxs : ∀ y ∈ xs, y.Known origin) :
    Makes origin w (do checkSingleCollection name xs; custom name (x :: xs)) IsTerm :=
  (makes_checkSingleCollection hw name hxs).bind fun _ _ _ g _ =>
    makes_custom g.wellFormed fun y hy => by
      rcases List.mem_cons.mp hy with rfl | hy
      · exact g.known hx
      · exact g.known (hxs y hy)

theorem makes_entryAt (hw : w.WellFormed origin) {index : Input α} {values : List (Input α)}
    (hx : index.Known origin) (hxs : ∀ y ∈ values, y.Known origin) :
    Makes origin w (entryAt index values) IsTerm := by
  unfold entryAt
  split
  · exact makes_refuse hw
  · rename_i first rest
    refine (makes_checkSingleCollection hw "at" hxs).bind fun _ _ _ g₁ _ => ?_
    refine (makes_operand g₁.wellFormed (g₁.known (hxs first (by simp)))).bind
      fun _ _ container g₂ hcontainer => ?_
    split
    · rename_i hc
      refine (makes_operand g₂.wellFormed (g₂.known (g₁.known hx))).bind fun _ _ i g₃ hi => ?_
      refine makes_node g₃.wellFormed ⟨container, i, rfl, hc⟩ ?_
      simpa using ⟨g₃.wellBuilt hcontainer, hi⟩
    · refine makes_custom g₂.wellFormed fun y hy => g₂.known (g₁.known ?_)
      rcases List.mem_cons.mp hy with rfl | hy
      · exact hx
      · exact hxs y hy

end DecisionModel.Build
