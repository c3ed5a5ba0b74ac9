import DecisionModel.Proofs.Lowering.Inline
import DecisionModel.Proofs.Tolerant.Folding

/-!
# Tolerant lowering of constant inline operands

If inline operands fold to numbers that agree with their values, so does the operator over them
(`folds_lowerInline`). What is needed beyond that of the operands is collected in `Benign`: sums add up,
a value is not sought among what is not a number, and a first match is a chain of additions.
-/

namespace DecisionModel

open LowerM Backend Outcome

variable {α σ : Type} [Scalar α]

/-! ### Operands -/

namespace Assignment

variable {a : Assignment α} {w : Workspace α}

/-- The readings of variables in an evaluation. -/
abbrev reads (a : Assignment α) (w : Workspace α) : VarId → Partially α (Reading α) :=
  a.readVariable w (w.vars.size + 1)

/-- The scalar is the value of the term, if it has one. -/
def AgreesWith (a : Assignment α) (w : Workspace α) (t : Term α) (y : α) : Prop :=
  ∀ x, a.evaluate w t = .ok (some x) → Scalar.Same y x

theorem AgreesWith.argument {t : Term α} {y : α} (h : a.AgreesWith w t y) (p : Option Place) :
    Agrees y ((a.argument w (a.reads w) p t).value ()) := by
  intro r hr
  refine h r.value ?_
  rw [evaluate, readWith, ofReading_argument none p, hr]
  rfl

theorem agreesAll_arguments {ts : List (Term α)} {ys : List α} (h : List.Forall₂ (a.AgreesWith w) ts ys)
    (id : NodeId) (k : Nat) : AgreesAll ys (a.arguments w (a.reads w) id k ts) := by
  induction h generalizing k with
  | nil => exact .nil
  | cons h _ ih => exact .cons (h.argument _) (ih (k + 1))

/-- The values of operands are those that the terms evaluate to. -/
theorem evaluate_of_values {id : NodeId} {k : Nat} {ts : List (Term α)} {rs : List (Reading α)}
    (h : Argument.values (a.arguments w (a.reads w) id k ts) = .ok (some rs)) :
    List.Forall₂ (fun t x => a.evaluate w t = .ok (some x)) ts (rs.map (·.value)) := by
  induction ts generalizing k rs with
  | nil =>
    cases h
    exact .nil
  | cons t ts ih =>
    obtain ⟨r, hr, h⟩ := exists_of_andThen h
    obtain ⟨rest, hrest, h⟩ := exists_of_andThen h
    cases h
    refine .cons ?_ (ih hrest)
    rw [evaluate, readWith, ofReading_argument none, hr]
    rfl

end Assignment

namespace Tolerant

variable {P : Primitives α σ} {c : Context α} {I : List (NodeId × Handle (Number α)) → Prop}
  {a : Assignment α} {t : Term α} {ts : List (Term α)}

/-- The handle is a number that agrees with the term. -/
def FoldsTo (c : Context α) (a : Assignment α) (t : Term α) (h : Handle (Number α)) : Prop :=
  ∃ y, h = scalar y ∧ a.AgreesWith c.workspace t y

/-- The handle is a number that agrees with the outcome. -/
def Renders (o : Partially α (Reading α)) (h : Handle (Number α)) : Prop :=
    ∃ y, h = scalar y ∧ Agrees y o

theorem renders_scalar {o : Partially α (Reading α)} {y : α} (h : Agrees y o) :
    Renders o (scalar y) := ⟨y, rfl, h⟩

variable (hts : ∀ t ∈ ts, Folds I (Backend.translate (backend P) c t) (FoldsTo c a t))

include hts in
theorem folds_lowerAll : Folds I (lowerAll (operandsOf (backend P) c ts)) fun hs =>
    ∃ ys, hs = ys.map scalar ∧ List.Forall₂ (a.AgreesWith c.workspace) ts ys := by
  rw [operandsOf_eq, lowerAll, List.mapM_map]
  refine (folds_mapM hts).mono fun hs h => ?_
  induction h with
  | nil => exact ⟨[], rfl, .nil⟩
  | cons h _ ih =>
    obtain ⟨y, rfl, hy⟩ := h
    obtain ⟨ys, rfl, hys⟩ := ih fun t ht => hts t (List.mem_cons_of_mem _ ht)
    exact ⟨y :: ys, rfl, .cons hy hys⟩

section

variable {f : Handle (Number α) → Handle (Number α) → TolerantM α σ (Handle (Number α))} {g : α → α → α}
  {D : α → Prop} (hf : ∀ x y, Folds I (f (scalar x) (scalar y)) fun h => D y ∧ h = scalar (g x y))

include hts hf

theorem folds_foldlM (y : α) :
    Folds I ((operandsOf (backend P) c ts).foldlM (fun h o => do f h (← o.lower)) (scalar y)) fun h =>
      ∃ ys, h = scalar (ys.foldl g y) ∧ List.Forall₂ (a.AgreesWith c.workspace) ts ys ∧
        ∀ d ∈ ys, D d := by
  induction ts generalizing y with
  | nil => exact folds_pure ⟨[], rfl, .nil, by simp⟩
  | cons t ts ih =>
    have hstep : Folds I (do f (scalar y) (← Backend.translate (backend P) c t)) fun h =>
        ∃ z, h = scalar (g y z) ∧ a.AgreesWith c.workspace t z ∧ D z := by
      refine folds_bind (hts t List.mem_cons_self) fun h hh => ?_
      obtain ⟨z, rfl, hz⟩ := hh
      exact (hf y z).mono fun k hk => ⟨z, hk.2, hz, hk.1⟩
    rw [operandsOf, List.foldlM_cons]
    refine folds_bind hstep fun h hh => ?_
    obtain ⟨z, rfl, hz, hd⟩ := hh
    refine (ih (fun t ht => hts t (List.mem_cons_of_mem _ ht)) (g y z)).mono fun k hk => ?_
    obtain ⟨zs, hk, hzs, hds⟩ := hk
    exact ⟨z :: zs, hk, .cons hz hzs, List.forall_mem_cons.mpr ⟨hd, hds⟩⟩

/-- A chain over operands that fold is a fold over numbers. -/
theorem folds_chain : Folds I (chain f (operandsOf (backend P) c ts)) fun h =>
    ∃ y ys, h = scalar (ys.foldl g y) ∧ List.Forall₂ (a.AgreesWith c.workspace) ts (y :: ys) ∧
      ∀ d ∈ ys, D d := by
  cases ts with
  | nil => exact folds_fail _
  | cons t ts =>
    refine folds_bind (hts t List.mem_cons_self) fun h hh => ?_
    obtain ⟨y, rfl, hy⟩ := hh
    refine (folds_foldlM (fun t ht => hts t (List.mem_cons_of_mem _ ht)) hf y).mono fun k hk => ?_
    obtain ⟨ys, hk, hys, hds⟩ := hk
    exact ⟨y, ys, hk, .cons hy hys, hds⟩

end

/-! ### What is computed from operands -/

variable (id : NodeId)

/-- The operands of a node. -/
abbrev argumentsOf (c : Context α) (a : Assignment α) (id : NodeId) (ts : List (Term α)) :
    List (Argument α) :=
  a.arguments c.workspace (a.reads c.workspace) id 0 ts

theorem tail_arguments : (argumentsOf c a id ts).tail =
    a.arguments c.workspace (a.reads c.workspace) id 1 ts.tail := by
  cases ts <;> rfl

variable {m : Handle (Number α) → TolerantM α σ (Handle (Number α))} {o : Partially α (Reading α)}

include hts

theorem folds_all {m : List (Handle (Number α)) → TolerantM α σ (Handle (Number α))}
    (hm : ∀ ys, AgreesAll ys (argumentsOf c a id ts) → Folds I (m (ys.map scalar)) (Renders o)) :
    Folds I (lowerAll (operandsOf (backend P) c ts) >>= m) (Renders o) := by
  refine folds_bind (folds_lowerAll hts) fun hs hhs => ?_
  obtain ⟨ys, rfl, hys⟩ := hhs
  exact hm ys (Assignment.agreesAll_arguments hys id 0)

theorem folds_nth (k : Nat) : Folds I (Operand.lowerNth (operandsOf (backend P) c ts) k)
    (Renders (Argument.nth (argumentsOf c a id ts) k)) := by
  unfold Operand.lowerNth Operand.nth
  rw [operandsOf_eq, List.getElem?_map]
  rcases ht : ts[k]? with _ | t
  · exact folds_fail_bind _ _
  · refine (hts t (List.mem_of_getElem? ht)).mono fun h hh => ?_
    obtain ⟨y, rfl, hy⟩ := hh
    refine renders_scalar ?_
    unfold Argument.nth
    rw [Assignment.getElem?_arguments, ht]
    exact hy.argument _

theorem folds_one {k : Nat} (hm : ∀ y, Agrees y (Argument.nth (argumentsOf c a id ts) k) →
    Folds I (m (scalar y)) (Renders o)) :
    Folds I (Operand.lowerNth (operandsOf (backend P) c ts) k >>= m) (Renders o) := by
  refine folds_bind (folds_nth hts id k) fun h hh => ?_
  obtain ⟨y, rfl, hy⟩ := hh
  exact hm y hy

section

variable {f : Handle (Number α) → Handle (Number α) → TolerantM α σ (Handle (Number α))} {g : α → α → α}
  {D : α → Prop} (hf : ∀ x y, Folds I (f (scalar x) (scalar y)) fun h => D y ∧ h = scalar (g x y))

include hf

theorem folds_chained (hm : ∀ y ys, AgreesAll (y :: ys) (argumentsOf c a id ts) → (∀ d ∈ ys, D d) →
      Folds I (m (scalar (ys.foldl g y))) (Renders o)) :
    Folds I (chain f (operandsOf (backend P) c ts) >>= m) (Renders o) := by
  refine folds_bind (folds_chain hts hf) fun h hh => ?_
  obtain ⟨y, ys, rfl, hys, hds⟩ := hh
  exact hm y ys (Assignment.agreesAll_arguments hys id 0) hds

theorem folds_chain_renders (ho : ∀ y ys, AgreesAll (y :: ys) (argumentsOf c a id ts) →
    (∀ d ∈ ys, D d) →
    Agrees (ys.foldl g y) o) : Folds I (chain f (operandsOf (backend P) c ts)) (Renders o) := by
  rw [← bind_pure (chain f _)]
  exact folds_chained hts id hf fun y ys h hds => folds_pure (renders_scalar (ho y ys h hds))

end

omit hts

omit [Scalar α] in
theorem folds_binary {f : Number α → Number α → Number α} (symbol : SolverFunction) (g : α → α → α)
    (h : ∀ x y, f (.real x) (.real y) = .real (g x y)) (x y : α) :
    Folds I (LowerM.binary f symbol (scalar x) (scalar y) : TolerantM α σ _) fun h =>
      True ∧ h = scalar (g x y) :=
  folds_pure ⟨trivial, congrArg Handle.const (h x y)⟩

/-- What has to hold of the operands of a node for it to fold to its value: those of a sum add up
without rounding in between, those of a test of membership are found by their values alone, and first
matches are only met where the sums of the solver are chains. -/
structure Benign (P : Primitives α σ) (op : Operator) (args : List (Argument α)) : Prop where
  sum : op = .sum ∨ op = .custom "sum" ∨ op = .custom "avg" → ∀ xs,
    Argument.values args = .ok (some xs) → Scalar.AddsUp (xs.map (·.value))
  member : op = .custom "element_of" ∨ op = .custom "not_element_of" → ∀ x xs,
    Argument.nth args 0 = .ok (some x) → Argument.values args.tail = .ok (some xs) →
      ∀ x' ∈ xs, x.isSame x' = Scalar.eq x.value x'.value
  firstMatch : op = .custom "n_ary_if" → P.total = chainedSum

/-! ### Named operators over inline operands -/

theorem firstMatch_eq_pick {ys : List α} {e : α} (h : ys.getLast? = some e) :
    Operator.firstMatch ys =
      some (Operator.pick ((evens ys.dropLast).zip (evens ys.dropLast.tail)) e) := by
  fun_induction Operator.firstMatch ys with
  | case1 => cases h
  | case2 x =>
    cases h
    rfl
  | case3 x y rest hx hrest =>
    obtain rfl := List.isEmpty_iff.mp hrest
    cases h
    rfl
  | case4 x y rest hx hrest ih =>
    have hne : rest ≠ [] := by simpa using hrest
    rw [ih (by simpa [List.getLast?_cons_of_ne_nil, hne] using h),
      List.dropLast_cons_of_ne_nil (by simp),
      List.dropLast_cons_of_ne_nil hne, List.tail_cons, evens_cons, List.tail_cons, evens_cons,
      List.zip_cons_cons, Operator.pick, if_pos hx]
  | case5 x y rest hx =>
    cases rest with
    | nil =>
      cases h
      rfl
    | cons z rest =>
      rw [List.dropLast_cons_of_ne_nil (by simp), List.dropLast_cons_of_ne_nil (by simp),
        List.tail_cons,
        evens_cons, List.tail_cons, evens_cons, List.zip_cons_cons, Operator.pick, if_neg hx]

variable [Scalar.Decisive α]

include hts in
theorem folds_membership (htail : ∀ t, ts.tail = [t] → t.isCollection = false)
    (hsame : ∀ x xs, Argument.nth (argumentsOf c a id ts) 0 = .ok (some x) →
      Argument.values (argumentsOf c a id ts).tail = .ok (some xs) →
        ∀ x' ∈ xs, x.isSame x' = Scalar.eq x.value x'.value)
    (hm : ∀ b, Agrees (Scalar.ofBool b) (Operator.evaluateMembership (argumentsOf c a id ts)) →
      Folds I (m (scalar (Scalar.ofBool b))) (Renders o)) :
    Folds I (do
      let value ← Operand.lowerNth (operandsOf (backend P) c ts) 0
      let values ← lowerAll (operandsOf (backend P) c ts).tail
      m (← (backend P).membership value (values.map some))) (Renders o) := by
  cases ts with
  | nil => exact folds_fail_bind _ _
  | cons t ts =>
    refine folds_bind (hts t List.mem_cons_self) fun h hh => ?_
    obtain ⟨y, rfl, hy⟩ := hh
    refine folds_bind (folds_lowerAll fun t ht => hts t (List.mem_cons_of_mem _ ht)) fun hs hhs => ?_
    obtain ⟨ys, rfl, hys⟩ := hhs
    change Folds I (membership P _ _ >>= m) _
    rw [membership_scalars, pure_bind]
    refine hm _ (Operator.agrees_evaluateMembership
      (Assignment.agreesAll_arguments (.cons hy hys) id 0) ?_ hsame)
    rw [tail_arguments]
    exact Assignment.soleCollection_arguments htail

variable [Scalar.Congruent α]

include hts in
/-- A named operator over inline operands. -/
theorem folds_lowerInline {name : String}
    (ho : ∀ f, Operator.builtin? name = some f → o = f (argumentsOf c a id ts))
    (hshape : (Operator.custom name).Shape ts)
    (hbenign : Benign P (.custom name) (argumentsOf c a id ts))
    (hsole : name ∈ ["sum", "avg", "count", "min", "max"] → ∀ t, ts = [t] → t.isCollection = false)
    (htail : name ∈ ["element_of", "not_element_of", "at"] →
      ∀ t, ts.tail = [t] → t.isCollection = false) :
    Folds I (lowerInline (backend P) name (operandsOf (backend P) c ts)) (Renders o) := by
  have hlength : (operandsOf (backend P) c ts).length = ts.length := by
    rw [operandsOf_eq, List.length_map]
  have hargs : (argumentsOf c a id ts).length = ts.length := Assignment.length_arguments id 0 ts
  have hinline (hname : name ∈ ["sum", "avg", "count", "min", "max"]) :
      Argument.soleCollection? (argumentsOf c a id ts) = none :=
    Assignment.soleCollection_arguments (hsole hname)
  unfold lowerInline
  split
  · -- count
    obtain rfl := ho _ rfl
    refine folds_pure (renders_scalar ?_)
    rw [hlength, ← hargs]
    exact Operator.agrees_evaluateCount (hinline (by simp))
  · -- sum
    obtain rfl := ho _ rfl
    cases ts with
    | nil =>
      refine folds_pure (renders_scalar ?_)
      exact Operator.agrees_evaluateSum (hinline (by simp)) .nil (hbenign.sum (by simp))
    | cons t ts =>
      refine folds_chain_renders hts id (folds_binary .add Scalar.add fun _ _ => rfl) fun y ys h _ => ?_
      exact Operator.agrees_evaluateSum (hinline (by simp)) h (hbenign.sum (by simp))
  · -- avg
    obtain rfl := ho _ rfl
    refine folds_chained hts id (folds_binary .add Scalar.add fun _ _ => rfl) fun y ys h _ => ?_
    have hcount : (operandsOf (backend P) c ts).length = ys.length + 1 := by
      rw [hlength, ← hargs, ← h.length_eq, List.length_cons]
    rw [hcount]
    refine folds_bind (folds_pure rfl) fun k hk => ?_
    subst hk
    refine (folds_divide (P := P)).mono fun k hk => ?_
    obtain ⟨hzero, rfl⟩ := hk
    refine renders_scalar ?_
    exact Operator.agrees_evaluateAverage (hinline (by simp)) h (hbenign.sum (by simp)) hzero
  · -- min
    obtain rfl := ho _ rfl
    refine folds_all hts id fun ys h => ?_
    cases ys with
    | nil => exact folds_fail _
    | cons y ys =>
      change Folds I (extremum P .least ((y :: ys).map scalar)) _
      rw [(extremum_scalars y ys).1]
      exact folds_pure (renders_scalar (Operator.agrees_evaluateLeast (hinline (by simp)) h))
  · -- max
    obtain rfl := ho _ rfl
    refine folds_all hts id fun ys h => ?_
    cases ys with
    | nil => exact folds_fail _
    | cons y ys =>
      change Folds I (extremum P .greatest ((y :: ys).map scalar)) _
      rw [(extremum_scalars y ys).2]
      exact folds_pure (renders_scalar (Operator.agrees_evaluateGreatest (hinline (by simp)) h))
  · -- abs
    obtain rfl := ho _ rfl
    exact folds_one hts id fun y h => folds_pure (renders_scalar (Operator.agrees_evaluateAbsolute h))
  · -- pow
    obtain rfl := ho _ rfl
    obtain ⟨s, t, rfl⟩ := List.length_eq_two.mp (hshape.1 2 rfl)
    refine folds_one hts id fun x hx => folds_one hts id fun y hy => ?_
    refine (folds_power (P := P)).mono fun k hk => ?_
    obtain ⟨z, hz, rfl⟩ := hk
    exact renders_scalar (Operator.agrees_evaluatePower (.cons hx (.cons hy .nil)) hz)
  · -- if_then_else
    obtain rfl := ho _ rfl
    refine folds_one hts id fun x hx => folds_one hts id fun y hy => folds_one hts id fun z hz => ?_
    change Folds I (conditional P _ _ _) _
    rw [conditional_scalar]
    have hagrees := Operator.agrees_evaluateConditional hx hy hz
    cases hzero : Scalar.isZero x <;> rw [hzero] at hagrees
    · exact folds_pure (renders_scalar hagrees)
    · exact folds_pure (renders_scalar hagrees)
  · -- n_ary_if
    obtain rfl := ho _ rfl
    refine folds_all hts id fun ys h => ?_
    rw [List.getLast?_map]
    rcases hlast : ys.getLast? with _ | e
    · exact folds_fail _
    · change Folds I (firstMatch P (evens (ys.map scalar).dropLast)
        (evens (ys.map scalar).dropLast.tail) (scalar e)) _
      rw [← List.map_dropLast, ← List.map_tail, evens_map, evens_map]
      obtain ⟨y, hy, hrun⟩ := firstMatch_scalars (hbenign.firstMatch rfl) (evens ys.dropLast)
        (evens ys.dropLast.tail) e
      rw [hrun]
      exact folds_pure (renders_scalar fun r hr =>
        hy.trans (Operator.agrees_evaluateFirstMatch h (firstMatch_eq_pick hlast) r hr))
  · -- element_of
    obtain rfl := ho _ rfl
    have h := folds_membership (m := pure)
      (o := Operator.evaluateMembership (argumentsOf c a id ts)) hts id (htail (by simp)) (hbenign.member (by simp)) fun b hb => folds_pure (renders_scalar hb)
    simpa only [bind_pure] using h
  · -- not_element_of
    obtain rfl := ho _ rfl
    refine folds_membership hts id (htail (by simp)) (hbenign.member (by simp)) fun b hb => ?_
    change Folds I (complement P _) _
    rw [complement_scalar, Scalar.Decisive.isZero_ofBool, Bool.not_not]
    exact folds_pure (renders_scalar (Operator.agrees_evaluateNonMembership hb))
  · -- at
    obtain rfl := ho _ rfl
    cases ts with
    | nil => exact folds_bind (folds_pure rfl) fun _ _ => folds_fail_bind _ _
    | cons t ts =>
      refine folds_bind (folds_lowerAll fun t ht => hts t (List.mem_cons_of_mem _ ht)) fun hs hhs => ?_
      obtain ⟨ys, rfl, hys⟩ := hhs
      refine folds_bind (hts t List.mem_cons_self) fun h hh => ?_
      obtain ⟨y, rfl, hy⟩ := hh
      refine (folds_element (P := P) _).mono fun h hh => ?_
      obtain ⟨position, hround, hentry⟩ := hh
      rw [Reader.entry?_map] at hentry
      obtain ⟨z, hz, rfl⟩ := Option.map_eq_some_iff.mp hentry
      refine renders_scalar (Operator.agrees_evaluateEntry
        (Assignment.agreesAll_arguments (.cons hy hys) id 0) ?_
        hround hz)
      rw [tail_arguments]
      exact Assignment.soleCollection_arguments (htail (by simp))
  · -- unknown
    exact folds_fail _

end Tolerant

end DecisionModel
