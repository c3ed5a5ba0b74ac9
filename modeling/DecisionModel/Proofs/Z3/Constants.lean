import DecisionModel.Proofs.Builder.Names
import DecisionModel.Proofs.Solver.Idempotent

/-!
# Z3: constants

Z3 takes two constants of one sort and one name for the same constant. The names come from two places:
variables of the model have names of their own, which are distinct, and lowering makes up others from a
hint and a counter. `Adds` follows both through a run: the constants that are new are some of those
declared by the model and numbered ones, in the order of their numbers. So two constants can only be the
same if a name of the model looks like one that lowering makes up (`nodup_constants`); nothing keeps a
model from using such a name (`Reified.namesake_same`).
-/

namespace DecisionModel

/-! ### Numbered names -/

/-- The auxiliary name that is made of a hint and a number. -/
def numberedName (hint : String) (n : Nat) : String := hint ++ "#" ++ toString n

/-- The number is what follows the last `#`, whatever the hint is. -/
theorem numberedName_inj {hint hint' : String} {n m : Nat}
    (h : numberedName hint n = numberedName hint' m) : n = m := by
  have hdigits (k : Nat) : ∀ x ∈ (Nat.toDigits 10 k).reverse, (x != '#') = true := fun x hx => by
    have hdigit := Nat.isDigit_of_mem_toDigits (by decide) (by decide) (List.mem_reverse.mp hx)
    refine bne_iff_ne.mpr ?_
    rintro rfl
    cases hdigit
  have hsuffix (hint : String) (k : Nat) :
      (numberedName hint k).toList.reverse.takeWhile (· != '#') = (Nat.toDigits 10 k).reverse := by
    have hlist : (numberedName hint k).toList.reverse =
        (Nat.toDigits 10 k).reverse ++ '#' :: hint.toList.reverse := by
      simp [numberedName]
    rw [hlist, List.takeWhile_append_of_pos (hdigits k)]
    simp
  have hreversed : (Nat.toDigits 10 n).reverse = (Nat.toDigits 10 m).reverse := by
    rw [← hsuffix hint n, ← hsuffix hint' m, h]
  refine Nat.repr_injective (String.toList_inj.mp ?_)
  rw [Nat.toList_repr, Nat.toList_repr]
  exact List.reverse_injective hreversed

theorem hash_mem_numberedName (hint : String) (n : Nat) : '#' ∈ (numberedName hint n).toList := by
  simp [numberedName]

namespace Z3

open LowerM Tolerant

variable {α β γ : Type}

/-! ### Constants -/

/-- What identifies a constant: whether it is an integer, and its name. -/
structure Constant where
  integral : Bool
  name : String
deriving DecidableEq, Repr

/-- The constant that a call makes. -/
def Call.constant? : Call α → Option Constant
  | .newReal name => some ⟨false, name⟩
  | .newInteger name => some ⟨true, name⟩
  | _ => none

/-- All constants that were made, in the order of the calls. -/
def Solver.constants (s : Solver α) : List Constant := s.calls.toList.filterMap Call.constant?

theorem Solver.constants_call (s : Solver α) (c : Call α) :
    (s.call c).constants = s.constants ++ c.constant?.toList := by
  unfold Solver.constants Solver.call
  rw [Array.toList_push, List.filterMap_append]
  cases hc : c.constant? <;> simp [hc]

/-- The constant has the name that lowering makes of some hint with this number. -/
def Constant.HasNumber (c : Constant) (n : Nat) : Prop := ∃ hint, c.name = numberedName hint n

/-- The constants are numbered after `low` and up to `high`, in their order. -/
structure Numbered (low high : Nat) (cs : List Constant) : Prop where
  range : ∀ c ∈ cs, ∃ n, c.HasNumber n ∧ low < n ∧ n ≤ high
  ascending : cs.Pairwise fun c d => ∀ n m, c.HasNumber n → d.HasNumber m → n < m

theorem Constant.HasNumber.unique {c : Constant} {n m : Nat} (hn : c.HasNumber n)
    (hm : c.HasNumber m) : n = m := by
  obtain ⟨hint, hn⟩ := hn
  obtain ⟨hint', hm⟩ := hm
  exact numberedName_inj (hn.symm.trans hm)

theorem numbered_nil (low high : Nat) : Numbered low high [] := ⟨by simp, .nil⟩

theorem Numbered.append {low middle high : Nat} {cs ds : List Constant} (hcs : Numbered low middle cs)
    (hds : Numbered middle high ds) (hlow : low ≤ middle) (hhigh : middle ≤ high) :
    Numbered low high (cs ++ ds) where
  range c hc := by
    rcases List.mem_append.mp hc with hc | hc
    · obtain ⟨n, hn, hafter, hupto⟩ := hcs.range c hc
      exact ⟨n, hn, hafter, Nat.le_trans hupto hhigh⟩
    · obtain ⟨n, hn, hafter, hupto⟩ := hds.range c hc
      exact ⟨n, hn, Nat.lt_of_le_of_lt hlow hafter, hupto⟩
  ascending := by
    refine List.pairwise_append.mpr ⟨hcs.ascending, hds.ascending, fun c hc d hd n m hn hm => ?_⟩
    obtain ⟨n', hn', -, hupto⟩ := hcs.range c hc
    obtain ⟨m', hm', hafter, -⟩ := hds.range d hd
    rw [hn.unique hn', hm.unique hm']
    exact Nat.lt_of_le_of_lt hupto hafter

theorem numbered_singleton {c : Constant} {n : Nat} (hc : c.HasNumber (n + 1)) :
    Numbered n (n + 1) [c] where
  range d hd := by
    obtain rfl := List.mem_singleton.mp hd
    exact ⟨n + 1, hc, Nat.lt_succ_self n, Nat.le_refl _⟩
  ascending := List.pairwise_singleton _ _

/-- Numbered constants are distinct. -/
theorem Numbered.nodup {low high : Nat} {cs : List Constant} (h : Numbered low high cs) : cs.Nodup := by
  refine h.ascending.imp_of_mem fun {c d} hc _ hcd heq => ?_
  obtain ⟨n, hn, -⟩ := h.range c hc
  exact Nat.lt_irrefl n (hcd n n hn (heq ▸ hn))

/-! ### New constants -/

/-- The constants that are new are some of those declared, each as often as there at most, and
numbered ones. -/
structure Adds (own : List Constant) (s s' : Z3State α) : Prop where
  counter : s.auxiliaries ≤ s'.auxiliaries
  lowered : s.lowered = true → s'.lowered = true
  constants : ∃ declared numbered, declared.Sublist own ∧
    Numbered s.auxiliaries s'.auxiliaries numbered ∧
      s'.solver.solver.constants.Perm (s.solver.solver.constants ++ (declared ++ numbered))

section

variable {own own' : List Constant} {s s₁ s' : Z3State α}

theorem Adds.mono (h : Adds own s s') (hown : own.Sublist own') : Adds own' s s' := by
  obtain ⟨declared, numbered, hdeclared, hrest⟩ := h.constants
  exact ⟨h.counter, h.lowered, declared, numbered, hdeclared.trans hown, hrest⟩

theorem Adds.trans (h : Adds own s s₁) (h' : Adds own' s₁ s') : Adds (own ++ own') s s' := by
  obtain ⟨declared, numbered, hdeclared, hnumbered, hperm⟩ := h.constants
  obtain ⟨declared', numbered', hdeclared', hnumbered', hperm'⟩ := h'.constants
  refine ⟨Nat.le_trans h.counter h'.counter, fun hs => h'.lowered (h.lowered hs),
    declared ++ declared', numbered ++ numbered', hdeclared.append hdeclared',
    hnumbered.append hnumbered' h.counter h'.counter, ?_⟩
  refine hperm'.trans ((hperm.append_right _).trans ?_)
  simp only [List.append_assoc, List.perm_append_left_iff]
  simpa only [← List.append_assoc, List.perm_append_right_iff] using List.perm_append_comm

/-- Nothing is made. -/
theorem Adds.of_same (hcounter : s.auxiliaries ≤ s'.auxiliaries)
    (hlowered : s.lowered = true → s'.lowered = true)
    (hconstants : s'.solver.solver.constants = s.solver.solver.constants) : Adds own s s' :=
  ⟨hcounter, hlowered, [], [], List.nil_sublist _, numbered_nil _ _, by simp [hconstants]⟩

instance : Traversed (Adds (α := α) []) where
  refl _ := .of_same (Nat.le_refl _) id rfl
  trans _ _ _ h h' := h.trans h'
  next _ := .of_same (Nat.le_refl _) id rfl
  auxiliaries _ := .of_same (Nat.le_succ _) id rfl
  violated _ _ := .of_same (Nat.le_refl _) id rfl
  log _ _ := .of_same (Nat.le_refl _) id rfl
  handles _ _ := .of_same (Nat.le_refl _) id rfl
  lowered _ := .of_same (Nat.le_refl _) (fun _ => rfl) rfl
  memo _ _ h := ⟨h.counter, h.lowered, h.constants⟩

instance : Noted (Adds (α := α) []) where
  note hnotes := .of_same (Nat.le_refl _) id (congrArg Solver.constants hnotes.solver_eq)

/-- A constant that got the next number is one of the numbered ones. -/
theorem Adds.numbered {c : Constant} (hc : c.HasNumber (s.auxiliaries + 1))
    (h : Adds [c] { s with auxiliaries := s.auxiliaries + 1 } s') : Adds [] s s' := by
  obtain ⟨declared, numbered, hdeclared, hnumbered, hperm⟩ := h.constants
  have hbefore : Numbered s.auxiliaries (s.auxiliaries + 1) declared := by
    rcases List.sublist_singleton.mp hdeclared with rfl | rfl
    · exact numbered_nil _ _
    · exact numbered_singleton hc
  exact ⟨Nat.le_trans (Nat.le_succ _) h.counter, h.lowered, [], declared ++ numbered, List.nil_sublist _,
    hbefore.append hnumbered (Nat.le_succ _) h.counter, hperm⟩

/-! ### Steps -/

theorem adds_bind {m : Z3M α β} {f : β → Z3M α γ} (hm : Keeps (Adds own) m)
    (hf : ∀ x, Keeps (Adds own') (f x)) : Keeps (Adds (own ++ own')) (m >>= f) :=
  keeps_bind_of hm hf (fun _ _ h => h.mono (List.sublist_append_left _ _)) fun _ _ _ => Adds.trans

/-- What follows makes nothing that is declared. -/
theorem adds_bind_left {m : Z3M α β} {f : β → Z3M α γ} (hm : Keeps (Adds own) m)
    (hf : ∀ x, Keeps (Adds []) (f x)) : Keeps (Adds own) (m >>= f) := by
  have h := adds_bind hm hf
  rwa [List.append_nil] at h

/-- What comes before makes nothing that is declared. -/
theorem adds_bind_right {m : Z3M α β} {f : β → Z3M α γ} (hm : Keeps (Adds []) m)
    (hf : ∀ x, Keeps (Adds own) (f x)) : Keeps (Adds own) (m >>= f) := adds_bind hm hf

theorem adds_mapM {f : β → Z3M α γ} {declared : β → List Constant} {xs : List β}
    (hf : ∀ x ∈ xs, Keeps (Adds (declared x)) (f x)) :
    Keeps (Adds (xs.flatMap declared)) (xs.mapM f) := by
  induction xs with
  | nil => exact keeps_pure (R := Adds []) _
  | cons x xs ih =>
    rw [List.mapM_cons, List.flatMap_cons]
    refine adds_bind (hf x List.mem_cons_self) fun y => ?_
    exact adds_bind_left (ih fun z hz => hf z (List.mem_cons_of_mem x hz)) fun _ => keeps_pure _

theorem adds_forM {f : β → Z3M α PUnit} {declared : β → List Constant} {xs : List β}
    (hf : ∀ x ∈ xs, Keeps (Adds (declared x)) (f x)) :
    Keeps (Adds (xs.flatMap declared)) (xs.forM f) := by
  induction xs with
  | nil => exact keeps_pure (R := Adds []) _
  | cons x xs ih =>
    rw [List.flatMap_cons]
    exact adds_bind (hf x List.mem_cons_self) fun _ => ih fun z hz => hf z (List.mem_cons_of_mem x hz)

theorem adds_call (c : Call α) : Keeps (Adds c.constant?.toList) (call c) :=
  keeps_modifySolver fun s => ⟨Nat.le_refl _, id, c.constant?.toList, [], List.Sublist.refl _,
    numbered_nil _ _, by rw [List.append_nil]; exact .of_eq (Solver.constants_call _ c)⟩

theorem recorded_adds : RecordedConstraints (Adds (α := α) []) where
  require _ _ _ := keeps_modifySolver fun _ => .of_same (Nat.le_refl _) id rfl

variable [Scalar α]

/-- A solver variable is one constant. -/
theorem adds_newVariable (kind : Kind) (lower upper : α) (name : String) :
    Keeps (Adds [⟨kind != .continuous, name⟩]) (newVariable kind lower upper name) := by
  have hrest (h : Handle (Number α)) : Keeps (Adds []) (do
      requireBounds h (.real lower) (.real upper)
      return h : Z3M α (Handle (Number α))) :=
    keeps_bind (recorded_adds.requireBounds _ _ _) fun _ => keeps_pure _
  refine adds_bind_left ?_ fun _ => keeps_bind (keeps_leaf _ _) hrest
  cases kind with
  | continuous => exact adds_call (.newReal name)
  | integer => exact adds_call (.newInteger name)
  | binary => exact adds_call (.newInteger name)

theorem keepAuxiliaries_adds : (primitives : Primitives α (Solver α)).KeepAuxiliaries (Adds []) where
  toKeepTerms := recorded_adds.keepTerms
  newAuxiliary kind lower upper hint := fun s => by
    have hname : (auxiliaryName hint : Z3M α String).run.run s =
        (.ok (numberedName hint (s.auxiliaries + 1)), { s with auxiliaries := s.auxiliaries + 1 }) := rfl
    rw [run_bind_of_ok hname]
    exact Adds.numbered ⟨hint, rfl⟩ (adds_newVariable kind lower upper _ _)

/-- Lowering and posting terms makes numbered constants only. -/
theorem preserves_adds : (backend (primitives : Primitives α (Solver α))).Preserves (Adds []) :=
  keepAuxiliaries_adds.encodes.preserves

theorem adds_createVariable (kind : Kind) (lower upper : α) (name : String) :
    Keeps (Adds [⟨kind != .continuous, name⟩]) (createVariable primitives kind lower upper name) :=
  adds_bind_left (adds_newVariable kind lower upper name) fun _ =>
    keeps_bind (keeps_noteVariable _ _) fun _ => keeps_pure _

theorem adds_createSequence (name : String) (members : List String) :
    Keeps (Adds (α := α) (members.map (Constant.mk true))) (createSequence primitives name members) := by
  rw [List.map_eq_flatMap]
  have hmember (member : String) := adds_createVariable (α := α) .integer Scalar.one
    (Scalar.ofInt members.length) member
  refine adds_bind_left (adds_mapM fun member _ => hmember member) fun _ => ?_
  exact keeps_square keepAuxiliaries_adds.steps _ _ _

theorem adds_postObjective (sense : Sense) (h : Handle (Number α)) :
    Keeps (Adds [⟨false, "objective"⟩]) (postObjective primitives sense h) := by
  refine adds_bind_left (adds_createVariable .continuous Scalar.negInf Scalar.posInf _) fun _ => ?_
  refine keeps_bind (keeps_sub _ _) fun _ => ?_
  refine keeps_bind (keeps_constrain keepAuxiliaries_adds.steps _ _ _) fun _ => ?_
  refine keeps_bind (keeps_note fun _ => .of_same rfl rfl rfl rfl) fun _ => ?_
  exact keeps_modifySolver fun _ => .of_same (Nat.le_refl _) id rfl

/-! ### Models -/

/-- The constant that is made for a variable. -/
def declaredConstant? (w : Workspace α) (v : VarId) : Option Constant :=
  (w.findVariable v).map fun d => ⟨decide (d.kind ≠ .real), d.name⟩

/-- The members of a sequence are integers. -/
def memberConstants (w : Workspace α) (q : SequenceId) : List Constant :=
  (w.sequenceMembers q).map fun v => ⟨true, w.variableName v⟩

/-- The constants that are made for the variables of a model. -/
def variableConstants (w : Workspace α) (model : Model α) : List Constant :=
  model.sequences.flatMap (memberConstants w) ++
    (model.vars ++ model.families.flatMap w.members).flatMap fun v => (declaredConstant? w v).toList

/-- Those, and the constant of the objective if there is one. -/
def declaredConstants (c : Context α) (model : Model α) : List Constant :=
  variableConstants c.workspace model ++
    if model.sense ≠ .feasible then [⟨false, "objective"⟩] else []

theorem adds_createVariableOf (c : Context α) (v : VarId) :
    Keeps (Adds (declaredConstant? c.workspace v).toList)
      (Backend.createVariableOf (backend primitives) c v) := by
  unfold Backend.createVariableOf declaredConstant?
  cases hd : c.workspace.findVariable v with
  | none => exact keeps_pure (R := Adds []) _
  | some d =>
    have hkind : (Kind.ofVariable d.kind != .continuous) = decide (d.kind ≠ .real) := by
      cases d.kind <;> rfl
    have hcreate := adds_createVariable (Kind.ofVariable d.kind) d.lower d.upper d.name
    rw [hkind] at hcreate
    exact adds_bind_left hcreate fun _ => Backend.keeps_enterHandle _ _

theorem adds_createSequenceOf (c : Context α) (q : SequenceId) :
    Keeps (Adds (memberConstants c.workspace q))
      (Backend.createSequenceOf (backend primitives) c q) := by
  have hcreate := adds_createSequence (α := α) (c.workspace.sequenceName q)
    ((c.workspace.sequenceMembers q).map c.workspace.variableName)
  rw [List.map_map] at hcreate
  refine adds_bind_left hcreate fun _ => ?_
  exact keeps_bind (keeps_forM fun _ _ => Backend.keeps_enterHandle _ _) fun _ => keeps_log _ _ _

/-- What is made when a model is lowered; nothing if one was lowered before. -/
inductive Lowers (c : Context α) (s s' : Z3State α) : Prop
  | refused : Adds [] s s' → Lowers c s s'
  | lowered {model : Model α} : c.workspace.findModel c.model = some model → s.lowered = false →
    s'.lowered = true → Adds (declaredConstants c model) s s' → Lowers c s s'

omit [Scalar α] in
theorem Lowers.after {c : Context α} (h : Adds [] s s₁) (h' : Lowers c s₁ s') : Lowers c s s' := by
  cases h' with
  | refused h' => exact .refused (h.trans h')
  | lowered hmodel hbefore hafter h' =>
    have hs : s.lowered = false := by
      cases hs : s.lowered with
      | false => rfl
      | true => cases (h.lowered hs).symm.trans hbefore
    exact .lowered hmodel hs hafter (h.trans h')

omit [Scalar α] in
theorem Lowers.before {c : Context α} (h : Lowers c s s₁) (h' : Adds [] s₁ s') : Lowers c s s' := by
  cases h with
  | refused h => exact .refused (h.trans h')
  | lowered hmodel hbefore hafter h =>
    have h := h.trans h'
    rw [List.append_nil] at h
    exact .lowered hmodel hbefore (h'.lowered hafter) h

omit [Scalar α] in
/-- What is made once lowering is marked as begun. -/
theorem lowers_of_declares {c : Context α} {model : Model α} {m : Z3M α Unit}
    (hmodel : c.workspace.findModel c.model = some model) (hs : s.lowered = false)
    (hm : Keeps (Adds (declaredConstants c model)) m) :
    Lowers c s ((do
      modify fun s => { s with lowered := true }
      m : Z3M α Unit).run.run s).2 := by
  have hadds := hm { s with lowered := true }
  exact .lowered hmodel hs (hadds.lowered rfl) ((Entered.lowered s : Adds [] s _).trans hadds)

/-- Lowering a model makes its own constants, and numbered ones. -/
theorem lowers_backend (c : Context α) : Keeps (Lowers c) (Backend.lowerModel (backend primitives) c) := by
  refine keeps_get fun s => ?_
  cases hs : s.lowered with
  | true => exact .refused (keeps_refl s)
  | false =>
    dsimp only
    cases hmodel : c.workspace.findModel c.model with
    | none => exact .refused (Entered.lowered s)
    | some model =>
      have hterm (t : Term α) := Backend.keepsWithin (c := c) preserves_adds t
      refine lowers_of_declares hmodel hs ?_
      simp only [declaredConstants, variableConstants, List.flatMap_append, List.append_assoc]
      refine adds_bind (adds_forM fun q _ => adds_createSequenceOf c q) fun _ => ?_
      refine adds_bind (adds_forM fun v _ => adds_createVariableOf c v) fun _ => ?_
      refine adds_bind (adds_forM fun v _ => adds_createVariableOf c v) fun _ => ?_
      refine adds_bind_right (keeps_forM fun v _ =>
        Backend.keeps_postDefinitionOf preserves_adds (fun t _ => hterm t) v) fun _ => ?_
      refine adds_bind_right (keeps_forM fun t _ =>
        keeps_bind (Backend.keeps_post preserves_adds (hterm t)) fun _ => keeps_log _ _ _) fun _ => ?_
      split
      · refine adds_bind_right (Backend.keeps_translate preserves_adds _) fun h => ?_
        refine adds_bind_left (adds_postObjective _ h) fun _ => keeps_bind (keeps_log _ _ _) fun _ => ?_
        exact keeps_look fun _ => keeps_log _ _ _
      · exact keeps_look (R := Adds []) fun _ => keeps_log _ _ _

/-- The tolerance is fixed before, and the sizes are reported after. -/
theorem lowers_lowerModel (c : Context α) : Keeps (Lowers c) (Z3.lowerModel c) := by
  unfold Z3.lowerModel Tolerant.lowerModel
  have hrest (eps : Number α) : Keeps (Lowers c) (do
      modifyEncoding fun e => { e with epsilon := eps }
      LowerM.log c.config 2 (("Using epsilon = " ++ Scalar.briefText ·) <$> eps.toScalar?)
      Backend.lowerModel (backend primitives) c
      let e ← getEncoding
      LowerM.log c.config 1 (.ok ("z3" ++ ": " ++ toString e.created.size ++ " variables, " ++
        toString e.posted.size ++ " constraints")) : Z3M α Unit) := by
    have hset : Keeps (Adds []) (modifyEncoding fun e => { e with epsilon := eps } : Z3M α Unit) :=
      keeps_modifySolver fun _ => .of_same (Nat.le_refl _) id rfl
    refine keeps_bind_of hset (fun _ => ?_) (fun _ _ => .refused) fun _ _ _ => Lowers.after
    refine keeps_bind_of (keeps_log _ _ _) (fun _ => ?_) (fun _ _ => .refused) fun _ _ _ => Lowers.after
    refine keeps_bind_of (lowers_backend c) (fun _ => ?_) (fun _ _ h => h) fun _ _ _ => Lowers.before
    exact keeps_bind keeps_getEncoding fun _ => keeps_log _ _ _
  dsimp only
  split
  · exact hrest _
  · exact hrest defaultTolerance

/-! ### Runs -/

/-- Asking for a term or a constraint. -/
theorem adds_answer {request : Context α × Request α} (h : request.2 ≠ .model) :
    Keeps (Adds []) ((backend primitives).answer Z3.lowerModel request) := by
  obtain ⟨c, request⟩ := request
  cases request with
  | model => exact (h rfl).elim
  | constraint x =>
    refine keeps_bind (Backend.keeps_postInput preserves_adds fun t _ => ?_) fun _ => keeps_pure _
    exact Backend.keepsWithin preserves_adds t
  | term x =>
    refine keeps_bind (Backend.keeps_translateInput preserves_adds fun t _ => ?_) fun _ => keeps_pure _
    exact Backend.keepsWithin preserves_adds t

/-- Whatever is asked for: a request for a model lowers it, or nothing is made that is declared. -/
theorem lowers_answer (request : Context α × Request α) :
    Keeps (fun s s' => Adds [] s s' ∨ request.2 = .model ∧ Lowers request.1 s s')
      ((backend primitives).answer Z3.lowerModel request) := by
  obtain ⟨c, request⟩ := request
  cases request with
  | model =>
    refine keeps_bind_of (lowers_lowerModel c) (fun _ => keeps_pure (R := Adds []) _)
      (fun _ _ h => .inr ⟨rfl, h⟩) fun _ _ _ h h' => .inr ⟨rfl, h.before h'⟩
  | constraint x => exact (adds_answer (by simp)).mono fun _ _ => .inl
  | term x => exact (adds_answer (by simp)).mono fun _ _ => .inl

/-- Once a model is lowered, no other one is. -/
theorem adds_after_lowered (requests : List (Context α × Request α)) (hs : s.lowered = true) :
    Adds [] s (after ((backend primitives).answer Z3.lowerModel) requests s) := by
  induction requests generalizing s with
  | nil => exact keeps_refl s
  | cons request requests ih =>
    have hstep : Adds [] s (((backend primitives).answer Z3.lowerModel request).run.run s).2 := by
      rcases lowers_answer request s with h | ⟨-, h | ⟨-, hbefore, -, -⟩⟩
      · exact h
      · exact h
      · cases hs.symm.trans hbefore
    exact hstep.trans (ih (hstep.lowered hs))

/-- At most one model is lowered. -/
theorem adds_after (requests : List (Context α × Request α)) (s : Z3State α) :
    Adds [] s (after ((backend primitives).answer Z3.lowerModel) requests s) ∨
      ∃ c model, (c, .model) ∈ requests ∧ c.workspace.findModel c.model = some model ∧
        Adds (declaredConstants c model) s
          (after ((backend primitives).answer Z3.lowerModel) requests s) := by
  induction requests generalizing s with
  | nil => exact .inl (keeps_refl s)
  | cons request requests ih =>
    have hlater (h : Adds [] s (((backend primitives).answer Z3.lowerModel request).run.run s).2) :
        Adds [] s (after ((backend primitives).answer Z3.lowerModel) (request :: requests) s) ∨
          ∃ c model, (c, .model) ∈ request :: requests ∧
            c.workspace.findModel c.model = some model ∧ Adds (declaredConstants c model) s
              (after ((backend primitives).answer Z3.lowerModel) (request :: requests) s) := by
      rcases ih (((backend primitives).answer Z3.lowerModel request).run.run s).2 with
        h' | ⟨c, model, hc, hmodel, h'⟩
      · exact .inl (h.trans h')
      · exact .inr ⟨c, model, List.mem_cons_of_mem _ hc, hmodel, h.trans h'⟩
    rcases lowers_answer request s with h | ⟨hrequest, h | ⟨hmodel, -, hafter, h⟩⟩
    · exact hlater h
    · exact hlater h
    · have hrest := h.trans (adds_after_lowered requests hafter)
      rw [List.append_nil] at hrest
      exact .inr ⟨request.1, _, hrequest ▸ List.mem_cons_self, hmodel, hrest⟩

end

/-! ### Distinct constants -/

/-- No name of the model is one that lowering makes up: none ends in a number after a `#`, and if there is
an objective, no real variable is called so. -/
structure Unmistakable (c : Context α) (model : Model α) : Prop where
  numbered {v : VarId} {hint : String} {n : Nat} : v ∈ c.workspace.allVariables c.model →
    c.workspace.variableName v ≠ numberedName hint n
  objective {v : VarId} {d : Variable α} : model.sense ≠ .feasible →
    v ∈ c.workspace.allVariables c.model → c.workspace.findVariable v = some d → d.kind = .real →
    d.name ≠ "objective"

section

variable {c : Context α} {model : Model α}

/-- A constant of a variable has its name, and is real only if the variable is. -/
theorem exists_of_mem_variableConstants (hmodel : c.workspace.findModel c.model = some model)
    {k : Constant} (hk : k ∈ variableConstants c.workspace model) :
    ∃ v ∈ c.workspace.allVariables c.model, k.name = c.workspace.variableName v ∧
      (k.integral = false → ∃ d, c.workspace.findVariable v = some d ∧ d.kind = .real ∧ d.name = k.name) := by
  simp only [Workspace.allVariables, hmodel, List.append_assoc]
  rcases List.mem_append.mp hk with hk | hk
  · obtain ⟨q, hq, hk⟩ := List.mem_flatMap.mp hk
    obtain ⟨v, hv, rfl⟩ := List.mem_map.mp hk
    exact ⟨v, List.mem_append_left _ (List.mem_flatMap.mpr ⟨q, hq, hv⟩), rfl, fun h => Bool.noConfusion h⟩
  · obtain ⟨v, hv, hk⟩ := List.mem_flatMap.mp hk
    obtain ⟨d, hd, rfl⟩ := Option.map_eq_some_iff.mp (Option.mem_toList.mp hk)
    refine ⟨v, List.mem_append_right _ hv, by simp [Workspace.variableName, hd], fun h => ⟨d, hd, ?_, rfl⟩⟩
    simpa using h

/-- The names of these constants are names of variables, each at most as often as there. -/
theorem names_variableConstants (hmodel : c.workspace.findModel c.model = some model) :
    ((variableConstants c.workspace model).map Constant.name).Sublist
      ((c.workspace.allVariables c.model).map c.workspace.variableName) := by
  have hmembers : (model.sequences.flatMap (memberConstants c.workspace)).map Constant.name =
      (model.sequences.flatMap c.workspace.sequenceMembers).map c.workspace.variableName := by
    simp [List.map_flatMap, memberConstants, Function.comp_def]
  have hothers (vs : List VarId) :
      ((vs.flatMap fun v => (declaredConstant? c.workspace v).toList).map Constant.name).Sublist
        (vs.map c.workspace.variableName) := by
    induction vs with
    | nil => exact List.Sublist.refl _
    | cons v vs ih =>
      rw [List.flatMap_cons, List.map_append, List.map_cons]
      cases hd : c.workspace.findVariable v with
      | none => simpa [declaredConstant?, hd] using ih.cons _
      | some d => simpa [declaredConstant?, hd, Workspace.variableName] using ih
  simp only [Workspace.allVariables, hmodel, variableConstants, List.append_assoc]
  rw [List.map_append, List.map_append, hmembers]
  exact (hothers _).append_left _

/-- The constants that the model declares are distinct. -/
theorem nodup_declaredConstants (hmodel : c.workspace.findModel c.model = some model)
    (hnames : ((c.workspace.allVariables c.model).map c.workspace.variableName).Nodup)
    (h : Unmistakable c model) : (declaredConstants c model).Nodup := by
  have hvariables : (variableConstants c.workspace model).Nodup :=
    (hnames.sublist (names_variableConstants hmodel)).of_map _
  unfold declaredConstants
  split
  · rename_i hsense
    refine List.nodup_append'.mpr ⟨hvariables, List.nodup_singleton _, fun k hk hobjective => ?_⟩
    obtain rfl := List.mem_singleton.mp hobjective
    obtain ⟨v, hv, -, hreal⟩ := exists_of_mem_variableConstants hmodel hk
    obtain ⟨d, hd, hkind, hname⟩ := hreal rfl
    exact h.objective hsense hv hd hkind hname
  · rwa [List.append_nil]

/-- None of them has a number. -/
theorem not_hasNumber_of_mem_declaredConstants (hmodel : c.workspace.findModel c.model = some model)
    (h : Unmistakable c model) {k : Constant} (hk : k ∈ declaredConstants c model) (n : Nat) :
    ¬ k.HasNumber n := by
  rintro ⟨hint, hname⟩
  rcases List.mem_append.mp hk with hk | hk
  · obtain ⟨v, hv, hvname, -⟩ := exists_of_mem_variableConstants hmodel hk
    exact h.numbered hv (hvname.symm.trans hname)
  · have hk : k.name = "objective" := by
      split at hk
      · rw [List.mem_singleton.mp hk]
      · cases hk
    have hhash := hash_mem_numberedName hint n
    rw [← hname, hk] at hhash
    exact absurd hhash (by decide)

end

variable [Scalar α]

/-- Whatever is asked of the solver, and whether requests fail or not: two constants that are made differ in
their sort or in their name, if the names of the model are none that lowering makes up. -/
theorem nodup_constants {requests : List (Context α × Request α)}
    (hrequests : ∀ c model, (c, .model) ∈ requests → c.workspace.findModel c.model = some model →
      (∃ calls, c.workspace = .afterCalls {} calls) ∧ Unmistakable c model) :
    (after ((backend primitives).answer Z3.lowerModel) requests initial).solver.solver.constants.Nodup := by
  obtain ⟨own, hadds, hown, hnumber⟩ : ∃ own : List Constant,
      Adds own initial (after ((backend primitives).answer Z3.lowerModel) requests initial) ∧
        own.Nodup ∧ ∀ k ∈ own, ∀ n, ¬ k.HasNumber n := by
    rcases adds_after requests initial with h | ⟨c, model, hc, hmodel, h⟩
    · exact ⟨[], h, List.nodup_nil, by simp⟩
    · obtain ⟨⟨calls, hcalls⟩, hnames⟩ := hrequests c model hc hmodel
      have hdistinct : ((c.workspace.allVariables c.model).map c.workspace.variableName).Nodup := by
        rw [hcalls] at hmodel ⊢
        exact (namespaces_of_calls calls hmodel).variable_distinct
      exact ⟨_, h, nodup_declaredConstants hmodel hdistinct hnames, fun k hk =>
        not_hasNumber_of_mem_declaredConstants hmodel hnames hk⟩
  obtain ⟨declared, numbered, hdeclared, hnumbered, hperm⟩ := hadds.constants
  have hall : (after ((backend primitives).answer Z3.lowerModel) requests
      initial).solver.solver.constants.Perm (declared ++ numbered) := hperm
  refine hall.nodup_iff.mpr (List.nodup_append'.mpr
    ⟨hown.sublist hdeclared, hnumbered.nodup, fun k hk hk' => ?_⟩)
  obtain ⟨n, hn, -⟩ := hnumbered.range k hk'
  exact hnumber k (hdeclared.subset hk) n hn

/-! ### The name of a comparison -/

namespace Reified

def comparison : Term Exact := .node ⟨1⟩ (.comparison .ge) [.var ⟨0⟩, .const (.finite 3)]

def total : Term Exact := .node ⟨2⟩ .sum [comparison, .var ⟨1⟩]

def equation : Term Exact := .node ⟨3⟩ (.comparison .eq) [total, .const (.finite 2)]

/-- The truth of a comparison is added to a second variable, which has the name given. -/
def calls (name : String) : List (DecisionModel.Call Exact) :=
  [.newModel .feasible, .addVariable ⟨0⟩ .integer "x" (.int 0) (.int 5) (.literal .absent),
    .addVariable ⟨0⟩ .integer name (.int 0) (.int 5) (.literal .absent),
    .relate .ge (.term (.var ⟨0⟩)) (.literal (.int 3)), .add (.term comparison) (.term (.var ⟨1⟩)),
    .relate .eq (.term total) (.literal (.int 2)), .addConstraint ⟨0⟩ (.term equation)]

def context (name : String) : Context Exact := ⟨.afterCalls {} (calls name), ⟨0⟩, {}⟩

/-- The model is lowered, and asked for once more. -/
def requests (name : String) : List (Context Exact × Request Exact) :=
  [(context name, .model), (context name, .model), (context name, .constraint (.term equation))]

def constants (name : String) : List Constant :=
  (after ((backend primitives).answer Z3.lowerModel) (requests name) initial).solver.solver.constants

theorem unmistakable {model : Model Exact} : Unmistakable (context "y") model := by
  have hname {v : VarId} (hv : v ∈ (context "y").workspace.allVariables (context "y").model) :
      (context "y").workspace.variableName v ∈ ["x", "y"] := by
    have hv : v ∈ [(⟨0⟩ : VarId), ⟨1⟩] := hv
    revert v
    decide +kernel
  refine ⟨fun hv heq => ?_, fun _ hv hd _ hobjective => ?_⟩
  · have hhash : ∀ name ∈ ["x", "y"], '#' ∉ name.toList := by decide
    exact hhash _ (hname hv) (heq ▸ hash_mem_numberedName _ _)
  · have hv := hname hv
    simp [Workspace.variableName, hd, hobjective] at hv

theorem other_name_distinct : constants "y" = [⟨true, "x"⟩, ⟨true, "y"⟩, ⟨true, "cmp#1"⟩] ∧
    (constants "y").Nodup := by
  refine ⟨by decide +kernel, nodup_constants fun c model hc _ => ?_⟩
  have hcontext : c = context "y" := by simpa [requests] using hc
  subst hcontext
  exact ⟨⟨calls "y", rfl⟩, unmistakable⟩

/-- The names of the model are distinct, but one of its variables is called as the comparison will be. Both
are the same constant then. -/
theorem namesake_same : ((context "cmp#1").workspace.allVariables ⟨0⟩).map
        (context "cmp#1").workspace.variableName = ["x", "cmp#1"] ∧
      constants "cmp#1" = [⟨true, "x"⟩, ⟨true, "cmp#1"⟩, ⟨true, "cmp#1"⟩] ∧
      ¬ (constants "cmp#1").Nodup := by
  decide +kernel

end Reified

end Z3

end DecisionModel
