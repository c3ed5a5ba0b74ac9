import DecisionModel.Proofs.CpSat.Tracking
import DecisionModel.Proofs.Solver.Idempotent
import DecisionModel.Proofs.Solver.Readback

/-!
# What CP-SAT is told of bounds, in any session

In a session with CP-SAT models are lowered, then terms and constraints, and searches are run, in any
order, and each of these acts may fail halfway. Two facts hold of every state that a session reaches.

As long as no interval was cut, each noted interval holds the values of its handle, at every point that
satisfies the domains and the constraints (`bounds_hold`).

No domain reaches beyond the widest one. All domains and all noted intervals have something in them,
unless one of them is beyond the widest interval altogether (`intervals_valid_iff`): cutting such an
interval leaves a lower end above the upper one (`Beyond.choice_not_valid`).
-/

namespace DecisionModel.CpSat

open LowerM

variable {α β : Type} [Scalar α] {R : Reading} {w : Stage ℤ ℤ} {s : CpSatState}

/-! ### Sessions -/

/-- What is done in a session. -/
inductive Act (α : Type) where
  | lower (c : Context α) (r : Request α)
  | search (c : Context α) (r : Report α)

/-- The state after an act, whether or not it failed. -/
def Act.run : Act α → CpSatState → CpSatState
  | .lower c r, s => ((backend.answer lowerModel (c, r)).run.run s).2
  | .search c r, s => ((solve c r).run.run s).2

/-- The state after a session. -/
def reached (acts : List (Act α)) : CpSatState := acts.foldl (fun s a => a.run s) initial

/-- A handle that the state holds. -/
inductive Holds (s : CpSatState) : Expr → Prop
  | handle {p : VarId × Expr} : p ∈ s.handles → Holds s p.2
  | memo {p : NodeId × Expr} : p ∈ s.memo → Holds s p.2
  | call {c : Call} {h : Expr} : c ∈ s.solver.calls.toList → h ∈ c.handles → Holds s h
  | negation {p : HandleId × Expr} : p ∈ s.solver.negations → Holds s p.2

/-- A handle that one of the acts returned at its turn. -/
inductive Returned : List (Act α) → CpSatState → Expr → Prop
  | now {c x acts s h s'} : (Backend.translateInput backend c x).Runs s h s' →
    Returned (.lower c (.term x) :: acts) s h
  | later {a acts s h} : Returned acts (a.run s) h → Returned (a :: acts) s h

/-! ### Notes stay right -/

/-- The notes stay right, with the same handles and points. -/
def StaysTracked (R : Reading) (w : Stage ℤ ℤ) (s s' : CpSatState) : Prop :=
  Circulates (Tracked R) w s → Circulates (Tracked R) w s'

instance : IsPreorder CpSatState (StaysTracked R w) where
  refl _ := id
  trans _ _ _ h h' := h' ∘ h

/-- A search makes calls only, which are about no handles. -/
theorem tracked_solve (c : Context α) (r : Report α) : Keeps (StaysTracked R w) (solve c r) := by
  have hcall {c : Call} (hc : c.handles = []) (hnew : ∀ l u h, c ≠ .newInteger l u h) :
      Keeps (StaysTracked R w) (callWhileSolving c) :=
    keeps_modify fun s hs => hs.mono le_rfl rfl rfl (hs.own.push le_rfl rfl rfl
      (fun _ hρ => hs.own.points (R.possible (s.solver.extends_push c) hρ)) (by simp [hc])
      fun l u h heq => absurd heq (hnew l u h))
  have hlog (line : String) : Keeps (StaysTracked R w) (SolveM.log c.config 1 line) :=
    keeps_ite (keeps_modify fun s hs => ⟨hs.handles, hs.memo, hs.own⟩) (keeps_pure _)
  refine keeps_look fun s => keeps_bind (SolveM.keeps_ofExcept _) fun _ => ?_
  refine keeps_bind (keeps_configure (fun _ _ => hcall rfl fun _ _ _ h => nomatch h) _) fun _ => ?_
  refine keeps_bind (hlog _) fun _ => keeps_bind (hcall rfl fun _ _ _ h => nomatch h) fun _ => ?_
  refine keeps_bind (hlog _) fun _ => keeps_bind (SolveM.keeps_ofExcept _) fun status => ?_
  split
  · exact keeps_pure _
  · exact keeps_look fun _ => SolveM.keeps_ofExcept _

/-- A model that is lowered in a session has no sequence that the reading does not take. -/
def Act.Takes (R : Reading) : Act α → Prop
  | .lower c .model => (creatable α R).TakesModel c
  | _ => True

/-- The step lemma: an act ends in a later stage, where the handle that it returned circulates. -/
theorem tracked_act {a : Act α} (ha : a.Takes R) (hs : Circulates (Tracked R) w s) :
    ∃ w', w ≤ w' ∧ Circulates (Tracked R) w' (a.run s) ∧ ∀ c x h s', a = .lower c (.term x) →
      (Backend.translateInput backend c x).Runs s h s' → w'.Has h := by
  have hB := agree_tracked α R
  cases a with
  | search c r => exact ⟨w, le_rfl, tracked_solve c r s hs, fun _ _ _ _ heq => nomatch heq⟩
  | lower c r =>
    cases r with
    | model =>
      obtain ⟨-, w', hw, hs', -⟩ := alike_bind (Backend.alike_lowerModel hB ha w)
        (fun _ _ _ _ => alike_pure (x := "") (Q := Stage.Admits) trivial) s hs
      exact ⟨w', hw, hs', fun _ _ _ _ heq => nomatch heq⟩
    | constraint x =>
      obtain ⟨-, w', hw, hs', -⟩ := alike_bind (Backend.alike_postInput hB (c := c) x)
        (fun _ _ _ _ => alike_pure (x := "") (Q := Stage.Admits) trivial) s hs
      exact ⟨w', hw, hs', fun _ _ _ _ heq => nomatch heq⟩
    | term x =>
      obtain ⟨-, w', hw, hs', hh⟩ := Backend.alike_translateInput (c := c) hB x s hs
      refine ⟨w', hw, ?_, ?_⟩
      -- Writing the handle out does not change the state.
      · have hrun : Act.run (.lower c (.term x)) s =
            ((Backend.translateInput backend c x).run.run s).2 := by
          rcases hr : (Backend.translateInput backend c x).run.run s with ⟨e | h, s'⟩
          · exact congrArg Prod.snd (run_bind_of_error hr)
          · exact congrArg Prod.snd (run_bind_of_ok hr)
        rw [hrun]
        exact hs'
      · rintro _ _ h s' ⟨⟩ hr
        exact hh h (congrArg Prod.fst hr)

/-- The run lemma, by induction over the acts. -/
theorem tracked_acts {acts : List (Act α)} (hacts : ∀ a ∈ acts, a.Takes R)
    (hs : Circulates (Tracked R) w s) : ∃ w', w ≤ w' ∧
      Circulates (Tracked R) w' (acts.foldl (fun s a => a.run s) s) ∧
      ∀ h, Returned acts s h → w'.Has h := by
  induction acts generalizing w s with
  | nil => exact ⟨w, le_rfl, hs, fun h hh => nomatch hh⟩
  | cons a acts ih =>
    obtain ⟨w₁, hw₁, hs₁, hnow⟩ := tracked_act (hacts a List.mem_cons_self) hs
    obtain ⟨w₂, hw₂, hs₂, hlater⟩ := ih (fun b hb => hacts b (List.mem_cons_of_mem a hb)) hs₁
    refine ⟨w₂, hw₁.trans hw₂, hs₂, fun h hh => ?_⟩
    cases hh with
    | now hr => exact (hnow _ _ h _ rfl hr).mono hw₂
    | later hh => exact hlater h hh

/-- Nothing is noted in the beginning. -/
theorem tracked_initial (R : Reading) : Circulates (Tracked R) Stage.initial initial where
  handles hp := nomatch hp
  memo hp := nomatch hp
  own := {
    world := World.of_numbers _
    points := fun _ => Set.mem_univ _
    calls := fun hc => nomatch hc
    domains := fun hc => nomatch hc
    bounds := fun hp => nomatch hp
    literals := fun hid => nomatch hid
    negations := fun hp => nomatch hp
    noted := fun {h} hh id hid => by
      cases h with
      | const x => cases hid
      | leaf | node => cases hh }

/-- What a session has noted is right in any reading that takes its sequences. -/
theorem tracked_reached (R : Reading) {acts : List (Act α)} (hacts : ∀ a ∈ acts, a.Takes R) :
    ∃ w, Circulates (Tracked R) w (reached acts) ∧ ∀ h, Returned acts initial h → w.Has h := by
  obtain ⟨w, -, hw⟩ := tracked_acts hacts (tracked_initial R)
  exact ⟨w, hw⟩

/-! ### Bounds hold -/

/-- An interval holds the value, at the points that satisfy the solver, if none was cut. -/
def holding : Reading where
  Spans := Bounds.Contains
  Proper _ := True
  Possible t ρ := t.cut = false ∧ t.Satisfied ρ
  const _ := ⟨le_rfl, le_rfl⟩
  neg := Bounds.Contains.neg
  add := Bounds.Contains.add
  sub := Bounds.Contains.sub
  mul := Bounds.Contains.mul
  complement hm := ⟨sub_nonneg.mpr hm.2, sub_le_self 1 hm.1⟩
  ordered hm := hm.1.trans hm.2
  proper _ := trivial
  proper_neg _ := trivial
  possible hextends hρ := ⟨Bool.eq_false_iff.mpr fun hcut =>
    Bool.eq_false_iff.mp hρ.1 (hextends.cut hcut), fun c hc => hρ.2 c (hextends.calls hc)⟩
  domain hρ hc _ := hρ.2 _ hc
  truth hρ hc := by
    rcases hρ.2 _ hc with h | h <;> rw [h]
    · exact ⟨le_rfl, zero_le_one⟩
    · exact ⟨zero_le_one, le_rfl⟩
  clamp {t ρ id b m} hρ _ hcut hm := by
    have hclamp : b.clamp = b := by
      by_contra hne
      exact Bool.eq_false_iff.mp hρ.1 (hcut hne)
    exact hclamp.symm ▸ hm

/-- The noted bounds are right for the handles of `G`, which has one handle for each entry: as long as
no interval was cut, the handle is within them at each point that satisfies the solver. -/
structure BoundsHold (G : Set Expr) (s : CpSatState) : Prop where
  world : World G s.nextHandle
  holds {h : Expr} : Holds s h → h ∈ G
  entry {p : HandleId × Bounds} : p ∈ s.solver.bounds → ∃ h ∈ G, h.id? = some p.1
  contains {h : Expr} {id : HandleId} {b : Bounds} {ρ : HandleId → ℤ} : h ∈ G → h.id? = some id →
    (id, b) ∈ s.solver.bounds → s.solver.cut = false → s.solver.Satisfied ρ → b.Contains (value ρ h)

theorem boundsHold_of_tracked (hs : Circulates (Tracked holding) w s) : BoundsHold w.terms s where
  world := hs.own.world
  holds hh := by
    cases hh with
    | handle hp => exact (hs.handles hp).knows
    | memo hp => exact (hs.memo hp).knows
    | call hc hh => exact hs.own.calls hc hh
    | negation hp => exact (hs.own.negations hp).knows
  entry hp := by
    obtain ⟨-, h, hspanned, hid⟩ := hs.own.bounds hp
    exact ⟨h, hspanned.knows, hid⟩
  contains hh hid hp hcut hρ := by
    obtain ⟨-, k, hspanned, hkid⟩ := hs.own.bounds hp
    rw [hs.own.world.unique hh hspanned.knows hid hkid]
    exact hspanned.spans (hs.own.points ⟨hcut, hρ⟩)

/-- Whatever is done in a session, the bounds that are noted in the end hold the values of their handles,
those that were returned on the way among them. -/
theorem bounds_hold (acts : List (Act α)) :
    ∃ G, BoundsHold G (reached acts) ∧ ∀ h, Returned acts initial h → h ∈ G := by
  have htakes : ∀ a ∈ acts, a.Takes holding := by
    intro a _
    cases a with
    | search => trivial
    | lower c r =>
      cases r with
      | model => exact ⟨fun _ _ _ _ => trivial, fun _ _ _ _ => ⟨trivial, trivial⟩⟩
      | _ => trivial
  obtain ⟨w, hs, hreturned⟩ := tracked_reached holding htakes
  exact ⟨w.terms, boundsHold_of_tracked hs, fun h hh => (hreturned h hh).knows⟩

/-! ### Intervals that are valid -/

/-- The interval is not altogether beyond the widest one. -/
def Bounds.Reaches (b : Bounds) : Prop := b.lower ≤ widest ∧ -widest ≤ b.upper

instance (b : Bounds) : Decidable b.Reaches := inferInstanceAs (Decidable (_ ∧ _))

/-- The domain that a call makes of a new variable. -/
def Call.domain? : Call → Option Bounds
  | .newInteger lower upper _ => some ⟨lower, upper⟩
  | _ => none

/-- All domains are within the widest one, and neither they nor the noted intervals are empty. -/
structure Solver.Valid (t : Solver) : Prop where
  within : ∀ c ∈ t.calls.toList, ∀ b ∈ c.domain?, b.Within
  domains : ∀ c ∈ t.calls.toList, ∀ b ∈ c.domain?, b.lower ≤ b.upper
  bounds : ∀ p ∈ t.bounds, p.2.lower ≤ p.2.upper

/-- No domain and no noted interval is altogether beyond the widest one. -/
structure Solver.Reaches (t : Solver) : Prop where
  domains : ∀ c ∈ t.calls.toList, ∀ b ∈ c.domain?, b.Reaches
  bounds : ∀ p ∈ t.bounds, p.2.Reaches

instance (t : Solver) : Decidable t.Valid :=
  decidable_of_iff ((∀ c ∈ t.calls.toList, ∀ b ∈ c.domain?, b.Within) ∧
      (∀ c ∈ t.calls.toList, ∀ b ∈ c.domain?, b.lower ≤ b.upper) ∧
      ∀ p ∈ t.bounds, p.2.lower ≤ p.2.upper)
    ⟨fun h => ⟨h.1, h.2.1, h.2.2⟩, fun h => ⟨h.within, h.domains, h.bounds⟩⟩

instance (t : Solver) : Decidable t.Reaches :=
  decidable_of_iff ((∀ c ∈ t.calls.toList, ∀ b ∈ c.domain?, b.Reaches) ∧
      ∀ p ∈ t.bounds, p.2.Reaches)
    ⟨fun h => ⟨h.1, h.2⟩, fun h => ⟨h.domains, h.bounds⟩⟩

theorem Bounds.Within.reaches {b : Bounds} (h : b.Within) (hle : b.lower ≤ b.upper) : b.Reaches :=
  ⟨hle.trans h.2, h.1.trans hle⟩

/-- An interval is within the widest one, and not empty if none is altogether beyond it. -/
def valid : Reading where
  Spans b _ := b.lower ≤ b.upper
  Proper := Bounds.Within
  Possible t _ := t.Reaches
  const _ := le_rfl
  neg := neg_le_neg
  add := add_le_add
  sub ha hb := sub_le_sub ha hb
  mul {a b _ _} _ _ := Bounds.ordered_mul a b
  complement := id
  ordered := id
  proper := id
  proper_neg := Bounds.Within.neg
  possible hextends h := ⟨fun c hc => h.domains c (hextends.calls hc),
    fun p hp => h.bounds p (hextends.bounds hp)⟩
  domain h hc hb := (h.domains _ hc _ rfl).elim hb
  truth _ _ := zero_le_one
  clamp h hp _ hb := (h.bounds _ hp).elim (Bounds.sensible_clamp hb)

/-- No sequence of the model is longer than the widest domain reaches. -/
def SequencesReach (c : Context α) : Prop := ∀ model ∈ c.workspace.findModel c.model,
  ∀ q ∈ model.sequences, ((c.workspace.sequenceMembers q).length : ℤ) ≤ widest

instance (c : Context α) : Decidable (SequencesReach c) :=
  inferInstanceAs (Decidable (∀ model ∈ c.workspace.findModel c.model,
    ∀ q ∈ model.sequences, ((c.workspace.sequenceMembers q).length : ℤ) ≤ widest))

omit [Scalar α] in
theorem SequencesReach.takesModel {c : Context α} (hc : SequencesReach c) :
    (creatable α valid).TakesModel c := by
  refine ⟨fun _ _ _ _ => trivial, fun model hmodel q hq => ?_⟩
  have hlen := hc model hmodel q hq
  have hpos := Bounds.widest_pos
  simp only [creatable, List.length_map, valid, Bounds.Within]
  omega

/-- A domain that was made comes from a call for a new variable. -/
theorem Call.eq_newInteger {c : Call} {b : Bounds} (h : b ∈ c.domain?) :
    ∃ k, c = .newInteger b.lower b.upper k := by
  cases c with
  | newInteger lower upper k =>
    cases h
    exact ⟨k, rfl⟩
  | _ => cases h

/-- Whatever is done in a session, no domain reaches beyond the widest one, and the intervals are valid
if and only if none of them is altogether beyond it. -/
theorem intervals_valid_iff (acts : List (Act α))
    (hacts : ∀ c, .lower c .model ∈ acts → SequencesReach c) :
    (∀ c ∈ (reached acts).solver.calls.toList, ∀ b ∈ c.domain?, b.Within) ∧
      ((reached acts).solver.Valid ↔ (reached acts).solver.Reaches) := by
  have htakes : ∀ a ∈ acts, a.Takes valid := by
    intro a ha
    cases a with
    | search => trivial
    | lower c r =>
      cases r with
      | model => exact (hacts c ha).takesModel
      | _ => trivial
  obtain ⟨w, hs, -⟩ := tracked_reached valid htakes
  have hdomain : ∀ c ∈ (reached acts).solver.calls.toList, ∀ b ∈ c.domain?,
      b.Within ∧ ∃ h, Spanned valid w b h := by
    intro c hc b hb
    obtain ⟨h, rfl⟩ := Call.eq_newInteger hb
    obtain ⟨hwithin, hspanned⟩ := hs.own.domains hc
    exact ⟨hwithin, h, hspanned⟩
  have hwithin := fun c hc b hb => (hdomain c hc b hb).1
  refine ⟨hwithin, fun hvalid => ⟨fun c hc b hb => ?_, fun p hp => ?_⟩, fun hreaches => ?_⟩
  · exact (hwithin c hc b hb).reaches (hvalid.domains c hc b hb)
  · exact (hs.own.bounds hp).1.reaches (hvalid.bounds p hp)
  · -- In this reading the solver may be anywhere, since nothing was lost.
    have hpoint : (fun _ => 0) ∈ w.points := hs.own.points hreaches
    refine ⟨hwithin, fun c hc b hb => ?_, fun p hp => ?_⟩
    · obtain ⟨-, h, hspanned⟩ := hdomain c hc b hb
      exact hspanned.spans hpoint
    · obtain ⟨-, h, hspanned, -⟩ := hs.own.bounds hp
      exact hspanned.spans hpoint

namespace Tour

/-- The load at the first stop of a tour, which has to be two at least. -/
def load : Term Exact := .node ⟨1⟩ .product [.var ⟨0⟩, .var ⟨2⟩]

def model : Model Exact where
  sense := .feasible
  objective := .node ⟨0⟩ .wrapper [.const (.finite 0)]
  sequences := [⟨0⟩]
  vars := [⟨2⟩]
  constraints := [.node ⟨2⟩ (.comparison .ge) [load, .const (.finite 2)]]
  variableNames := ["x", "tour[0]", "tour[1]"]
  sequenceNames := ["tour"]

def workspace : Workspace Exact where
  vars := #[{ kind := .integer, name := "tour[0]", lower := .finite 1, upper := .finite 2 },
    { kind := .integer, name := "tour[1]", lower := .finite 1, upper := .finite 2 },
    { kind := .integer, name := "x", lower := .finite (-1 / 2), upper := .finite 5 }]
  sequences := #[⟨"tour", [⟨0⟩, ⟨1⟩]⟩]
  models := #[model]
  nextNode := 4

def context : Context Exact := ⟨workspace, ⟨0⟩, {}⟩

def report : Report Exact := ⟨.optimal, "", .int 0, fun _ => .int 1⟩

/-- The model is lowered and solved, and then one more term is lowered. -/
def acts : List (Act Exact) := [.lower context .model, .search context report,
  .lower context (.term (.term (.node ⟨3⟩ .difference [load, .var ⟨1⟩])))]

theorem acts_valid : (∀ c, .lower c .model ∈ acts → SequencesReach c) ∧
    ((reached acts).solver.calls.toList.filterMap Call.domain?).length = 5 ∧
    (reached acts).solver.Valid := by
  have hacts : ∀ c, .lower c .model ∈ acts → SequencesReach c := by
    intro c hc
    obtain rfl : c = context := by simpa [acts] using hc
    decide +kernel
  have hreaches : (reached acts).solver.Reaches := by decide +kernel
  exact ⟨hacts, by decide +kernel, (intervals_valid_iff acts hacts).2.mpr hreaches⟩

end Tour

namespace Beyond

/-- A choice between two numbers, both of which are beyond the widest interval. -/
def choice : Term Exact := .node ⟨1⟩ (.custom "if_then_else")
  [.var ⟨0⟩, .const (.finite 10000000000000000000), .const (.finite 20000000000000000000)]

def model : Model Exact where
  sense := .feasible
  objective := .node ⟨0⟩ .wrapper [.const (.finite 0)]
  vars := [⟨0⟩]
  constraints := [.node ⟨2⟩ (.comparison .ge) [choice, .const (.finite 1)]]
  variableNames := ["b"]

def workspace : Workspace Exact where
  vars := #[{ kind := .boolean, name := "b", lower := .finite 0, upper := .finite 1 }]
  models := #[model]
  operators := ["if_then_else"]
  nextNode := 3

def acts : List (Act Exact) := [.lower ⟨workspace, ⟨0⟩, {}⟩ .model]

/-- The domain of its variable has a lower end above the upper one. -/
theorem choice_not_valid : ¬ (reached acts).solver.Valid := by decide +kernel

end Beyond

end DecisionModel.CpSat
