import Mathlib.Data.List.Basic
import DecisionModel.Proofs.Builder.Members
import DecisionModel.Proofs.Evaluation.Monotone
import DecisionModel.Proofs.Fault

/-!
# Reading sequences and reading their members

A solution keeps the values of a sequence twice, as the list that was written for the whole and as the
values of its members. Writing the whole renews both; writing a member renews its value only. So
`getSequence` gives the last list that was written for the sequence, or else the values that its members
were written, and `get` gives what a member was written last, be it alone or within a list, or else the
value that its bounds leave (`getSequence_written`, `get_written`).

The two agree just as long as no member has left the list behind (`sequence_agrees_iff`). They do not when
a member is written after the whole, nor for a member that no one has written and that its bounds fix
(`Small.disagrees`).
-/

namespace DecisionModel

open Workspace

variable {α β : Type}

/-- A write into a solution, of one variable or of a sequence as a whole. -/
inductive Write (α : Type) where
  | value (v : VarId) (x : Literal α)
  | sequence (q : SequenceId) (xs : List (Literal α))

/-- The last value entered for a variable. -/
def latest? (entries : List (VarId × α)) (v : VarId) : Option α := Table.get? entries.reverse v

namespace Write

variable [Scalar α]

/-- The numbers given for a sequence, if all of them are numbers and there is one for each member. -/
def numbers? (w : Workspace α) (q : SequenceId) (xs : List (Literal α)) : Option (List α) :=
  if xs.length = (w.sequenceMembers q).length then (xs.mapM Literal.toScalar).toOption else none

/-- The values that a write gives to variables. -/
def entries (w : Workspace α) : Write α → List (VarId × α)
  | value v x => (x.toScalar.toOption.map (v, ·)).toList
  | sequence q xs => ((numbers? w q xs).map (w.sequenceMembers q).zip).getD []

/-- The list that a write gives to a sequence. -/
def whole? (w : Workspace α) (q : SequenceId) : Write α → Option (List α)
  | value .. => none
  | sequence p xs => if q = p then numbers? w p xs else none

end Write

section

variable [Scalar α]

/-- What a variable was written last, alone or within a sequence. -/
def lastValue? (w : Workspace α) (ws : List (Write α)) (v : VarId) : Option α :=
  latest? (ws.flatMap (Write.entries w)) v

/-- The last list that was written for a sequence as a whole. -/
def lastWhole? (w : Workspace α) (ws : List (Write α)) (q : SequenceId) : Option (List α) :=
  (ws.filterMap (Write.whole? w q)).getLast?

/-- The value that the bounds of its members leave, if they leave only one. -/
def Workspace.onlyValue? (w : Workspace α) (q : SequenceId) : Option α :=
  if Scalar.eq (Scalar.one : α) (Scalar.ofInt (w.sequenceMembers q).length) then some Scalar.one
  else none

/-- The list that was written last for the sequence is what its members were written last. If there is no
such list, then no member owes its value to its bounds. -/
def Workspace.Current (w : Workspace α) (ws : List (Write α)) (q : SequenceId) : Prop :=
  match lastWhole? w ws q with
  | some xs => (w.sequenceMembers q).mapM (lastValue? w ws) = some xs
  | none => (w.onlyValue? q).isSome → ∀ v ∈ w.sequenceMembers q, (lastValue? w ws v).isSome

namespace Solution

/-- The solution after a write. One that is refused changes nothing. -/
def write (s : Solution α) (w : Workspace α) : Write α → Solution α
  | .value v x => (x.toScalar.toOption.map (s.set v)).getD s
  | .sequence q xs => (s.setSequence w q xs).toOption.getD s

/-- The solution after some writes. -/
def written (s : Solution α) (w : Workspace α) (ws : List (Write α)) : Solution α :=
  ws.foldl (fun s x => s.write w x) s

/-- The values of all members of a sequence, if each of them has one. -/
def memberValues (s : Solution α) (w : Workspace α) (q : SequenceId) : Option (List α) :=
  (w.sequenceMembers q).mapM fun v => (s.get w v).toOption.join

end Solution

end

/-! ### Last entries -/

theorem latest?_append (xs ys : List (VarId × α)) (v : VarId) :
    latest? (xs ++ ys) v = (latest? ys v).or (latest? xs v) := by
  simp [latest?, Table.get?, List.find?_append, Option.map_or]

theorem latest?_singleton (u v : VarId) (x : α) :
    latest? [(u, x)] v = if v = u then some x else none := by
  by_cases h : v = u <;> simp [latest?, Table.get?, h, eq_comm]

namespace Solution

/-- Values are entered one after the other. -/
theorem stored?_foldl_set (entries : List (VarId × α)) (s : Solution α) (v : VarId) :
    (entries.foldl (fun s e => s.set e.1 e.2) s).stored? v =
      (latest? entries v).or (s.stored? v) := by
  induction entries generalizing s with
  | nil => rfl
  | cons e entries ih =>
    rw [List.foldl_cons, ih, ← List.singleton_append, latest?_append, Option.or_assoc,
      latest?_singleton, stored?_set]
    by_cases h : v = e.1 <;> simp [h]

theorem sequences_foldl_set (entries : List (VarId × α)) (s : Solution α) :
    (entries.foldl (fun s e => s.set e.1 e.2) s).sequences = s.sequences := by
  induction entries generalizing s with
  | nil => rfl
  | cons e entries ih => rw [List.foldl_cons, ih]; rfl

/-! ### What one write does -/

variable [Scalar α] {w : Workspace α} {s : Solution α}

/-- A list is accepted for a sequence if its numbers are. -/
theorem toOption_setSequence (s : Solution α) (w : Workspace α) (q : SequenceId)
    (xs : List (Literal α)) :
    (s.setSequence w q xs).toOption = (Write.numbers? w q xs).map (s.enterSequence w q) := by
  unfold setSequence Write.numbers?
  by_cases hlength : xs.length = (w.sequenceMembers q).length
  · rcases xs.mapM Literal.toScalar with f | ys <;> simp [hlength, Except.toOption]
  · simp [hlength, Except.toOption]

theorem stored?_write (s : Solution α) (w : Workspace α) (x : Write α) (v : VarId) :
    (s.write w x).stored? v = (latest? (x.entries w) v).or (s.stored? v) := by
  cases x with
  | value u x =>
    simp only [write, Write.entries]
    rcases x.toScalar.toOption with _ | y
    · rfl
    · rw [Option.map_some, Option.map_some, Option.getD_some, Option.toList_some,
        latest?_singleton, stored?_set]
      by_cases h : v = u <;> simp [h]
  | sequence q xs =>
    simp only [write, Write.entries, toOption_setSequence]
    rcases Write.numbers? w q xs with _ | ys
    · rfl
    · exact stored?_foldl_set ((w.sequenceMembers q).zip ys) s v

theorem whole_write (s : Solution α) (w : Workspace α) (x : Write α) (q : SequenceId) :
    Table.get? (s.write w x).sequences q = (x.whole? w q).or (Table.get? s.sequences q) := by
  cases x with
  | value u x =>
    simp only [write, Write.whole?]
    rcases x.toScalar.toOption with _ | y <;> rfl
  | sequence p xs =>
    simp only [write, Write.whole?, toOption_setSequence]
    rcases Write.numbers? w p xs with _ | ys
    · simp
    · simp only [Option.map_some, Option.getD_some, enterSequence, Table.get?_put,
        sequences_foldl_set]
      by_cases h : q = p <;> simp [h]

/-! ### What all writes do -/

theorem stored?_written (ws : List (Write α)) (s : Solution α) (w : Workspace α) (v : VarId) :
    (s.written w ws).stored? v = (lastValue? w ws v).or (s.stored? v) := by
  induction ws generalizing s with
  | nil => rfl
  | cons x ws ih =>
    have hlast : lastValue? w (x :: ws) v = (lastValue? w ws v).or (latest? (x.entries w) v) := by
      rw [lastValue?, List.flatMap_cons, latest?_append, lastValue?]
    rw [hlast, Option.or_assoc, ← stored?_write]
    exact ih _

theorem whole_written (ws : List (Write α)) (s : Solution α) (w : Workspace α) (q : SequenceId) :
    Table.get? (s.written w ws).sequences q = (lastWhole? w ws q).or (Table.get? s.sequences q) := by
  induction ws generalizing s with
  | nil => rfl
  | cons x ws ih =>
    have hlast : lastWhole? w (x :: ws) q = (lastWhole? w ws q).or (x.whole? w q) := by
      unfold lastWhole?
      rcases hx : x.whole? w q with _ | ys
      · simp [hx]
      · rw [List.filterMap_cons_some hx, List.getLast?_cons]
        rcases (ws.filterMap (Write.whole? w q)).getLast? with _ | zs <;> rfl
    rw [hlast, Option.or_assoc, ← whole_write]
    exact ih _

/-- Reading a sequence of a solution that was filled by some writes. -/
theorem getSequence_written (w : Workspace α) (m : ModelId) (ws : List (Write α)) (q : SequenceId) :
    ((({ model := m } : Solution α).written w ws).getSequence w q) =
      (lastWhole? w ws q).or ((w.sequenceMembers q).mapM (lastValue? w ws)) := by
  have hwhole := whole_written ws { model := m } w q
  have hstored : ((({ model := m } : Solution α).written w ws)).stored? = lastValue? w ws :=
    funext fun v => (stored?_written ws _ w v).trans Option.or_none
  rw [show Table.get? ({ model := m } : Solution α).sequences q = none from rfl, Option.or_none]
    at hwhole
  unfold getSequence
  rw [show (List.find? _ _).map _ = _ from hwhole, hstored]
  rcases lastWhole? w ws q with _ | xs <;> rfl

/-- A member that has no stored value has the one that its bounds leave. -/
theorem get_member (h : w.HasMembers) {q : SequenceId} {v : VarId} (hv : v ∈ w.sequenceMembers q) :
    s.get w v = .ok ((s.stored? v).or (w.onlyValue? q)) := by
  obtain ⟨name, hname⟩ := h q v hv
  have hread : s.get w v = .ofReading (s.assignment.readVariable w (w.vars.size + 1) v) := rfl
  rw [hread]
  have hstored : s.assignment.stored v = s.stored? v := rfl
  unfold Assignment.readVariable
  rw [hstored, hname]
  rcases s.stored? v with _ | x
  · by_cases hfixed : Scalar.eq (Scalar.one : α) (Scalar.ofInt (w.sequenceMembers q).length) <;>
      simp only [Variable.member, Variable.isFixed, Workspace.onlyValue?, hfixed] <;> rfl
  · rfl

end Solution

/-! ### Agreement -/

theorem isSome_mapM {f : β → Option α} {xs : List β} :
    (xs.mapM f).isSome ↔ ∀ x ∈ xs, (f x).isSome := by
  induction xs with
  | nil => simp
  | cons x xs ih =>
    rw [List.mapM_cons, List.forall_mem_cons, ← ih]
    rcases f x with _ | y
    · simp
    · rcases xs.mapM f with _ | ys <;> simp

theorem mapM_congr {f g : β → Option α} {xs : List β} (h : ∀ x ∈ xs, f x = g x) :
    xs.mapM f = xs.mapM g := by
  induction xs with
  | nil => rfl
  | cons x xs ih =>
    rw [List.mapM_cons, List.mapM_cons, h x List.mem_cons_self,
      ih fun y hy => h y (List.mem_cons_of_mem x hy)]

/-- A default changes nothing where all elements have a value, or where there is no default. -/
theorem mapM_or_eq_iff {f : β → Option α} {o : Option α} {xs : List β} :
    (xs.mapM f = xs.mapM fun x => (f x).or o) ↔ (o.isSome → ∀ x ∈ xs, (f x).isSome) := by
  constructor
  · intro h ho
    rw [← isSome_mapM, h, isSome_mapM]
    intro x _
    simp [ho]
  · intro h
    refine mapM_congr fun x hx => ?_
    rcases o with _ | y
    · rw [Option.or_none]
    · obtain ⟨z, hz⟩ := Option.isSome_iff_exists.mp (h rfl x hx)
      rw [hz, Option.some_or]

theorem isSome_latest? {entries : List (VarId × α)} {v : VarId} :
    (latest? entries v).isSome ↔ v ∈ entries.map (·.1) := by
  simp [latest?, Table.get?, List.find?_isSome]

section

variable [Scalar α] {w : Workspace α} {ws : List (Write α)} {q : SequenceId}

theorem Write.length_of_numbers? {xs : List (Literal α)} {ys : List α}
    (h : Write.numbers? w q xs = some ys) : ys.length = (w.sequenceMembers q).length := by
  unfold Write.numbers? at h
  split at h
  · rename_i hlength
    rcases hxs : xs.mapM Literal.toScalar with f | zs
    · rw [hxs] at h
      cases h
    · rw [hxs] at h
      cases h
      rw [← hlength, length_of_mapM hxs]
  · cases h

/-- Where the whole was written, each member was. -/
theorem isSome_lastValue?_of_whole {xs : List α} (h : lastWhole? w ws q = some xs) {v : VarId}
    (hv : v ∈ w.sequenceMembers q) : (lastValue? w ws v).isSome := by
  obtain ⟨x, hx, hwhole⟩ := List.mem_filterMap.mp (List.mem_of_getLast? h)
  rw [lastValue?, isSome_latest?, List.map_flatMap, List.mem_flatMap]
  refine ⟨x, hx, ?_⟩
  cases x with
  | value => cases hwhole
  | sequence p ys =>
    simp only [Write.whole?] at hwhole
    split at hwhole
    · rename_i hp
      subst hp
      simpa [Write.entries, hwhole, List.map_fst_zip (Write.length_of_numbers? hwhole).ge] using hv
    · cases hwhole

/-- After any writes into a new solution of a model that calls have built, a sequence reads as the last
list that was written for it, or else as what its members were written last, and a member as what it was
written last, or else as the value that its bounds leave. Therefore the sequence reads as its members do if
and only if it is current. -/
theorem sequence_agrees_iff (calls : List (Call α)) (m : ModelId) (ws : List (Write α))
    (q : SequenceId) :
    let w := Workspace.afterCalls {} calls
    let s := Solution.written { model := m } w ws
    s.getSequence w q = (lastWhole? w ws q).or ((w.sequenceMembers q).mapM (lastValue? w ws)) ∧
      (∀ v ∈ w.sequenceMembers q, s.get w v = .ok ((lastValue? w ws v).or (w.onlyValue? q))) ∧
      (s.getSequence w q = s.memberValues w q ↔ w.Current ws q) := by
  intro w s
  have hsequence : s.getSequence w q = _ := Solution.getSequence_written w m ws q
  have hget : ∀ v ∈ w.sequenceMembers q,
      s.get w v = .ok ((lastValue? w ws v).or (w.onlyValue? q)) := fun v hv => by
    rw [Solution.get_member (hasMembers_afterCalls calls) hv, Solution.stored?_written,
      show ({ model := m } : Solution α).stored? v = none from rfl, Option.or_none]
  have hmembers : s.memberValues w q =
      (w.sequenceMembers q).mapM fun v => (lastValue? w ws v).or (w.onlyValue? q) :=
    mapM_congr fun v hv => by rw [hget v hv]; rfl
  refine ⟨hsequence, hget, ?_⟩
  rw [hsequence, hmembers]
  unfold Workspace.Current
  rcases hwhole : lastWhole? w ws q with _ | xs
  · exact mapM_or_eq_iff
  · -- all members were written, so that their bounds do not matter
    rw [← mapM_or_eq_iff.mpr fun _ v hv => isSome_lastValue?_of_whole hwhole hv]
    exact eq_comm

end

namespace Small

/-- A sequence of two and one of a single member. -/
def lines : List (Call Exact) :=
  [.newModel .feasible, .addSequence ⟨0⟩ "s" (.int 2), .addSequence ⟨0⟩ "t" (.int 1)]

/-- The first sequence is written as a whole, and then one of its members. -/
def rewritten : List (Write Exact) :=
  [.sequence ⟨0⟩ [.int 1, .int 2], .value ⟨0⟩ (.int 2)]

/-- The first sequence still reads as the list that was written for it, and the second one has no value
although its only member has one. -/
theorem lines_disagree :
    let w := Workspace.afterCalls {} lines
    let s := Solution.written { model := ⟨0⟩ } w rewritten
    (s.getSequence w ⟨0⟩ = some [.finite 1, .finite 2] ∧
        s.memberValues w ⟨0⟩ = some [.finite 2, .finite 2]) ∧
      s.getSequence w ⟨1⟩ = none ∧ s.memberValues w ⟨1⟩ = some [.finite 1] := by
  decide +kernel

end Small

end DecisionModel
