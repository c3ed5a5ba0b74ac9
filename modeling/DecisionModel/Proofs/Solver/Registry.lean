import Mathlib.Data.String.Basic
import DecisionModel.Solver.Registry

/-!
# Looking a solver up and solving with it

Whatever was registered, looked up and listed before, the solver of a name is the one that was last
registered under it, in any case of letters, or else the one that comes with the name
(`looksUp_after`). Only the names of the known solvers can be solved with, so solving goes by the
same look-up as long as no other name was registered (`agrees_after`).
-/

namespace DecisionModel.Registry

/-- What is done with a registry. -/
inductive Act where
  | register (name : String) (kind : SolverKind)
  | get (name : String)
  | available
  | choose (name : String) (hasEpsilon : Bool)

/-- The registry after an act. -/
def act (r : Registry) : Act → Registry
  | .register name kind => r.register name kind
  | .get name => (r.get name).2
  | .available => r.available.2
  | .choose name hasEpsilon => (r.choose name hasEpsilon).2

/-- The registry after a history of acts, where the known solvers of some names are missing. -/
def after (missing : List String) (history : List Act) : Registry :=
  history.foldl act { missing }

/-- The solver that an act registers under a name, written in lower case. -/
def Act.registered? (key : String) : Act → Option SolverKind
  | .register name kind => if key = Text.lower name then some kind else none
  | _ => none

/-- The solver that was last registered under a name, written in lower case. -/
def lastRegistered? (key : String) : List Act → Option SolverKind
  | [] => none
  | a :: history => (lastRegistered? key history).or (a.registered? key)

/-- The solver that comes with a name, unless it is missing. -/
def shipped? (missing : List String) (key : String) : Option SolverKind :=
  (SolverKind.known.find? (·.name = key)).filter fun _ => !missing.contains key

/-! ## What stands in a registry -/

/-- Under each name stands the solver that was registered last, or nothing, or the one that came with
the name when it was asked for. -/
structure Tracks (missing : List String) (registered : String → Option SolverKind) (r : Registry) :
    Prop where
  missing_eq : r.missing = missing
  entry (key : String) : Table.get? r.entries key = (registered key).map some ∨
    registered key = none ∧ key ∈ knownNames ∧
      Table.get? r.entries key = some (shipped? missing key)

variable {missing : List String} {registered : String → Option SolverKind} {r : Registry}

theorem mem_knownNames {key : String} :
    key ∈ knownNames ↔ ∃ kind, SolverKind.known.find? (·.name = key) = some kind := by
  rw [← Option.isSome_iff_exists, List.find?_isSome]
  simp [knownNames, eq_comm]

theorem shipped?_eq_none {key : String} (h : key ∉ knownNames) : shipped? missing key = none := by
  have hfind : SolverKind.known.find? (·.name = key) = none :=
    Option.eq_none_iff_forall_ne_some.mpr fun kind hkind => h (mem_knownNames.mpr ⟨kind, hkind⟩)
  rw [shipped?, hfind, Option.filter_none]

theorem any_key_iff (r : Registry) (key : String) :
    r.entries.any (·.1 = key) ↔ (Table.get? r.entries key).isSome := by
  simp [Table.get?]

theorem Tracks.register (h : Tracks missing registered r) (name : String) (kind : SolverKind) :
    Tracks missing (fun key => ((Act.register name kind).registered? key).or (registered key))
      (r.register name kind) where
  missing_eq := h.missing_eq
  entry key := by
    rw [Registry.register, Table.get?_put, Act.registered?]
    split
    · exact .inl rfl
    · exact h.entry key

/-- Nothing is entered over what was registered. -/
theorem Tracks.load (h : Tracks missing registered r) (name : String) :
    Tracks missing registered (r.load name) := by
  unfold Registry.load
  split
  · exact h
  · rename_i habsent
    split
    · exact h
    · rename_i kind hkind
      have hnone : Table.get? r.entries name = none := by
        simpa using mt (any_key_iff r name).mpr habsent
      have hfree : registered name = none := by
        rcases h.entry name with hentry | hentry
        · rw [hnone] at hentry
          exact Option.map_eq_none_iff.mp hentry.symm
        · exact hentry.1
      refine ⟨h.missing_eq, fun key => ?_⟩
      rw [Table.get?_put]
      split
      · rename_i hkey
        subst hkey
        refine .inr ⟨hfree, mem_knownNames.mpr ⟨kind, hkind⟩, ?_⟩
        by_cases hmissing : key ∈ missing <;>
          simp [shipped?, hkind, h.missing_eq, hmissing, Option.filter]
      · exact h.entry key

theorem Tracks.get (h : Tracks missing registered r) (name : String) :
    Tracks missing registered (r.get name).2 :=
  h.load (Text.lower name)

theorem Tracks.available (h : Tracks missing registered r) :
    Tracks missing registered r.available.2 :=
  List.foldlRecOn knownNames Registry.load h fun _ hr name _ => hr.load name

theorem Tracks.choose (h : Tracks missing registered r) (name : String) (hasEpsilon : Bool) :
    Tracks missing registered (r.choose name hasEpsilon).2 := by
  simp only [Registry.choose]
  split
  · exact h
  · have hget := h.get (Text.lower name)
    generalize r.get (Text.lower name) = found at hget
    obtain ⟨kind, r'⟩ := found
    cases kind with
    | none => exact hget
    | some kind =>
      dsimp only
      split <;> exact hget

theorem Tracks.act (h : Tracks missing registered r) (a : Act) :
    Tracks missing (fun key => (a.registered? key).or (registered key)) (r.act a) := by
  cases a with
  | register name kind => exact h.register name kind
  | get name => exact h.get name
  | available => exact h.available
  | choose name hasEpsilon => exact h.choose name hasEpsilon

theorem Tracks.foldl (h : Tracks missing registered r) (history : List Act) :
    Tracks missing (fun key => (lastRegistered? key history).or (registered key))
      (history.foldl Registry.act r) := by
  induction history generalizing r registered with
  | nil => exact h
  | cons a history ih =>
    rw [List.foldl_cons]
    simpa only [lastRegistered?, Option.or_assoc] using ih (h.act a)

theorem tracks_after (missing : List String) (history : List Act) :
    Tracks missing (fun key => lastRegistered? key history) (after missing history) := by
  have h : Tracks missing (fun _ => none) { missing } := ⟨rfl, fun _ => .inl rfl⟩
  simpa only [Option.or_none, after] using h.foldl history

/-! ## Looking up -/

/-- After its name was looked for, a solver stands in the registry if there is one. -/
theorem Tracks.get_eq (h : Tracks missing registered r) (name : String) :
    (r.get name).1 = (registered (Text.lower name)).or (shipped? missing (Text.lower name)) := by
  have hload := h.load (Text.lower name)
  change (Table.get? (r.load (Text.lower name)).entries (Text.lower name)).join = _
  rcases hload.entry (Text.lower name) with hentry | ⟨hfree, -, hentry⟩
  · rw [hentry]
    cases hregistered : registered (Text.lower name) with
    | some kind => rfl
    | none =>
      -- the name was not even entered, so no solver comes with it
      refine (shipped?_eq_none fun hknown => ?_).symm
      obtain ⟨kind, hkind⟩ := mem_knownNames.mp hknown
      rw [hregistered, Registry.load] at hentry
      split at hentry
      · rename_i hany
        simpa [hentry] using (any_key_iff r _).mp hany
      · simp [hkind, Table.get?_put] at hentry
  · rw [hentry, hfree]
    rfl

/-- The solver of a name is the one last registered under it, in any case of letters, or else the one
that comes with the name. -/
def LooksUp (missing : List String) (history : List Act) : Prop :=
  ∀ name, ((after missing history).get name).1 =
    (lastRegistered? (Text.lower name) history).or (shipped? missing (Text.lower name))

theorem looksUp_after (missing : List String) (history : List Act) : LooksUp missing history :=
  (tracks_after missing history).get_eq

/-! ## Solving -/

/-- The solver chosen to solve with is the one found under the name, but for a tolerance that the
solver of that name does not have. -/
def Chooses (missing : List String) (history : List Act) : Prop :=
  ∀ name kind hasEpsilon, ((after missing history).get name).1 = some kind →
    ((after missing history).choose name hasEpsilon).1 =
      if hasEpsilon ∧ Text.lower name = SolverKind.cpSat.name then
        .error (.needlessEpsilon (Text.lower name))
      else .ok kind

/-- The supported solvers are the registered names and those of the known solvers, in order. -/
def Lists (history : List Act) : Prop :=
  supportedSolvers.Pairwise (· < ·) ∧
    ∀ key, key ∈ supportedSolvers ↔ key ∈ knownNames ∨ (lastRegistered? key history).isSome

/-- The names of the known solvers are in lower case. -/
theorem lower_of_mem_knownNames : ∀ key ∈ knownNames, Text.lower key = key := by decide +kernel

theorem not_isTolerant : ∀ kind ∈ SolverKind.known,
    (!kind.isTolerant) = decide (kind.name = SolverKind.cpSat.name) := by decide

theorem choose_of_get {name : String} {kind : SolverKind} (hasEpsilon : Bool)
    (hknown : Text.lower name ∈ knownNames) (hget : (r.get name).1 = some kind) :
    (r.choose name hasEpsilon).1 =
      if hasEpsilon ∧ Text.lower name = SolverKind.cpSat.name then
        .error (.needlessEpsilon (Text.lower name))
      else .ok kind := by
  have hlower : Text.lower (Text.lower name) = Text.lower name :=
    lower_of_mem_knownNames _ hknown
  have hagain : (r.get (Text.lower name)).1 = some kind := by
    rw [← hget, Registry.get, Registry.get, hlower]
  obtain ⟨known, hfind⟩ := mem_knownNames.mp hknown
  have htolerant : (!known.isTolerant) = decide (Text.lower name = SolverKind.cpSat.name) := by
    have hname : known.name = Text.lower name := by simpa using List.find?_some hfind
    rw [← hname]
    exact not_isTolerant known (List.mem_of_find?_eq_some hfind)
  simp only [Registry.choose, hfind]
  rw [hagain, htolerant]
  cases hasEpsilon <;> by_cases hcp : Text.lower name = SolverKind.cpSat.name <;> simp [hcp]

theorem pairwise_supportedSolvers : supportedSolvers.Pairwise (· < ·) := by
  have hle : supportedSolvers.Pairwise (· ≤ ·) := by
    have htrans : ∀ a b c : String, decide (a ≤ b) = true → decide (b ≤ c) = true →
        decide (a ≤ c) = true := by simpa using fun a b c hab hbc => le_trans hab hbc
    have htotal : ∀ a b : String, (decide (a ≤ b) || decide (b ≤ a)) = true := by simpa using le_total
    simpa [supportedSolvers] using List.pairwise_mergeSort htrans htotal knownNames
  have hne : supportedSolvers.Nodup := (List.mergeSort_perm _ _).nodup_iff.mpr (by decide)
  exact (hle.and hne).imp fun h => lt_of_le_of_ne h.1 h.2

theorem mem_supportedSolvers {key : String} : key ∈ supportedSolvers ↔ key ∈ knownNames :=
  List.mem_mergeSort

/-- The names registered in a history are those of its acts. -/
theorem exists_register {key : String} {history : List Act}
    (h : (lastRegistered? key history).isSome) :
    ∃ name kind, Act.register name kind ∈ history ∧ key = Text.lower name := by
  induction history with
  | nil => cases h
  | cons a history ih =>
    rw [lastRegistered?, Option.isSome_or, Bool.or_eq_true] at h
    rcases h with h | h
    · obtain ⟨name, kind, hmem, hkey⟩ := ih h
      exact ⟨name, kind, .tail _ hmem, hkey⟩
    · cases a with
      | register name kind =>
        rw [Act.registered?] at h
        split at h
        · rename_i hkey
          exact ⟨name, kind, .head _, hkey⟩
        · cases h
      | get | available | choose => cases h

/-- As long as solvers are registered under the names of known ones only, a model is solved with the
solver that is found under the name, and the supported solvers are all those that can be found. -/
theorem agrees_after (missing : List String) (history : List Act)
    (hknown : ∀ name kind, Act.register name kind ∈ history → Text.lower name ∈ knownNames) :
    LooksUp missing history ∧ Chooses missing history ∧ Lists history := by
  have hregistered : ∀ key, (lastRegistered? key history).isSome → key ∈ knownNames := by
    intro key h
    obtain ⟨name, kind, hmem, rfl⟩ := exists_register h
    exact hknown name kind hmem
  refine ⟨looksUp_after missing history, fun name kind hasEpsilon hget => ?_,
    pairwise_supportedSolvers, fun key => ?_⟩
  · refine choose_of_get hasEpsilon ?_ hget
    refine Decidable.byContradiction fun hunknown => ?_
    rw [looksUp_after missing history name, shipped?_eq_none hunknown, Option.or_none] at hget
    exact hunknown (hregistered _ (hget ▸ rfl))
  · rw [mem_supportedSolvers]
    exact ⟨.inl, fun h => h.elim id (hregistered key)⟩

/-- A solver registered over a known one, in other letters, after that was looked up. -/
def overridden : List Act := [.get "scip", .register "SCIP" .recording, .available]

theorem overridden_agrees :
    (∀ name kind, Act.register name kind ∈ overridden → Text.lower name ∈ knownNames) ∧
      LooksUp ["z3"] overridden ∧ Chooses ["z3"] overridden ∧ Lists overridden := by
  have hknown : ∀ name kind, Act.register name kind ∈ overridden →
      Text.lower name ∈ knownNames := by
    intro name kind h
    simp only [overridden, List.mem_cons, List.not_mem_nil, reduceCtorEq, Act.register.injEq,
      false_or, or_false] at h
    rw [h.1]
    decide +kernel
  exact ⟨hknown, agrees_after ["z3"] overridden hknown⟩

/-- A solver registered under a name of its own is found, but a model cannot be solved with it and
its name is not listed. -/
theorem own_name_unsupported :
    ¬ Chooses [] [.register "mine" .recording] ∧ ¬ Lists [.register "mine" .recording] := by
  constructor
  · intro h
    have hget : ((after [] [.register "mine" .recording]).get "mine").1 = some .recording := by
      decide +kernel
    have hchosen := h "mine" .recording false hget
    have hrefused : ((after [] [.register "mine" .recording]).choose "mine" false).1 =
        .error (.unknownSolver "mine") := by rfl
    rw [hrefused] at hchosen
    simp at hchosen
  · intro h
    have hlisted := (h.2 "mine").mpr (.inr (by decide +kernel))
    rw [mem_supportedSolvers] at hlisted
    revert hlisted
    decide

end DecisionModel.Registry
