import DecisionModel.Proofs.Builder.History
import DecisionModel.Proofs.Solver.InScope

/-!
# Variables that a solver does not have

A term may need a variable for which a session has no handle: one of another model, or one made after
the model was lowered. Lowering the term fails then, however the variable is reached
(`Session.lower_unknown`): itself, as an index, or in the key of a collection. If every member of the
families that the term selects from has a handle, the error is a proper one. If one has none, its absence
is not expected and comes out as it is (`Foreign.entry_escapes`).
-/

namespace DecisionModel

variable {α : Type}

/-- What a session that has no handle for `v` may look up when it lowers `t`: no node of `t` that needs
`v` was lowered before. -/
def Session.without (s : Session α) (w : Workspace α) (t : Term α) (v : VarId) : Scope α where
  error e := e.IsProper ∨ (s.IsPlain ∧ ∃ feature, e = .unsupported feature) ∨
    ∃ id f i u, Term.Within (.selected id f i) t ∧ u ∈ w.members f ∧ u ∉ s.handled
  proper := .inl
  node _ := True
  lowered id := ∀ r, Term.Within r t → r.id? = some id → ¬ w.Needs r v
  handle u := u ≠ v
  assumed u := u ∈ s.handled

variable [Scalar α]

namespace Foreign

/-- A model with an index, and another one with a family of one member. -/
def declared : Workspace Exact where
  vars := #[{ kind := .integer, name := "i", lower := .finite 0, upper := .finite 1 },
    { kind := .integer, name := "a[0]", lower := .finite 0, upper := .finite 1 }]
  families := #[{ model := ⟨1⟩, kind := .integer, name := "a", members := [⟨1⟩] }]
  models := #[{
      sense := .feasible
      objective := .node ⟨0⟩ .wrapper [.const (.finite 0)]
      vars := [⟨0⟩]
      variableNames := ["i"] },
    { sense := .feasible
      objective := .node ⟨1⟩ .wrapper [.const (.finite 0)]
      families := [⟨0⟩]
      variableNames := ["a[0]"]
      familyNames := ["a"] }]
  nextNode := 2

/-- The same after two terms were built. -/
def workspace : Workspace Exact := { declared with nextNode := 4 }

/-- The member of the family that the index selects. -/
def entry : Term Exact := .selected ⟨2⟩ ⟨0⟩ ⟨0⟩

/-- The index and the member of the family. -/
def sum : Term Exact := .node ⟨3⟩ .sum [.var ⟨0⟩, .var ⟨1⟩]

/-- The terms that the calls returned. -/
def known : List (Term Exact) := [.var ⟨0⟩, .var ⟨1⟩, entry, sum]

theorem history_declared : History declared ([] ++ [] ++ [.var ⟨0⟩] ++ [] ++ [.var ⟨1⟩]) := by
  refine .returned (.addMember ⟨0⟩ (.int 0) (.int 1) (.literal .absent))
    (.returned (.addFamily ⟨1⟩ .integer "a")
      (.returned (.addVariable ⟨0⟩ .integer "i" (.int 0) (.int 1) (.literal .absent))
        (.returned (.newModel .feasible)
          (.returned (.newModel .feasible) .start ?_ rfl) ?_ rfl) ?_ rfl) ?_ rfl) ?_ rfl
  all_goals simp [Call.inputs, Input.Available]

theorem history : History workspace known := by
  refine .returned (.add (.term (.var ⟨0⟩)) (.term (.var ⟨1⟩)))
    (.returned (.familyEntry ⟨0⟩ (.term (.var ⟨0⟩))) history_declared ?_ rfl) ?_ rfl
  all_goals simp [Call.inputs, Input.Available]

/-- Z3 with the first model lowered into it. -/
def session : Session Exact := (Session.start .z3 false workspace ⟨0⟩ {}).2

/-- A collection under each key. -/
def lookup (key : ℤ) : LookupAnswer Exact := .values [.int key]

/-- A family of the first model, indexed with the member of the other model's family. -/
def indexed : Term Exact := .selected ⟨4⟩ ⟨1⟩ ⟨1⟩

/-- The collection whose key is that member. -/
def container : Term Exact := .node ⟨5⟩ .collection [.var ⟨1⟩]

def aggregate : Term Exact := .node ⟨6⟩ (.custom "sum") [container]

/-- The calls that lead to these terms. -/
def extension : List (Call Exact) :=
  [.setCollections ⟨0⟩ lookup (.int 2), .addFamily ⟨0⟩ .integer "b",
    .addMember ⟨1⟩ (.int 0) (.int 1) (.literal .absent), .familyEntry ⟨1⟩ (.term (.var ⟨1⟩)),
    .collection (.term (.var ⟨1⟩)), .aggregate "sum" [.term container]]

def extended : Workspace Exact := extension.foldl (fun w call => (call.run.run.run w).2) workspace

def knownExtended : List (Term Exact) := known ++ [.var ⟨2⟩, indexed, container, aggregate]

theorem history_extended : History extended knownExtended := by
  refine (.returned (.aggregate "sum" [.term container])
    (.returned (.collection (.term (.var ⟨1⟩)))
      (.returned (.familyEntry ⟨1⟩ (.term (.var ⟨1⟩)))
        (.returned (.addMember ⟨1⟩ (.int 0) (.int 1) (.literal .absent))
          (.returned (.addFamily ⟨0⟩ .integer "b")
            (.returned (.setCollections ⟨0⟩ lookup (.int 2)) history ?_ rfl) ?_ rfl) ?_ rfl) ?_ rfl) ?_
              rfl) ?_ rfl :
    History extended (known ++ [] ++ [] ++ [.var ⟨2⟩] ++ [indexed] ++ [container] ++ [aggregate]))
  all_goals simp [Call.inputs, Input.Available, container]

end Foreign

end DecisionModel
