import DecisionModel.Workspace.Basic

/-!
# External collections

A model may read collections of numbers from a source outside it, by integer keys from zero to
below a given count. `Workspace.collection` asks the source and says why there is no answer. The
numbers come as they were written; they are converted each time a collection is read.
-/

namespace DecisionModel

/-- Why no collection can be read. -/
inductive CollectionProblem where
  | noLookup
  /-- The key is not an integer from zero to below `count`. -/
  | badKey (count : Nat)
  | failed (text : String)
  | missing
deriving DecidableEq, Repr

/-- A failed reading, with the text of its key. -/
structure CollectionError where
  key : String
  problem : CollectionProblem
deriving DecidableEq, Repr

def CollectionProblem.message : CollectionProblem → String
  | noLookup => "no collection lookup is set"
  | badKey count => "key must be an integer in [0, " ++ toString count ++ ")"
  | failed text => "lookup failed: " ++ text
  | missing => "lookup failed"

def CollectionError.message (e : CollectionError) : String :=
  "collection key " ++ e.key ++ ": " ++ e.problem.message

namespace Workspace

variable {α : Type} [Scalar α]

/-- A key that is an integral scalar counts as the integer. -/
def integralKey : Literal α → Literal α
  | .real x => if Scalar.isInteger x then
      match (Scalar.exact x).truncate with
      | .ok n => .int n
      | .error _ => .real x
    else .real x
  | key => key

/-- The integer that a key is; a truth value counts as one or zero. -/
def keyPosition? : Literal α → Option Int
  | .int n => some n
  | .truth b => some (if b then 1 else 0)
  | _ => none

/-- The numbers that a model's source gives for a key, as they are written. -/
def literalsAt (w : Workspace α) (m : ModelId) (key : Literal α) :
    Except CollectionError (List (Literal α)) :=
  match (w.findModel m).bind (·.lookup) with
  | none => .error ⟨key.text, .noLookup⟩
  | some lookup =>
    let key := integralKey key
    let count : Nat := ((w.findModel m).map (·.keyCount)).getD 0
    match keyPosition? key with
    | none => .error ⟨key.text, .badKey count⟩
    | some n =>
      if 0 ≤ n ∧ n < (count : Int) then
        match lookup n with
        | .values xs => .ok xs
        | .nothing => .error ⟨key.text, .missing⟩
        | .failure text => .error ⟨key.text, .failed text⟩
      else .error ⟨key.text, .badKey count⟩

/-- The collection of a model under a key as it is written. It cannot be read if the source has
none, and a fault prevents it if one of its numbers is beyond the range of scalars. -/
def collectionAt (w : Workspace α) (m : ModelId) (key : Literal α) :
    Except CollectionError (Except Fault (List α)) :=
  (w.literalsAt m key).map fun xs => xs.mapM Literal.toScalar

/-- The collection of a model under an integer key. -/
def collection (w : Workspace α) (m : ModelId) (key : Int) :
    Except CollectionError (Except Fault (List α)) :=
  w.collectionAt m (.int key)

end Workspace

end DecisionModel
