import DecisionModel.Lowering.Basic

/-!
# Back-ends

A `Backend` is what the walk over a model needs of a solver: how constants, arithmetic, logic,
conditionals and lookups become handles, and how variables and constraints are created. Its
`plain` instance folds and builds arithmetic and refuses everything else.
-/

namespace DecisionModel

/-- The encoding of the modelling language for one solver. -/
structure Backend (α ν σ : Type) where
  name : String
  constant : α → LowerM α ν σ (Handle ν)
  /-- A member of a collection; none if no value of the solver can equal it. -/
  constant? : α → LowerM α ν σ (Option (Handle ν))
  negate : Handle ν → LowerM α ν σ (Handle ν)
  add : Handle ν → Handle ν → LowerM α ν σ (Handle ν)
  subtract : Handle ν → Handle ν → LowerM α ν σ (Handle ν)
  multiply : Handle ν → Handle ν → LowerM α ν σ (Handle ν)
  divide : Handle ν → Handle ν → LowerM α ν σ (Handle ν)
  power : Handle ν → Handle ν → LowerM α ν σ (Handle ν)
  absolute : Handle ν → LowerM α ν σ (Handle ν)
  minimum : List (Handle ν) → LowerM α ν σ (Handle ν)
  maximum : List (Handle ν) → LowerM α ν σ (Handle ν)
  /-- A handle that is one if the comparison holds and zero if not. -/
  reify : Comparison → Handle ν → Handle ν → LowerM α ν σ (Handle ν)
  complement : Handle ν → LowerM α ν σ (Handle ν)
  conjoin : List (Handle ν) → LowerM α ν σ (Handle ν)
  disjoin : List (Handle ν) → LowerM α ν σ (Handle ν)
  conditional : Handle ν → Handle ν → Handle ν → LowerM α ν σ (Handle ν)
  /-- The value beside the first true condition, or the last argument. -/
  firstMatch : List (Handle ν) → List (Handle ν) → Handle ν → LowerM α ν σ (Handle ν)
  /-- Whether the first argument is among the others. -/
  membership : Handle ν → List (Option (Handle ν)) → LowerM α ν σ (Handle ν)
  /-- The value at the position that a term gives. -/
  lookup : Handle ν → List (Int × Handle ν) → LowerM α ν σ (Handle ν)
  /-- An encoding of its own for the membership of a variable in the collection under one of the
  given keys, if there is one for this variable. -/
  keyedMembership? : Context α → Handle ν → List Int → VarId →
    Option (LowerM α ν σ (Handle ν))
  createVariable : Variable α → LowerM α ν σ (Handle ν)
  /-- The handles of the members of a sequence, which is given by its name and theirs. -/
  createSequence : String → List String → LowerM α ν σ (List (Handle ν))
  newInteger : Int → Int → String → LowerM α ν σ (Handle ν)
  postEqual : Handle ν → Handle ν → LowerM α ν σ Unit
  postComparison : Comparison → Handle ν → Handle ν → LowerM α ν σ Unit
  postTrue : Handle ν → LowerM α ν σ Unit
  /-- Ties the handle of a defined variable, given with its name, to that of its definition. -/
  postDefinition : String → Handle ν → Handle ν → LowerM α ν σ Unit
  postObjective : Sense → Handle ν → LowerM α ν σ Unit

namespace Backend

variable {α ν σ : Type}

def unsupported {β : Type} (feature : String) : LowerM α ν σ β := .fail (.unsupported feature)

/-- First match as nested conditionals, the last pair innermost. -/
def nestedConditionals (ite : Handle ν → Handle ν → Handle ν → LowerM α ν σ (Handle ν))
    (conditions values : List (Handle ν)) (otherwise : Handle ν) : LowerM α ν σ (Handle ν) :=
  (conditions.zip values).reverse.foldlM (fun result (c, v) => ite c v result) otherwise

/-- The handle of the value whose position is the index. A number is rounded to a position. -/
def element [Numeral ν] (B : Backend α ν σ) (index : Handle ν) (entries : List (Int × Handle ν)) :
    LowerM α ν σ (Handle ν) := do
  match index.number? with
  | some x =>
    let position ← LowerM.lift (Numeral.round x)
    match (entries.find? (·.1 = position)).map (·.2) with
    | some h => return h
    | none =>
      match entries.head?, entries.getLast? with
      | some first, some last => .fail (.outOfRange position first.1 last.1)
      | _, _ => .fail (.fault .missingOperand)
  | none => B.lookup index entries

end Backend

end DecisionModel
