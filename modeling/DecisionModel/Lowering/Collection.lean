import DecisionModel.Lowering.Backend
import DecisionModel.Number.Sum

/-!
# Lowering of collections

A key that is a constant is read while lowering. A key that is a variable, or a selected member,
has a range of possible keys; what is read under each of them becomes an entry of a lookup, so
that the solver chooses the key. A reading at a variable position under a variable key packs key
and position into one index of a flat table.
-/

namespace DecisionModel

/-- An operand together with its lowering, which is run only when it is asked for. -/
structure Operand (α ν σ : Type) where
  term : Term α
  lower : LowerM α ν σ (Handle ν)

namespace Operand

variable {α ν σ : Type}

/-- The operand at a position, or the fault that there is none. -/
def nth (operands : List (Operand α ν σ)) (position : Nat) : LowerM α ν σ (Operand α ν σ) :=
  match operands[position]? with
  | some o => return o
  | none => .fail (.fault .missingOperand)

/-- Lowers the operand at a position. -/
def lowerNth (operands : List (Operand α ν σ)) (position : Nat) : LowerM α ν σ (Handle ν) := do
  (← nth operands position).lower

/-- The only operand, if it is a reference to a collection. -/
def soleCollection? : List (Operand α ν σ) → Option (Term α)
  | [o] => if o.term.isCollection then some o.term else none
  | _ => none

end Operand

namespace Backend

variable {α ν σ : Type} [Scalar α] [Numeral ν]

/-- The handle of a variable of the model. -/
def variableHandle (c : Context α) (v : VarId) : LowerM α ν σ (Handle ν) := do
  match ((← get).handles.find? (·.1 = v)).map (·.2) with
  | some h => return h
  | none => .fail (.unknownVariable (c.workspace.variableName v))

/-- The handle of a variable that the walk takes for granted. -/
def assumedHandle (c : Context α) (v : VarId) : LowerM α ν σ (Handle ν) := do
  match ((← get).handles.find? (·.1 = v)).map (·.2) with
  | some h => return h
  | none => .fail (.missingHandle (← .lift (c.workspace.variableDescription v)))

/-- Runs a lowering once for each identity; the handle is kept for the next time. -/
def memoized (id : NodeId) (run : LowerM α ν σ (Handle ν)) : LowerM α ν σ (Handle ν) := do
  match ((← get).memo.find? (·.1 = id)).map (·.2) with
  | some h => return h
  | none =>
    let h ← run
    modify fun s => { s with memo := (id, h) :: s.memo }
    return h

/-- The member of a family at the position that a variable gives, counted from zero. -/
def lowerSelected (B : Backend α ν σ) (c : Context α) (family : FamilyId) (index : VarId) :
    LowerM α ν σ (Handle ν) := do
  let members ← (c.workspace.members family).mapM (assumedHandle c)
  if members.isEmpty then .fail (.emptyFamily (c.workspace.selectedName family index))
  let index ← variableHandle c index
  B.element index (members.mapIdx fun i h => ((i : Int), h))

/-- An unbounded side of a key counts as this far away. -/
def farAway : Int := Nat.pow 10 18

/-- The least integer from a lower bound on. -/
def leastKey (x : α) : Except Fault Int :=
  if (Scalar.exact x).eq .negInf then .ok (-farAway) else (Scalar.exact x).ceil

/-- The greatest integer up to an upper bound. -/
def greatestKey (x : α) : Except Fault Int :=
  if (Scalar.exact x).eq .posInf then .ok farAway else (Scalar.exact x).floor

/-- The integers from `first` to `last`. -/
def keyRange (first last : Int) : List Int :=
  (List.range (last - first + 1).toNat).map fun (i : Nat) => first + (i : Int)

/-- The first and the last key of the model within the bounds of a key. -/
def keysWithin (c : Context α) (key : Term α) (lower upper : α) : LowerM α ν σ (Int × Int) := do
  let lower ← LowerM.lift (leastKey lower)
  let first := max 0 lower
  let upper ← LowerM.lift (greatestKey upper)
  let last := min ((c.keyCount : Int) - 1) upper
  if last < first then
    .fail (.emptyKeyDomain (← .lift (c.workspace.operandText key)) c.keyCount)
  return (first, last)

/-- The first and the last key that a variable can take. -/
def variableKeys (c : Context α) (v : VarId) : LowerM α ν σ (Int × Int) :=
  match c.workspace.findVariable v with
  | some d => keysWithin c (.var v) d.lower d.upper
  | none => .fail (.unknownVariable (c.workspace.variableName v))

/-- The first and the last key that a member of a family can take. -/
def selectedKeys (c : Context α) (id : NodeId) (family : FamilyId) (index : VarId) :
    LowerM α ν σ (Int × Int) :=
  match (c.workspace.members family).filterMap c.workspace.findVariable with
  | [] => .fail (.emptyFamily (c.workspace.selectedName family index))
  | d :: ds =>
    keysWithin c (.selected id family index) (Scalar.least d.lower (ds.map (·.lower)))
      (Scalar.greatest d.upper (ds.map (·.upper)))

/-- The one solver variable behind a key, and the keys it can take: a contiguous range of those
that the model has. A selected member gets a new variable over that range. -/
def keyDomain (B : Backend α ν σ) (c : Context α) (key : Term α) :
    LowerM α ν σ (Handle ν × List Int) := do
  if !c.hasLookup then .fail (.noLookup (← .lift (c.workspace.operandText key)))
  match key.unwrapped with
  | .var v =>
    let (first, last) ← variableKeys c v
    return (← variableHandle c v, keyRange first last)
  | .selected id family index =>
    let (first, last) ← selectedKeys c id family index
    let handle ← B.newInteger first last "key"
    let value ← memoized id (lowerSelected B c family index)
    B.postEqual handle value
    return (handle, keyRange first last)
  | t => .fail (.irreducibleKey (← .lift (c.workspace.operandText t)))

/-- The key of a container, which is its first operand. The first operand of a named operator is
the position of its name, which is no key; that is noticed when the key is used. -/
def keyOf (c : Context α) : Term α → LowerM α ν σ (Except Fault (Term α))
  | .node _ (.custom name) _ =>
    return .error (.operatorPosition ((c.workspace.operatorIndex? name).getD 0))
  | .node _ _ (key :: _) => return .ok key
  | .node _ _ [] => .fail (.fault .missingOperand)
  | t => .fail (.fault (.lacks t.kindName "operands"))

/-- The integer that a constant key stands for. -/
def constantKey (x : α) : LowerM α ν σ Int := .lift (Scalar.exact x).round

/-- The value of an aggregate over a collection. -/
def aggregateValue (name : String) (xs : List α) (key : Int) : LowerM α ν σ α :=
  match name, xs with
  | "count", xs => return Scalar.ofInt xs.length
  | "sum", xs => .lift (Scalar.sum xs)
  | _, [] => .fail (.emptyAggregate name key)
  | "avg", xs => do return Scalar.div (← .lift (Scalar.sum xs)) (Scalar.ofInt xs.length)
  | "min", x :: xs => return Scalar.least x xs
  | _, x :: xs => return Scalar.greatest x xs

/-- An aggregate over one collection. -/
def lowerAggregate (B : Backend α ν σ) (c : Context α) (name : String) (container : Term α) :
    LowerM α ν σ (Handle ν) := do
  match ← LowerM.lift (← keyOf c container) with
  | .const x =>
    let key ← constantKey x
    let xs ← c.collection key
    B.constant (← aggregateValue name xs key)
  | key =>
    let (handle, keys) ← keyDomain B c key
    let entries ← keys.mapM fun k => do
      let xs ← c.collection k
      return (k, ← B.constant (← aggregateValue name xs k))
    LowerM.log c.config 3 (.ok ("Precomputed " ++ name ++ "() over keys " ++
      toString (keys.headD 0) ++ ".." ++ toString (keys.getLastD 0)))
    B.element handle entries

/-- Membership of a term in the collection under one of several keys: one test for each key. -/
def membershipByKey (B : Backend α ν σ) (c : Context α) (key : Handle ν) (keys : List Int)
    (value : LowerM α ν σ (Handle ν)) : LowerM α ν σ (Handle ν) := do
  let value ← value
  let entries ← keys.mapM fun k => do
    let xs ← c.collection k
    let members ← xs.mapM B.constant?
    return (k, ← B.membership value members)
  B.element key entries

/-- Membership in one collection, as a handle that is one or zero. -/
def lowerMembership (B : Backend α ν σ) (c : Context α) (value : Operand α ν σ)
    (container : Term α) : LowerM α ν σ (Handle ν) := do
  match ← LowerM.lift (← keyOf c container) with
  | .const x =>
    let xs ← c.collection (← constantKey x)
    match value.term with
    | .const y => B.constant (Scalar.ofBool (Scalar.isMember y xs))
    | _ =>
      let value ← value.lower
      B.membership value (← xs.mapM B.constant?)
  | key =>
    let (handle, keys) ← keyDomain B c key
    match value.term, value.term.unwrapped with
    | .const y, _ =>
      let entries ← keys.mapM fun k => do
        let xs ← c.collection k
        return (k, ← B.constant (Scalar.ofBool (Scalar.isMember y xs)))
      B.element handle entries
    | _, .var v =>
      match B.keyedMembership? c handle keys v with
      | some encode => encode
      | none => membershipByKey B c handle keys value.lower
    | _, _ => membershipByKey B c handle keys value.lower

/-- The entries of a list of tables laid out in rows of one width. -/
def flatEntries {β : Type} (width : Nat) (tables : List (List β)) : List (Int × β) :=
  (tables.mapIdx fun row table =>
    table.mapIdx fun column x => (((row * width + column : Nat) : Int), x)).flatten

/-- The handle of a position from one to `width`: a number in this range, or a new integer that has
to equal the position. -/
def columnOf (B : Backend α ν σ) (width : Nat) (index : Handle ν) : LowerM α ν σ (Handle ν) := do
  match index.number? with
  | none =>
    let column ← B.newInteger 1 width "at_column"
    B.postEqual column index
    return column
  | some x =>
    let position ← LowerM.lift (Numeral.round x)
    if position < 1 ∨ (width : Int) < position then .fail (.outOfRange position 1 width)
    return index

/-- A new integer for the place of an entry in a flat table with one row for each of `count` keys. -/
def flatIndex (B : Backend α ν σ) (count width : Nat) (firstKey : Int) (key column : Handle ν) :
    LowerM α ν σ (Handle ν) := do
  let flat ← B.newInteger 0 (((count * width : Nat) : Int) - 1) "at_index"
  let row ← LowerM.sub key (.const (Numeral.ofInt firstKey))
  let start ← LowerM.mul row (.const (Numeral.ofInt width))
  let position ← LowerM.sub (← LowerM.add start column) (.const (Numeral.ofInt 1))
  B.postEqual flat position
  return flat

/-- One entry of the collection under one of several keys. -/
def entryByKey (B : Backend α ν σ) (c : Context α) (key : Handle ν) (keys : List Int)
    (index : Handle ν) : LowerM α ν σ (Handle ν) := do
  let tables ← keys.mapM c.collection
  let width : Nat := (tables.map List.length).foldl max 0
  let firstKey := keys.headD 0
  if width = 0 then .fail (.emptyCollections firstKey (keys.getLastD 0))
  let column ← columnOf B width index
  let flat ← flatIndex B keys.length width firstKey key column
  let tables ← tables.mapM fun table => table.mapM B.constant
  B.lookup flat (flatEntries width tables)

/-- One entry of a collection, counted from one. -/
def lowerEntry (B : Backend α ν σ) (c : Context α) (container : Term α)
    (index : LowerM α ν σ (Handle ν)) : LowerM α ν σ (Handle ν) := do
  let key ← keyOf c container
  let index ← index
  match ← LowerM.lift key with
  | .const x =>
    let key ← constantKey x
    let xs ← c.collection key
    if xs.isEmpty then .fail (.emptyCollection key)
    let handles ← xs.mapM B.constant
    B.element index (handles.mapIdx fun i h => ((i : Int) + 1, h))
  | key =>
    let (handle, keys) ← keyDomain B c key
    entryByKey B c handle keys index

end Backend

end DecisionModel
