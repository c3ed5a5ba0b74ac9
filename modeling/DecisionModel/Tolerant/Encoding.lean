import DecisionModel.Tolerant.Logic

/-!
# Tolerant lowering: selection

Extrema, conditionals, lookups, sequences and membership tables. Where one of several handles is
chosen, each gets a binary selector, exactly one of which is one.
-/

namespace DecisionModel.Tolerant

variable {α σ : Type} [Scalar α]

def divide (P : Primitives α σ) (x y : Handle (Number α)) : TolerantM α σ (Handle (Number α)) := do
  match x.number?, y.number? with
  | _, none => P.quotient x y
  | number, some b =>
    if b.isZero then .fail .divisionByZero
    match number with
    | some a => return scalar (Scalar.div a.toScalar b.toScalar)
    | none => LowerM.mul x (scalar (Scalar.div Scalar.one b.toScalar))

def power (P : Primitives α σ) (x y : Handle (Number α)) : TolerantM α σ (Handle (Number α)) := do
  match x.number?, y.number? with
  | _, none => .fail (.variableExponent P.name)
  | some a, some b =>
    match Scalar.power a.toScalar b.toScalar with
    | .ok z => return scalar z
    | .error _ => .fail (.noPower a b)
  | none, some b =>
    if b.isZero then return one
    else if Numeral.holds .eq b (.int 1) then return x
    else P.power x b.toScalar

def absolute (P : Primitives α σ) (x : Handle (Number α)) : TolerantM α σ (Handle (Number α)) :=
  match x.number? with
  | some a => return scalar (Scalar.abs a.toScalar)
  | none => P.absolute x

/-- The sum of selectors has to be one. -/
def requireOne (P : Primitives α σ) (selectors : List (Handle (Number α))) :
    TolerantM α σ Unit := do
  constrain P (← P.total selectors) realOne realOne

/-- Whether the least or the greatest of several handles is meant. -/
inductive Extremum where
  | least
  | greatest
deriving DecidableEq, Repr

/-- A variable that no argument undercuts, or exceeds, and that the selected one equals. -/
def newExtremum (P : Primitives α σ) (e : Extremum) (hs : List (Handle (Number α))) :
    TolerantM α σ (Handle (Number α)) := do
  let (hint, selectorHint) := match e with
    | .least => ("min", "argmin")
    | .greatest => ("max", "argmax")
  let name ← LowerM.auxiliaryName hint
  let result ← createVariable P .continuous Scalar.negInf Scalar.posInf name
  let selectors ← hs.mapM fun _ => newBinary P selectorHint
  requireOne P selectors
  (hs.zip selectors).forM fun (h, selector) => do
    let gap ← match e with
      | .least => LowerM.sub h result
      | .greatest => LowerM.sub result h
    constrain P gap realZero noUpper
    constrain P (← gated P selector gap) noLower realZero
  return result

/-- The least or the greatest of several handles, folded if all are numbers. -/
def extremum (P : Primitives α σ) (e : Extremum) (hs : List (Handle (Number α))) :
    TolerantM α σ (Handle (Number α)) := do
  match hs.mapM Handle.number? with
  | some (x :: xs) =>
    let x := x.toScalar
    let xs := xs.map Number.toScalar
    return scalar (match e with
      | .least => Scalar.least x xs
      | .greatest => Scalar.greatest x xs)
  | some [] => .fail (.fault (match e with
    | .least => .leastOfNone
    | .greatest => .greatestOfNone))
  | none => newExtremum P e hs

def conditional (P : Primitives α σ) (c t e : Handle (Number α)) :
    TolerantM α σ (Handle (Number α)) := do
  let c ← truth P c
  match c.number? with
  | some x => return if x.isZero then e else t
  | none =>
    let chosen ← gated P c t
    let notC ← LowerM.sub (integer 1) c
    LowerM.add chosen (← gated P notC e)

/-- The gated values of the pairs and the factor that no condition so far holds. -/
def gatePairs (P : Primitives α σ) (pending : Handle (Number α)) :
    List (Handle (Number α) × Handle (Number α)) →
      TolerantM α σ (List (Handle (Number α)) × Handle (Number α))
  | [] => return ([], pending)
  | (condition, value) :: rest => do
    let c ← truth P condition
    let term ← gated P (← gated P pending c) value
    let notC ← match c.number? with
      | some x => pure (.const (realOne.sub x))
      | none => LowerM.sub (integer 1) c
    let pending ← gated P pending notC
    let (terms, pending) ← gatePairs P pending rest
    return (term :: terms, pending)

/-- First match as a sum in which each value is gated by its own condition and the complements of
the earlier ones; terms that folded to zero are left out. -/
def firstMatch (P : Primitives α σ) (conditions values : List (Handle (Number α)))
    (otherwise : Handle (Number α)) : TolerantM α σ (Handle (Number α)) := do
  let (terms, pending) ← gatePairs P one (conditions.zip values)
  let terms := terms ++ [← gated P pending otherwise]
  P.total (terms.filter fun t => !t.number?.any Number.isZero)

/-- The value whose position equals the index: exactly one selector is one, and the index is the
position of it. -/
def lookup (P : Primitives α σ) (index : Handle (Number α))
    (entries : List (Int × Handle (Number α))) : TolerantM α σ (Handle (Number α)) := do
  let selectors ← entries.mapM fun _ => newBinary P "select"
  requireOne P selectors
  let pairs := entries.zip selectors
  let positions ← (pairs.filter (·.1.1 ≠ 0)).mapM fun (e, s) => LowerM.mul (integer e.1) s
  let chosen ← P.total positions
  constrain P (← LowerM.sub index chosen) realZero realZero
  let terms ← pairs.mapM fun (e, s) => gated P s e.2
  P.total terms

/-- The rows of a table that tells for each key and each candidate whether the candidate is in the
collection under the key. -/
def membershipEntries (c : Context α) (low : Int) (width : Nat) (keys : List Int) :
    TolerantM α σ (List (Int × Handle (Number α))) := do
  let rows ← (keys.mapIdx Prod.mk).mapM fun (row, k) => do
    let xs ← c.collection k
    return (List.range width).map fun column =>
      (((row * width + column : Nat) : Int),
        scalar (Scalar.ofBool
          (xs.any fun x => (Scalar.exact x).eq (.finite (low + column : Int)))))
  return rows.flatten

/-- Membership of a bounded integer variable in the collection under one of several keys: key and
value are packed into the index of one table of zeros and ones. -/
def tabulatedMembership (P : Primitives α σ) (c : Context α) (key : Handle (Number α))
    (keys : List Int) (v : VarId) (low high : Int) : TolerantM α σ (Handle (Number α)) := do
  let width := high - low + 1
  let flat ← newInteger P 0 (keys.length * width - 1) "member_index"
  let row ← LowerM.sub key (integer (keys.headD 0))
  let start ← LowerM.mul row (integer width)
  let value ← Backend.variableHandle c v
  let position ← LowerM.sub (← LowerM.add start value) (integer low)
  constrain P (← LowerM.sub flat position) realZero realZero
  let entries ← membershipEntries c low width.toNat keys
  let result ← lookup P flat entries
  markBinary result

/-- The tabulated encoding, for variables that are not real and have finite bounds. -/
def keyedMembership? (P : Primitives α σ) (c : Context α) (key : Handle (Number α))
    (keys : List Int) (v : VarId) : Option (TolerantM α σ (Handle (Number α))) :=
  match c.workspace.findVariable v with
  | none => none
  | some d =>
    if d.kind = .real then none
    else
      match (Scalar.exact d.lower).ceil, (Scalar.exact d.upper).floor with
      | .ok low, .ok high => some (tabulatedMembership P c key keys v low high)
      | _, _ => none

/-- The members of a sequence, tied to a square of binary variables with a single one in each row
and each column; the column of a row's one is the value of its member. -/
def createSequence (P : Primitives α σ) (name : String) (members : List String) :
    TolerantM α σ (List (Handle (Number α))) := do
  let n := members.length
  let handles ← members.mapM fun member =>
    createVariable P .integer Scalar.one (Scalar.ofInt n) member
  let matrix ← (List.range n).mapM fun i => (List.range n).mapM fun column =>
    newBinary P (name ++ "_" ++ toString i ++ "_" ++ toString (column + 1))
  (handles.zip (matrix.mapIdx Prod.mk)).forM fun (h, i, row) => do
    requireOne P row
    requireOne P (matrix.filterMap (·[i]?))
    let weighted ← (row.mapIdx Prod.mk).mapM fun (column, b) =>
      LowerM.mul (integer (column + 1)) b
    let channel ← P.total weighted
    constrain P (← LowerM.sub h channel) realZero realZero
  return handles

def postEqual (P : Primitives α σ) (lhs rhs : Handle (Number α)) : TolerantM α σ Unit := do
  constrain P (← LowerM.sub lhs rhs) realZero realZero

/-- A handle that has to be true has to reach one, up to the tolerance. -/
def postTrue (P : Primitives α σ) (h : Handle (Number α)) : TolerantM α σ Unit := do
  constrain P h (realOne.sub (← epsilon)) noUpper

/-- The objective gets a variable of its own. -/
def postObjective (P : Primitives α σ) (sense : Sense) (h : Handle (Number α)) :
    TolerantM α σ Unit := do
  let objective ← createVariable P .continuous Scalar.negInf Scalar.posInf "objective"
  constrain P (← LowerM.sub objective h) realZero realZero
  modifyEncoding fun e => { e with objective := some objective }
  P.setObjective objective sense

/-- The back-end of an algebraic solver. -/
def backend (P : Primitives α σ) : Backend α (Number α) (Encoding α σ) where
  name := P.name
  constant x := return scalar x
  constant? x := return some (scalar x)
  negate := LowerM.neg
  add := LowerM.add
  subtract := LowerM.sub
  multiply := LowerM.mul
  divide := divide P
  power := power P
  absolute := absolute P
  minimum := extremum P .least
  maximum := extremum P .greatest
  reify := reify P
  complement := complement P
  conjoin := conjoin P
  disjoin := disjoin P
  conditional := conditional P
  firstMatch := firstMatch P
  membership := membership P
  lookup := lookup P
  keyedMembership? := keyedMembership? P
  createVariable v := createVariable P (Kind.ofVariable v.kind) v.lower v.upper v.name
  createSequence := createSequence P
  newInteger := newInteger P
  postEqual := postEqual P
  postComparison := postComparison P
  postTrue := postTrue P
  postDefinition _ x h := postEqual P x h
  postObjective := postObjective P

/-- Fixes the tolerance, lowers the model and reports the sizes. -/
def lowerModel (P : Primitives α σ) (c : Context α) : TolerantM α σ Unit := do
  let eps ← match c.config.epsilon with
    | some x => pure x
    | none => P.tolerance
  modifyEncoding fun e => { e with epsilon := eps }
  LowerM.log c.config 2 (("Using epsilon = " ++ Scalar.briefText ·) <$> eps.toScalar?)
  Backend.lowerModel (backend P) c
  let e ← getEncoding
  LowerM.log c.config 1 (.ok (P.name ++ ": " ++ toString e.created.size ++ " variables, " ++
    toString e.posted.size ++ " constraints"))

end DecisionModel.Tolerant
