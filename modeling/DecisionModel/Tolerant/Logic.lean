import DecisionModel.Tolerant.Basic

/-!
# Tolerant lowering: truth

A comparison becomes a binary variable by two gated ranges, one for either value. A number counts
as true from the second threshold on and as false up to the first; between the two there is no
truth value. Connectives multiply and add binary variables.
-/

namespace DecisionModel.Tolerant

variable {α σ : Type} [Scalar α]

/-- Posts a comparison that has to hold. -/
def postComparison (P : Primitives α σ) (c : Comparison) (lhs rhs : Handle (Number α)) :
    TolerantM α σ Unit := do
  let eps ← epsilon
  let delta ← LowerM.sub lhs rhs
  match c with
  | .le => constrain P delta noLower eps
  | .lt => constrain P delta noLower (← negatedThreshold)
  | .ge => constrain P delta eps.neg noUpper
  | .gt => constrain P delta (← threshold) noUpper
  | .eq => constrain P delta eps.neg eps
  | .ne => constrain P (← P.absolute delta) (← threshold) noUpper

/-- Requires a gated handle to be non-negative. -/
def requireGated (P : Primitives α σ) (b h : Handle (Number α)) : TolerantM α σ Unit := do
  constrain P (← gated P b h) realZero noUpper

/-- A binary variable that is one if the comparison holds and zero if its negation does. -/
def reify (P : Primitives α σ) (c : Comparison) (lhs rhs : Handle (Number α)) :
    TolerantM α σ (Handle (Number α)) := do
  let eps : Handle (Number α) := .const (← epsilon)
  let above : Handle (Number α) := .const (← threshold)
  let below : Handle (Number α) := .const (← negatedThreshold)
  let delta ← LowerM.sub lhs rhs
  let b ← newBinary P "cmp"
  let notB ← LowerM.sub (integer 1) b
  match c with
  | .ge =>
    requireGated P b (← LowerM.add delta eps)
    requireGated P notB (← LowerM.sub below delta)
  | .le =>
    requireGated P b (← LowerM.sub eps delta)
    requireGated P notB (← LowerM.sub delta above)
  | .gt =>
    requireGated P b (← LowerM.sub delta above)
    requireGated P notB (← LowerM.sub eps delta)
  | .lt =>
    requireGated P b (← LowerM.sub below delta)
    requireGated P notB (← LowerM.add delta eps)
  | .eq =>
    requireGated P b (← LowerM.sub eps delta)
    requireGated P b (← LowerM.add eps delta)
    requireGated P notB (← LowerM.sub (← P.absolute delta) above)
  | .ne =>
    let magnitude ← P.absolute delta
    requireGated P b (← LowerM.sub magnitude above)
    requireGated P notB (← LowerM.sub eps magnitude)
  return b

/-- The truth value of a term as a new binary variable. -/
def newTruth (P : Primitives α σ) (h : Handle (Number α)) : TolerantM α σ (Handle (Number α)) := do
  let eps : Handle (Number α) := .const (← epsilon)
  let above : Handle (Number α) := .const (← threshold)
  let b ← newBinary P "bool"
  let magnitude ← P.absolute h
  constrain P (← LowerM.sub magnitude (← LowerM.mul above b)) realZero noUpper
  let notB ← LowerM.sub (integer 1) b
  constrain P (← gated P notB (← LowerM.sub magnitude eps)) noLower realZero
  return b

/-- The truth value of a handle: folded for a number, the handle itself if it is known to be zero
or one, else a binary variable, one for each handle. -/
def truth (P : Primitives α σ) (h : Handle (Number α)) : TolerantM α σ (Handle (Number α)) := do
  match h.number?, h.id? with
  | some x, _ => return if x.isZero then zero else one
  | none, none => return h
  | none, some id =>
    let e ← getEncoding
    if e.binaries.contains id then return h
    match (e.booleans.find? (·.1 = id)).map (·.2) with
    | some b => return b
    | none =>
      let b ← newTruth P h
      modifyEncoding fun e => { e with booleans := (id, b) :: e.booleans }
      return b

/-- The complement of a truth value. -/
def complement (P : Primitives α σ) (h : Handle (Number α)) :
    TolerantM α σ (Handle (Number α)) := do
  let b ← truth P h
  match b.number? with
  | some x => return .const (realOne.sub x)
  | none => markBinary (← LowerM.sub (integer 1) b)

/-- The product of truth values, starting from `result`; a zero ends it. -/
def conjoinFrom (P : Primitives α σ) (result : Handle (Number α)) :
    List (Handle (Number α)) → TolerantM α σ (Handle (Number α))
  | [] => markBinary result
  | h :: hs => do
    let b ← truth P h
    let result ← gated P result b
    if result.number?.any Number.isZero then return zero
    conjoinFrom P result hs

def conjoin (P : Primitives α σ) (hs : List (Handle (Number α))) :
    TolerantM α σ (Handle (Number α)) := conjoinFrom P one hs

/-- The truth values that are terms, or nothing if one of the handles is true. -/
def openTruths (P : Primitives α σ) :
    List (Handle (Number α)) → TolerantM α σ (Option (List (Handle (Number α))))
  | [] => return some []
  | h :: hs => do
    let b ← truth P h
    match b.number? with
    | some x => if x.isZero then openTruths P hs else return none
    | none => return (← openTruths P hs).map (b :: ·)

/-- The truth value of a sum of truth values. -/
def disjoin (P : Primitives α σ) (hs : List (Handle (Number α))) :
    TolerantM α σ (Handle (Number α)) := do
  match ← openTruths P hs with
  | none => return one
  | some [] => return zero
  | some [b] => return b
  | some bs => truth P (← P.total bs)

/-- Whether a handle equals one of several, as a disjunction of equalities. -/
def membership (P : Primitives α σ) (value : Handle (Number α))
    (values : List (Option (Handle (Number α)))) : TolerantM α σ (Handle (Number α)) := do
  let tests ← (values.filterMap id).mapM fun candidate =>
    match value.number?, candidate.number? with
    | some x, some y => return if Numeral.holds .eq x y then one else zero
    | _, _ => reify P .eq value candidate
  disjoin P tests

end DecisionModel.Tolerant
