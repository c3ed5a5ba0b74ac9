import DecisionModel.Number.Scalar

/-!
# Sums that round once

`Scalar.sum` gives the scalar nearest to the exact total of its summands. What has been added so far
is kept as a list of parts whose exact total is that of the summands: a summand is added to one part
after the other, each addition leaving a rounded sum, which goes on, and what the rounding lost,
which stays behind. If such a rounded sum of finite numbers is no longer finite, the sum fails.

Infinities and missing numbers among the summands decide the result on their own, except that
infinities of both signs have no sum; after such a summand the parts are empty again.
-/

namespace DecisionModel

/-- What has been added so far: the parts of the total, in order of their size, and which infinite
or missing summands occurred. -/
structure RunningSum (α : Type) where
  parts : List α := []
  sawNan : Bool := false
  sawPosInf : Bool := false
  sawNegInf : Bool := false
deriving Repr

namespace RunningSum

variable {α : Type} [Scalar α]

/-- The rounded sum of two numbers, and what the rounding lost. -/
def addExactly (x y : α) : α × α :=
  let (large, small) := if Scalar.lt (Scalar.abs x) (Scalar.abs y) then (y, x) else (x, y)
  let high := Scalar.add large small
  (high, Scalar.sub small (Scalar.sub high large))

/-- Adds a number to the parts from the smallest on: the parts that stay behind, and the rounded sum
that is left over. -/
def absorb (x : α) : List α → List α × α
  | [] => ([], x)
  | part :: rest =>
    let (high, low) := addExactly x part
    let (behind, total) := absorb high rest
    (if Scalar.isZero low then behind else low :: behind, total)

/-- Adds one summand. -/
def step (s : RunningSum α) (x : α) : Except Fault (RunningSum α) :=
  match Scalar.exact x with
  | .nan => .ok { s with parts := [], sawNan := true }
  | .posInf => .ok { s with parts := [], sawPosInf := true }
  | .negInf => .ok { s with parts := [], sawNegInf := true }
  | .finite _ =>
    let (behind, total) := absorb x s.parts
    if !Scalar.isFinite total then .error .sumOverflow
    else .ok { s with parts := if Scalar.isZero total then behind else behind ++ [total] }

/-- The exact total of the parts. -/
def total (s : RunningSum α) : Exact :=
  s.parts.foldr (fun x t => (Scalar.exact x).add t) (.finite 0)

/-- The sum of what was added. -/
def result (s : RunningSum α) : Except Fault α :=
  if s.sawPosInf && s.sawNegInf then .error .oppositeInfinities
  else if s.sawNan then .ok Scalar.nan
  else if s.sawPosInf then .ok Scalar.posInf
  else if s.sawNegInf then .ok Scalar.negInf
  else
    match s.total with
    | .finite q => .ok (Scalar.nearest q)
    | _ => .ok Scalar.nan

end RunningSum

/-- The exactly rounded sum. -/
def Scalar.sum {α : Type} [Scalar α] (xs : List α) : Except Fault α := do
  let s ← xs.foldlM RunningSum.step {}
  s.result

end DecisionModel
