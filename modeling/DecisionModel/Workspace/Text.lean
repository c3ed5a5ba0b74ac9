import DecisionModel.Text.Quoted
import DecisionModel.Workspace.Basic

/-!
# How models are written

The canonical text of terms, variables, families, sequences and models. A term fails to have a text
only if a node made by hand has operands of a number or of a kind that its operator does not have,
and a variable only if it is an integer one with a bound that is not a finite number.

An operand that is itself a node stands in brackets, except under a comparison and except for the
operators that are written as a call. A variable is written by its name, but where it is read as if
it were a collection it stands on its own and is written by its declaration.
-/

namespace DecisionModel

/-- The texts of one operand, and whether it is bracketed among others. -/
structure Piece where
  bracketed : Bool
  /-- The text among other operands. -/
  text : Except Fault String
  /-- The text on its own, as the container of an entry. -/
  alone : Unit → Except Fault String

/-- The operand's text, in brackets if it needs them. -/
def Piece.guarded (p : Piece) : Except Fault String :=
  if p.bracketed then p.text.map fun s => "( " ++ s ++ " )" else p.text

/-- The symbol between the operands of an infix operator. -/
def Operator.symbol : Operator → String
  | conjunction => "&&"
  | disjunction => "||"
  | sum => "+"
  | difference => "-"
  | product => "*"
  | quotient => "/"
  | comparison c => c.symbol
  | _ => ""

/-- The text of a node from the texts of its operands. -/
def Operator.write (op : Operator) (pieces : List Piece) : Except Fault String :=
  match op, pieces with
  | wrapper, p :: _ => p.guarded
  | negation, p :: _ => p.guarded.map ("-" ++ ·)
  | complement, p :: _ => p.guarded.map ("!" ++ ·)
  | collection, p :: _ => p.text.map fun s => "collection( " ++ s ++ " )"
  | wrapper, [] | negation, [] | complement, [] | collection, [] => .error .missingOperand
  | custom name, pieces => do
    let arguments := ", ".intercalate (← pieces.mapM (·.text))
    return if arguments.isEmpty then name ++ "()" else name ++ "( " ++ arguments ++ " )"
  | entry, [container, index] => do
    let container ← container.alone ()
    let index ← index.text
    return container ++ "[" ++ index ++ "]"
  | entry, pieces => .error (.operandCount 2 pieces.length)
  | comparison c, pieces => (" " ++ c.symbol ++ " ").intercalate <$> pieces.mapM (·.text)
  | op, pieces => (" " ++ op.symbol ++ " ").intercalate <$> pieces.mapM (·.guarded)

namespace Workspace

variable {α : Type} [Scalar α]

/-- Whether a term stands in brackets among the operands of an infix operator. -/
def isBracketed : Term α → Bool
  | .node _ (.custom _) _ => false
  | .node .. => true
  | _ => false

/-- The text of a term on its own, given its text among other operands: a variable is written by
its declaration, and a number cannot stand on its own. -/
def aloneText (declared : VarId → Except Fault String) (t : Term α) (text : Except Fault String) :
    Except Fault String :=
  match t with
  | .var v => declared v
  | .const _ => .error (.lacks "float" "stringify")
  | _ => text

mutual

/-- The text of a term where it is used, with `declared` giving the declarations of variables. -/
def termTextWith (w : Workspace α) (declared : VarId → Except Fault String) :
    Term α → Except Fault String
  | .const x => .ok (Scalar.fixedText 2 x)
  | .var v => .ok (w.variableName v)
  | .selected _ f i => .ok (w.selectedName f i)
  | .node _ op operands => op.write (piecesWith w declared operands)

def piecesWith (w : Workspace α) (declared : VarId → Except Fault String) :
    List (Term α) → List Piece
  | [] => []
  | t :: ts =>
    let text := w.termTextWith declared t
    ⟨isBracketed t, text, fun _ => aloneText declared t text⟩ :: piecesWith w declared ts

end

/-- An integer bound, its fraction dropped. -/
def integerText (x : α) : Except Fault String := do
  let n ← (Scalar.exact x).truncate
  return toString n

/-- A lower bound in the way its kind writes numbers. -/
def lowerText (write : α → Except Fault String) (x : α) : Except Fault String :=
  if (Scalar.exact x).eq .negInf then .ok "-infinity" else write x

def upperText (write : α → Except Fault String) (x : α) : Except Fault String :=
  if (Scalar.exact x).eq .posInf then .ok "infinity" else write x

/-- The declaration of a variable: its definition, its only value, or its domain. The declarations
of other variables are given by `declared`. -/
def declarationWith (w : Workspace α) (declared : VarId → Except Fault String) (v : Variable α) :
    Except Fault String :=
  match v.definition with
  | some t => (v.name ++ " := " ++ ·) <$> w.termTextWith declared t
  | none =>
    match v.kind with
    | .boolean =>
      .ok (v.name ++ if v.isFixed then
        " := " ++ (if Scalar.isZero v.lower then "false" else "true") else " ∈ \x7b false, true \x7d")
    | .integer => do
      if v.isFixed then return v.name ++ " := " ++ (← integerText v.lower)
      let low ← lowerText integerText v.lower
      let high ← upperText integerText v.upper
      return v.name ++ " ∈ \x7b " ++ low ++ ", ..., " ++ high ++ " \x7d"
    | .real => do
      let write := fun x => Except.ok (Scalar.fixedText 2 x)
      if v.isFixed then return v.name ++ " := " ++ (← write v.lower)
      let low ← lowerText write v.lower
      let high ← upperText write v.upper
      return v.name ++ " ∈ [ " ++ low ++ ", " ++ high ++ " ]"

/-- The declaration of a variable, following at most `depth` definitions. -/
def declaredText (w : Workspace α) : Nat → VarId → Except Fault String
  | 0, _ => .error .circularDefinition
  | depth + 1, v =>
    match w.findVariable v with
    | some d => w.declarationWith (declaredText w depth) d
    | none => .ok ""

/-- The declaration of a variable. No chain of definitions is longer than the table of variables. -/
def variableText (w : Workspace α) (v : VarId) : Except Fault String :=
  w.declaredText (w.vars.size + 1) v

/-- The text of a term where it is used. -/
def termText (w : Workspace α) (t : Term α) : Except Fault String :=
  w.termTextWith w.variableText t

/-- The texts of operands. -/
def pieces (w : Workspace α) (ts : List (Term α)) : List Piece := w.piecesWith w.variableText ts

/-- A term as an operand: bracketed if it needs to be. -/
def operandText (w : Workspace α) (t : Term α) : Except Fault String :=
  let text := w.termText t
  if isBracketed t then text.map fun s => "( " ++ s ++ " )" else text

/-- The text of a term by itself: a variable shows its declaration. -/
def text (w : Workspace α) : Term α → Except Fault String
  | .var v => w.variableText v
  | t => w.termText t

def familyText (w : Workspace α) (f : FamilyId) : Except Fault String := do
  let name := w.familyName f
  match w.members f with
  | [] => return name ++ " := \x7b \x7d"
  | members =>
    let texts ← members.mapM w.variableText
    return name ++ " := \x7b " ++ ", ".intercalate texts ++ " \x7d"

def sequenceText (w : Workspace α) (s : SequenceId) : String :=
  let members := w.sequenceMembers s
  let n := members.length
  "( " ++ ", ".intercalate (members.map w.variableName) ++ " ) is permutation of \x7b 1, " ++
    (if 2 < n then "..., " else "") ++ toString n ++ " \x7d"

/-- A model, one entity per line, under a heading for each kind. -/
def modelText (w : Workspace α) (m : ModelId) : Except Fault String :=
  match w.findModel m with
  | none => .ok ""
  | some model => do
    let sequences := model.sequences.map w.sequenceText
    let declarations ← model.vars.mapM w.variableText
    let families ← model.families.mapM w.familyText
    let constraints ← model.constraints.mapM w.termText
    let lines := "Sequences:" :: sequences ++ "Variables:" :: declarations ++
      "Indexed variables:" :: families ++ "Constraints:" :: constraints
    return "\n".intercalate lines ++ "\n"

/-! ### One-line descriptions -/

def variableDescription (w : Workspace α) (v : VarId) : Except Fault String :=
  (fun s => "Variable(" ++ Text.quoted s ++ ")") <$> w.variableText v

/-- A description that names the kind of term and quotes its text. -/
def termDescription (w : Workspace α) : Term α → Except Fault String
  | .const x => .ok (Scalar.text x)
  | .var v => w.variableDescription v
  | t@(.selected ..) => (fun s => "IndexedVariable(" ++ Text.quoted s ++ ")") <$> w.termText t
  | t@(.node ..) => (fun s => "Expression(" ++ Text.quoted s ++ ")") <$> w.termText t

/-- A description of what is given where a term is meant. -/
def inputDescription (w : Workspace α) : Input α → Except Fault String
  | .term t => w.termDescription t
  | .literal l => .ok l.text
  | .other _ description => .ok description

def familyDescription (w : Workspace α) (f : FamilyId) : String :=
  "IndexedVariables(" ++ Text.quoted (w.familyName f) ++ ", " ++
    toString (w.members f).length ++ " members)"

def sequenceDescription (w : Workspace α) (s : SequenceId) : String :=
  "Sequence(" ++ Text.quoted (w.sequenceName s) ++ ", " ++
    toString (w.sequenceMembers s).length ++ ")"

def modelDescription (w : Workspace α) (m : ModelId) : String :=
  match w.findModel m with
  | none => ""
  | some model =>
    "Model(" ++ model.sense.label ++ ", " ++ toString model.vars.length ++
      " variables, " ++ toString model.constraints.length ++ " constraints)"

end Workspace

end DecisionModel
