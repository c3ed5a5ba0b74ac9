/-!
# Faults below the level of the modelling language

Some data cannot be processed at all, whatever the surrounding operation is: a node whose operand
list does not have the form its tag calls for, a thing of a kind that lacks what is asked of it, a
number that has no value of the form asked for (a rounded infinity, say), and a sum or a conversion
that leaves the range of the number type. `Fault` names the causes and `Fault.message` is their one
wording.
-/

namespace DecisionModel

/-- A cause that stops an operation without being an error of the modelling language itself. -/
inductive Fault where
  /-- An operand was read beyond the end of a node's operand list. -/
  | missingOperand
  /-- A node that needs exactly `expected` operands has `found` of them. -/
  | operandCount (expected found : Nat)
  /-- The position of an operator name stands where an operand has to be written. -/
  | operatorPosition (position : Nat)
  /-- Something of this kind has no such feature. -/
  | lacks (kind feature : String)
  /-- Nothing stands where a number is needed. -/
  | absentNumber
  | nanToInteger
  | infinityToInteger
  | nanToRatio
  | infinityToRatio
  /-- A sum holds infinities of both signs. -/
  | oppositeInfinities
  /-- A running sum of finite summands leaves the finite range. -/
  | sumOverflow
  | integerTooLarge
  | quotientTooLarge
  | roundingTooLarge
  /-- The least element of an empty list was asked for. -/
  | leastOfNone
  /-- The greatest element of an empty list was asked for. -/
  | greatestOfNone
  /-- A definition reaches itself. -/
  | circularDefinition
deriving DecidableEq, Repr

namespace Fault

/-- The wording of a fault. -/
def message : Fault → String
  | missingOperand => "list index out of range"
  | operandCount expected found =>
    if found < expected then
      "not enough values to unpack (expected " ++ toString expected ++ ", got " ++
        toString found ++ ")"
    else "too many values to unpack (expected " ++ toString expected ++ ")"
  | operatorPosition position => "Unexpected operand: " ++ toString position
  | lacks kind feature => "'" ++ kind ++ "' object has no attribute '" ++ feature ++ "'"
  | absentNumber => "float() argument must be a string or a real number, not 'NoneType'"
  | nanToInteger => "cannot convert float NaN to integer"
  | infinityToInteger => "cannot convert float infinity to integer"
  | nanToRatio => "cannot convert NaN to integer ratio"
  | infinityToRatio => "cannot convert Infinity to integer ratio"
  | oppositeInfinities => "-inf + inf in fsum"
  | sumOverflow => "intermediate overflow in fsum"
  | integerTooLarge => "int too large to convert to float"
  | quotientTooLarge => "integer division result too large for a float"
  | roundingTooLarge => "rounded value too large to represent"
  | leastOfNone => "min() arg is an empty sequence"
  | greatestOfNone => "max() arg is an empty sequence"
  | circularDefinition => "maximum recursion depth exceeded"

end Fault

end DecisionModel
