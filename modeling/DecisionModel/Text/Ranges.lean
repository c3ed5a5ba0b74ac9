/-!
# Ranges of code points

A set of characters is given as a list of ranges of code points, both ends included.
-/

namespace DecisionModel.Text

/-- Whether a code point lies in one of the ranges. -/
def inRanges (ranges : List (Nat × Nat)) (n : Nat) : Bool :=
  ranges.any fun (low, high) => low ≤ n && n ≤ high

end DecisionModel.Text
