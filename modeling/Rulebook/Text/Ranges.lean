/-! # Ranges of code points

A class of characters is given by the runs of its code points, in ascending
order. Membership is decided by halving.
-/

namespace Rulebook.Text

/-- Whether a code point lies in one of the ascending ranges between two
indices, by halving. -/
def inRangesBetween (ranges : Array (Nat × Nat)) (n : Nat) (low high : Nat) : Bool :=
  if low < high then
    let middle := (low + high) / 2
    match ranges[middle]? with
    | none => false
    | some (first, last) =>
        if n < first then inRangesBetween ranges n low middle
        else if last < n then inRangesBetween ranges n (middle + 1) high
        else true
  else false
termination_by high - low

/-- Whether a code point lies in one of the ascending ranges. -/
def inRanges (ranges : Array (Nat × Nat)) (n : Nat) : Bool :=
  inRangesBetween ranges n 0 ranges.size

end Rulebook.Text
