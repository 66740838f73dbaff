/- Sets of code points, written as ascending inclusive ranges. -/
namespace CallScript

/-- Whether a code point lies in one of the ranges between two indices, halving the gap at each
step. -/
def inRanges (ranges : Array (Nat × Nat)) (code : Nat) : Nat → Nat → Nat → Bool
  | 0, _, _ => false
  | steps + 1, low, high =>
    if low ≥ high then false
    else
      let middle := (low + high) / 2
      let range := ranges[middle]?.getD (0, 0)
      if code < range.1 then inRanges ranges code steps low middle
      else if range.2 < code then inRanges ranges code steps (middle + 1) high
      else true

def inTable (ranges : Array (Nat × Nat)) (code : Nat) : Bool :=
  inRanges ranges code ranges.size 0 ranges.size

end CallScript
