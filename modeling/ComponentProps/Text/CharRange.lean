/-!
# Ranges of characters

Properties of characters are tables of closed ranges of code points.
-/

namespace ComponentProps.Text.CharRange

/-- Whether `n` lies in one of the closed ranges. -/
def within (ranges : List (Nat × Nat)) (n : Nat) : Bool :=
  ranges.any fun r => decide (r.1 ≤ n) && decide (n ≤ r.2)

end ComponentProps.Text.CharRange
