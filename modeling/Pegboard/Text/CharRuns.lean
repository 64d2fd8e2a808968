/-!
# Sets of characters as runs of code points

A property of characters is given by the runs of code points that have it, in increasing order.
`contains` scans the runs up to the first one that could hold the code point.
-/

namespace Pegboard.Text

/-- The code points from `first` to `last` that lie a multiple of `step` after `first`. -/
structure CharRun where
  first : Nat
  last : Nat
  step : Nat

namespace CharRun

/-- Whether one of the runs, which are in increasing order, holds the code point. -/
def contains : List CharRun → Nat → Bool
  | [], _ => false
  | r :: rs, n =>
    if n < r.first then false
    else if n ≤ r.last then (n - r.first) % r.step == 0
    else contains rs n

end CharRun

end Pegboard.Text
