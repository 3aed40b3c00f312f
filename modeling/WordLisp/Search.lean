/-!
# Binary search

Where elements that do not satisfy a condition all stand before those that do, halving finds the
border.
-/

namespace WordLisp

/-- The first index from `low` on, but at most `high`, that satisfies a condition. -/
def search (satisfies : Nat → Bool) (low high : Nat) : Nat :=
  if h : low < high then
    let middle := (low + high) / 2
    if satisfies middle then search satisfies low middle
    else search satisfies (middle + 1) high
  else
    low
termination_by high - low

end WordLisp
