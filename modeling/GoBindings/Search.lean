/-!
# Bounded search

Names are made unique by counting up until one is free. A bound that depends on the names already
taken makes the search end, and is never reached without success.
-/

namespace GoBindings

/-- The least number from `k` on that satisfies `p`, or `k + bound` if none below it does. -/
def leastFrom (p : Nat → Bool) : (bound k : Nat) → Nat
  | 0, k => k
  | bound + 1, k => if p k then k else leastFrom p bound (k + 1)

end GoBindings
