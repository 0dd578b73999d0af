/-!
Sets of code points, written as ranges.
-/

namespace RelayLogic.Text

/-- A set of code points as disjoint ranges in ascending order, both ends included. -/
abbrev Ranges := List (Nat × Nat)

def Ranges.contains : Ranges → Nat → Bool
  | [], _ => false
  | (low, high) :: rest, code =>
    if code < low then false else code ≤ high || Ranges.contains rest code

end RelayLogic.Text
