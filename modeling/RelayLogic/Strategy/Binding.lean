import RelayLogic.Circuit.Basic

/-!
What strategies read: cells of other strategies, inverted or not.
-/

namespace RelayLogic

abbrev States := Array Tri

structure Binding where
  source : Nat
  inverted : Bool
  deriving DecidableEq, Repr

namespace Binding

/-- The value read; a cell that does not exist is unknown. -/
def read (binding : Binding) (states : States) : Tri :=
  (states.getD binding.source .unknown).invertIf binding.inverted

/-- The value of the only binding; none, or several at odds, are unknown. -/
def readOnly (bindings : List Binding) (states : States) : Tri :=
  match bindings with
  | [binding] => binding.read states
  | _ => .unknown

end Binding

def GateKind.apply : GateKind → Tri → Tri → Tri
  | .and => Tri.and
  | .or => Tri.or

def GateKind.evaluate (kind : GateKind) (bindings : List Binding) (states : States) : Tri :=
  match bindings with
  | first :: second :: rest =>
    (second :: rest).foldl (fun value binding => kind.apply value (binding.read states))
      (first.read states)
  | _ => .unknown

end RelayLogic
