import RelayLogic.Clock
import RelayLogic.Strategy.Binding
import RelayLogic.Strategy.Timer

/-!
Strategies. Each element that is simulated has one, which computes the element's value from the
values that it is bound to.
-/

namespace RelayLogic

inductive Behaviour
  /-- The value of the only binding. The cell starts with a value of its own. -/
  | pass (initial : Tri)
  | gate (kind : GateKind)
  | onDelay (timer : OnDelay)
  | offDelay (timer : OffDelay)
  | pulse (timer : Pulse)
  | latch
  deriving DecidableEq, Repr

structure Strategy where
  element : ElementId
  behaviour : Behaviour
  bindings : List Binding
  deriving DecidableEq, Repr

namespace Strategy

def behaviourOf? (clock : Clock) : Kind → Option Behaviour
  | .tag initial _ => some (.pass initial)
  | .signal none => some (.pass .unknown)
  | .gate kind => some (.gate kind)
  | .timer .on delay => some (.onDelay (.new (clock.cyclesFor delay)))
  | .timer .off delay => some (.offDelay (.new (clock.cyclesFor delay)))
  | .timer .pulse delay => some (.pulse (.new (clock.cyclesFor delay)))
  | .memory _ => some .latch
  | _ => none

def initial (strategy : Strategy) : Tri :=
  match strategy.behaviour with
  | .pass initial => initial
  | .gate _ | .latch => .unknown
  | .onDelay _ | .offDelay _ | .pulse _ => .false

/-- Whether the value is computed at all: it must read something, and not be a memory's. -/
def isEvaluable (strategy : Strategy) : Bool :=
  strategy.behaviour != .latch && !strategy.bindings.isEmpty

def dependencies (strategy : Strategy) : List Nat :=
  (strategy.bindings.map (·.source)).eraseDups

def calculate (strategy : Strategy) (states : States) (now : Nat) : Tri × Strategy :=
  let enable := Binding.readOnly strategy.bindings states
  match strategy.behaviour with
  | .pass _ => (enable, strategy)
  | .gate kind => (kind.evaluate strategy.bindings states, strategy)
  | .onDelay timer =>
    let (value, timer) := timer.step now enable
    (value, { strategy with behaviour := .onDelay timer })
  | .offDelay timer =>
    let (value, timer) := timer.step now enable
    (value, { strategy with behaviour := .offDelay timer })
  | .pulse timer =>
    let (value, timer) := timer.step now enable
    (value, { strategy with behaviour := .pulse timer })
  | .latch => (.unknown, strategy)

end Strategy

end RelayLogic
