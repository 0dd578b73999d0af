import RelayLogic.Error
import RelayLogic.Strategy.Basic

/-!
Plans: the strategies of a circuit with their cells, and the order in which a cycle computes them.
-/

namespace RelayLogic

structure BoundTag where
  tag : ElementId
  name : String
  slot : Nat
  signals : List (ElementId × Option BlockRef)
  deriving DecidableEq, Repr

/-- A strategy and its cell have the same index, the slot. -/
structure Plan where
  strategies : Array Strategy
  /-- Which strategies are computed. The other cells keep their values. -/
  evaluable : Array Bool
  order : List Nat
  states : States
  boundTags : List BoundTag
  clock : Clock
  /-- The number of dependencies that close a cycle. -/
  cyclesDetected : Nat
  deriving DecidableEq, Repr

namespace Plan

def size (plan : Plan) : Nat :=
  plan.strategies.size

def slot (plan : Plan) (element : ElementId) : Option Nat :=
  plan.strategies.findIdx? (·.element == element)

def value (plan : Plan) (element : ElementId) : Option Tri :=
  (plan.slot element).bind (plan.states[·]?)

def isEvaluable (plan : Plan) (element : ElementId) : Bool :=
  ((plan.slot element).bind (plan.evaluable[·]?)).getD false

def evaluableCount (plan : Plan) : Nat :=
  plan.evaluable.count true

def elementOrder (plan : Plan) : List ElementId :=
  plan.order.filterMap fun slot => (plan.strategies[slot]?).map (·.element)

/-- Writes an element's cell. If the element is computed, the next cycle overwrites the value. -/
def setValue (plan : Plan) (element : ElementId) (value : Tri) : Except Error Plan :=
  match plan.slot element with
  | some slot => .ok { plan with states := plan.states.setIfInBounds slot value }
  | none => .error (.elementNotFound element)

def calculate (plan : Plan) (slot : Nat) : Plan :=
  match plan.strategies[slot]? with
  | none => plan
  | some strategy =>
    let (value, after) := strategy.calculate plan.states plan.clock.cycle
    { plan with
      strategies := plan.strategies.setIfInBounds slot after
      states := plan.states.setIfInBounds slot value }

/-- One cycle: the clock advances, then every slot in the order is computed. -/
def evaluate (plan : Plan) : Plan :=
  plan.order.foldl calculate { plan with clock := plan.clock.advance }

end Plan

end RelayLogic
