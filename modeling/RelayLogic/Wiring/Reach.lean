import RelayLogic.Wiring.Adjacency

/-!
Walks along wires. A walk starts at a root, goes on through the pins that let it pass, and finds
each pin once; inversions on the way cancel in pairs. Two walks are of use: one stops at every pin
that has a direction, the other at every pin that is no relay.
-/

namespace RelayLogic

namespace Adjacency

def fresh (adjacency : Adjacency) (root : ElementId) (found : List Connection)
    (here : Connection) : List Connection :=
  (adjacency.neighbours here.pin).foldl
    (fun fresh next =>
      if next.pin = root || (found ++ fresh).any (·.pin == next.pin) then fresh
      else fresh ++ [⟨next.pin, here.inverted ^^ next.inverted⟩])
    []

def walkFrom (adjacency : Adjacency) (passes : ElementId → Bool) (root : ElementId) :
    Nat → List Connection → List Connection → List Connection
  | 0, _, found => found
  | _, [], found => found
  | fuel + 1, here :: stack, found =>
    let fresh := adjacency.fresh root found here
    let onward := fresh.filter (passes ·.pin)
    walkFrom adjacency passes root fuel (onward.reverse ++ stack) (found ++ fresh)

/--
The pins that a walk from `root` finds, in the order in which it finds them. Every pin but the root
is put on the stack by a link that leads to it, so there are no more rounds than links and one.
-/
def walk (adjacency : Adjacency) (passes : ElementId → Bool) (root : ElementId) :
    List Connection :=
  adjacency.walkFrom passes root (adjacency.links.length + 1) [⟨root, false⟩] []

end Adjacency

namespace Circuit

/-- The pins joined to `root` by wires and pins without direction. -/
def connections (circuit : Circuit) (adjacency : Adjacency) (root : ElementId) :
    List Connection :=
  adjacency.walk (fun pin => circuit.direction pin == .undefined) root

/-- What is joined to `root` by wires and relay pins and is no relay pin itself. -/
def endpoints (circuit : Circuit) (adjacency : Adjacency) (root : ElementId) : List ElementId :=
  ((adjacency.walk circuit.isRelay root).map (·.pin)).filter fun pin => !circuit.isRelay pin

def inputConnections (circuit : Circuit) (adjacency : Adjacency) :
    List (ElementId × List Connection) :=
  ((circuit.pinsDirected .input).map fun pin => (pin, circuit.connections adjacency pin)).filter
    fun entry => !entry.2.isEmpty

end Circuit

end RelayLogic
