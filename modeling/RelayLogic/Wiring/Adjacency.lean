import RelayLogic.Circuit.Query

/-!
What wires join. Every wire leads from each of its ends to the other.
-/

namespace RelayLogic

structure Connection where
  pin : ElementId
  inverted : Bool
  deriving DecidableEq, Repr

structure Adjacency where
  links : List (ElementId × Connection)
  deriving DecidableEq, Repr

def Wire.links (wire : Wire) : List (ElementId × Connection) :=
  [(wire.start, ⟨wire.stop, wire.inverted⟩), (wire.stop, ⟨wire.start, wire.inverted⟩)]

def Circuit.adjacency (circuit : Circuit) : Adjacency :=
  ⟨circuit.wires.flatMap fun (_, wire) => wire.links⟩

namespace Adjacency

def neighbours (adjacency : Adjacency) (pin : ElementId) : List Connection :=
  (adjacency.links.filter (·.1 == pin)).map (·.2)

def touches (adjacency : Adjacency) (pin : ElementId) : Bool :=
  adjacency.links.any (·.1 == pin)

def pins (adjacency : Adjacency) : List ElementId :=
  (adjacency.links.map (·.1)).eraseDups.mergeSort

end Adjacency

end RelayLogic
