import RelayLogic.Tri

/-!
Diagrams as their text declares them: tags, and contexts that hold blocks and wires. Names are not
yet resolved and kinds not yet known.
-/

namespace RelayLogic

namespace Diagram

/-- A list of pairs with one more pair; an earlier pair of the same key gives way. -/
def putKey (key : String) (value : α) (pairs : List (String × α)) : List (String × α) :=
  pairs.filter (fun pair => pair.1 != key) ++ [(key, value)]

structure TagDecl where
  name : String
  initial : Tri
  properties : List (String × String)
  line : Nat
  deriving DecidableEq, Repr

structure BlockDecl where
  kind : String
  name : String
  value : Option Float
  tag : Option String
  parameters : List (String × Float)
  line : Nat
  deriving Repr

/-- One end of a wire: a block and a point of it, or a relay pin alone. -/
structure PointRef where
  block : String
  point : Option String
  inverted : Bool
  deriving DecidableEq, Repr

def PointRef.label (ref : PointRef) : String :=
  match ref.point with
  | some point => ref.block ++ ":" ++ point
  | none => ref.block

structure WireDecl where
  start : PointRef
  stop : PointRef
  line : Nat
  deriving DecidableEq, Repr

structure ContextDecl where
  project : String
  name : String
  blocks : List BlockDecl
  wires : List WireDecl
  line : Nat
  deriving Repr

end Diagram

structure Diagram where
  solution : Option String
  tags : List Diagram.TagDecl
  contexts : List Diagram.ContextDecl
  deriving Repr

namespace Diagram

def empty : Diagram := ⟨none, [], []⟩

def blockCount (diagram : Diagram) : Nat :=
  (diagram.contexts.flatMap (·.blocks)).length

def defaultName : String := "Main"

def defaultSolution : String := "Solution"

end Diagram

end RelayLogic
