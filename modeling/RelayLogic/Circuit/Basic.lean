import RelayLogic.Seconds
import RelayLogic.Tri

/-!
Circuits. The elements of a circuit stand in an arena and name each other by their index in it.
Each element but the solution has an owner, which lists it among its children; wires and
evaluators are links beside that tree.
-/

namespace RelayLogic

/-- The handle of an element: its index in the arena. -/
abbrev ElementId := Nat

def ElementId.label (id : ElementId) : String :=
  "E" ++ toString id

inductive Direction
  | undefined
  | input
  | output
  deriving DecidableEq, Repr, Inhabited

inductive GatePoint
  | left
  | right
  | top
  | bottom
  deriving DecidableEq, Repr

namespace GatePoint

def all : List GatePoint := [.left, .right, .top, .bottom]

def index : GatePoint → Nat
  | .left => 0
  | .right => 1
  | .top => 2
  | .bottom => 3

def name : GatePoint → String
  | .left => "left"
  | .right => "right"
  | .top => "top"
  | .bottom => "bottom"

def ofName? (text : String) : Option GatePoint :=
  match text.map Char.toLower with
  | "left" | "l" | "0" => some .left
  | "right" | "r" | "1" => some .right
  | "top" | "t" | "2" => some .top
  | "bottom" | "b" | "3" => some .bottom
  | _ => none

end GatePoint

inductive SignalPoint
  | input
  | output
  deriving DecidableEq, Repr

namespace SignalPoint

def index : SignalPoint → Nat
  | .input => 0
  | .output => 1

def ofName? (text : String) : Option SignalPoint :=
  match text.map Char.toLower with
  | "in" | "input" | "0" => some .input
  | "out" | "output" | "1" => some .output
  | _ => none

end SignalPoint

structure BlockRef where
  name : String
  line : Nat
  deriving DecidableEq, Repr, Inhabited

def BlockRef.label (block : BlockRef) : String :=
  if 0 < block.line then block.name ++ "@" ++ toString block.line else block.name

structure Pin where
  direction : Direction
  /-- Whether the direction is inferred, and so given up before it is inferred again. -/
  resets : Bool
  deriving DecidableEq, Repr, Inhabited

def Pin.floating : Pin := ⟨.undefined, true⟩

def Pin.fixed (direction : Direction) : Pin := ⟨direction, false⟩

structure Wire where
  start : ElementId
  stop : ElementId
  invertStart : Bool
  invertStop : Bool
  deriving DecidableEq, Repr

/-- Whether a value that crosses the wire is inverted; two marks count as one. -/
def Wire.inverted (wire : Wire) : Bool :=
  wire.invertStart || wire.invertStop

inductive GateKind
  | and
  | or
  deriving DecidableEq, Repr

inductive TimerKind
  | on
  | off
  | pulse
  deriving DecidableEq, Repr

inductive LatchKind
  | reset
  | set
  deriving DecidableEq, Repr

inductive Kind
  | pin (pin : Pin)
  | wire (wire : Wire)
  | signal (tag : Option ElementId)
  | tag (initial : Tri) (properties : List (String × String))
  | gate (kind : GateKind)
  | timer (kind : TimerKind) (delay : Seconds)
  | memory (kind : LatchKind)
  | context
  | project
  | solution
  deriving DecidableEq, Repr, Inhabited

namespace Kind

def name : Kind → String
  | pin _ => "pin"
  | wire _ => "wire"
  | signal _ => "signal"
  | tag _ _ => "tag"
  | gate .and => "and gate"
  | gate .or => "or gate"
  | timer .on _ => "on-delay timer"
  | timer .off _ => "off-delay timer"
  | timer .pulse _ => "pulse timer"
  | memory .reset => "reset-priority memory"
  | memory .set => "set-priority memory"
  | context => "context"
  | project => "project"
  | solution => "solution"

def isPin : Kind → Bool
  | pin _ => true
  | _ => false

def isTag : Kind → Bool
  | tag _ _ => true
  | _ => false

def isSignal : Kind → Bool
  | signal _ => true
  | _ => false

def isContainer : Kind → Bool
  | context | project | solution => true
  | _ => false

def isLogic : Kind → Bool
  | gate _ | timer _ _ | memory _ => true
  | _ => false

end Kind

structure Element where
  name : String
  kind : Kind
  owner : Option ElementId
  children : List ElementId
  /-- The element that is evaluated in place of the owner, if there is one. -/
  evaluator : Option ElementId
  block : Option BlockRef
  deriving DecidableEq, Repr, Inhabited

/-- A circuit: its elements by handle, the solution first. -/
structure Circuit where
  elements : Array Element
  deriving DecidableEq, Repr, Inhabited

namespace Circuit

def solution : ElementId := 0

def empty (name : String) : Circuit :=
  ⟨#[⟨name, .solution, none, [], none, none⟩]⟩

def size (circuit : Circuit) : Nat :=
  circuit.elements.size

def get? (circuit : Circuit) (id : ElementId) : Option Element :=
  circuit.elements[id]?

def ids (circuit : Circuit) : List ElementId :=
  List.range circuit.size

def update (circuit : Circuit) (id : ElementId) (change : Element → Element) : Circuit :=
  ⟨circuit.elements.modify id change⟩

end Circuit

end RelayLogic
