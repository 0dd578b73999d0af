import RelayLogic.Circuit.Query

/-!
Validity of circuits. Owners and children agree, wires join two pins, signals and logic own the
pins they need, and delays are finite and not negative.
-/

namespace RelayLogic.Circuit

def checkChildren (circuit : Circuit) (id : ElementId) (children : List ElementId) :
    Except Error Unit :=
  children.forM fun child => do
    let owner := (← circuit.element child).owner
    if owner = some id then pure () else throw (.topology (.strayChild id child owner))

def areSignalPins (circuit : Circuit) : List ElementId → Bool
  | [input, output] => circuit.direction input == .input && circuit.direction output == .output
  | _ => false

def checkTag (circuit : Circuit) : Option ElementId → Except Error Unit
  | none => pure ()
  | some tag => do
    if (← circuit.element tag).kind.isTag then pure () else throw (.wrongKind tag .tag)

def checkParts (circuit : Circuit) (id : ElementId) (element : Element) : Except Error Unit :=
  match element.kind with
  | .wire wire => do
    let _ ← circuit.pin wire.start
    let _ ← circuit.pin wire.stop
    if wire.start = wire.stop then throw (.topology (.loop id wire.start)) else pure ()
  | .signal tag => do
    if circuit.areSignalPins (circuit.pinsOf id) then circuit.checkTag tag
    else throw (.topology (.signalPins element.name))
  | kind =>
    if kind.isLogic then
      let count := (circuit.pinsOf id).length
      if count = 4 then
        match kind with
        | .timer _ delay =>
          if delay.isFinite && !delay.isNegative then pure ()
          else throw (.topology (.delay element.name delay))
        | _ => pure ()
      else throw (.topology (.pinCount kind element.name count))
    else pure ()

def checkElement (circuit : Circuit) (id : ElementId) : Except Error Unit := do
  let element ← circuit.element id
  circuit.checkChildren id element.children
  circuit.checkParts id element

/-- Checks every element in the order of handles; the first fault is the answer. -/
def validate (circuit : Circuit) : Except Error Unit :=
  circuit.ids.forM circuit.checkElement

end RelayLogic.Circuit
