import RelayLogic.Circuit.Query
import RelayLogic.Netlist.Record

/-!
The records of a circuit, in the order of its tree. Bindings of signals to tags come last, since a
tag may be declared after a signal that is mapped onto it.
-/

namespace RelayLogic

namespace Netlist

structure Entry where
  element : Option ElementId
  record : Record ElementId
  deriving DecidableEq, Repr

/-- The entries of a circuit, of which the first that is none ends the netlist. -/
abbrev Entries := List (Except Error Entry)

def ownerEntries (id : ElementId) (pins : List ElementId) (record : Record ElementId) : Entries :=
  pins.map (fun pin => .ok ⟨some pin, .pin⟩) ++ [.ok ⟨some id, record⟩]

end Netlist

open Netlist (Entries Entry ownerEntries)

namespace Circuit

def memberEntries (circuit : Circuit) (id : ElementId) : Entries :=
  match circuit.element id with
  | .error error => [.error error]
  | .ok element =>
    let pins := circuit.pinsOf id
    match element.kind with
    | .pin _ => [.ok ⟨some id, .pin⟩]
    | .wire wire =>
      [.ok ⟨some id, .connect wire.start wire.stop wire.invertStart wire.invertStop⟩]
    | .signal _ => ownerEntries id pins (.signal pins)
    | .gate kind => ownerEntries id pins (.gate kind pins)
    | .timer kind delay => ownerEntries id pins (.timer kind pins delay)
    | kind => [.error (.unsupported id kind)]

def contextEntries (circuit : Circuit) (id : ElementId) : Entries :=
  match circuit.element id with
  | .error error => [.error error]
  | .ok element =>
    match element.kind with
    | .context => .ok ⟨some id, .context⟩ :: element.children.flatMap circuit.memberEntries
    | _ => []

def topEntries (circuit : Circuit) (id : ElementId) : Entries :=
  match circuit.element id with
  | .error error => [.error error]
  | .ok element =>
    match element.kind with
    | .tag initial _ => [.ok ⟨some id, .tag element.name initial⟩]
    | .project => .ok ⟨some id, .project⟩ :: element.children.flatMap circuit.contextEntries
    | _ => []

def tagOf (circuit : Circuit) (signal : ElementId) : Option ElementId :=
  match circuit.get? signal with
  | some { kind := .signal tag, .. } => tag
  | _ => none

def bindingEntries (circuit : Circuit) (entries : Entries) : Entries :=
  entries.filterMap fun
    | .ok ⟨some signal, .signal _⟩ =>
      (circuit.tagOf signal).map fun tag => .ok ⟨none, .bindTag signal tag⟩
    | _ => none

def entries (circuit : Circuit) : Entries :=
  let tree := (circuit.children solution).flatMap circuit.topEntries
  .ok ⟨some solution, .solution⟩ :: tree ++ circuit.bindingEntries tree

end Circuit

end RelayLogic
