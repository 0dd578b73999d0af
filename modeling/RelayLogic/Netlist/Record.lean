import RelayLogic.Circuit.Basic
import RelayLogic.Netlist.Bytes
import RelayLogic.Text.Utf8

/-!
Records of netlists. A record has a command and a number; what follows are its fields, among them
references to the records of other elements.

A project opens under the solution, a context under the latest project, and everything else lands
in the latest context. The pins of an element come before the element.
-/

namespace RelayLogic.Netlist

inductive Command
  | solution
  | project
  | context
  | pin
  | signal
  | gate (kind : GateKind)
  | timer (kind : TimerKind)
  | connect
  | tag
  | bindTag
  deriving DecidableEq, Repr

namespace Command

def code : Command → Nat
  | solution => 0
  | project => 1
  | context => 2
  | pin => 3
  | signal => 4
  | gate .and => 5
  | gate .or => 6
  | timer .on => 7
  | timer .off => 8
  | timer .pulse => 9
  | connect => 10
  | tag => 11
  | bindTag => 12

def ofCode? : Nat → Option Command
  | 0 => some solution
  | 1 => some project
  | 2 => some context
  | 3 => some pin
  | 4 => some signal
  | 5 => some (gate .and)
  | 6 => some (gate .or)
  | 7 => some (timer .on)
  | 8 => some (timer .off)
  | 9 => some (timer .pulse)
  | 10 => some connect
  | 11 => some tag
  | 12 => some bindTag
  | _ => none

def name : Command → String
  | solution => "Solution"
  | project => "Project"
  | context => "Context"
  | pin => "Pin"
  | signal => "Signal"
  | gate .and => "AndGate"
  | gate .or => "OrGate"
  | timer .on => "TimerOn"
  | timer .off => "TimerOff"
  | timer .pulse => "TimerPulse"
  | connect => "Connect"
  | tag => "Tag"
  | bindTag => "BindTag"

theorem ofCode?_code (command : Command) : ofCode? command.code = some command := by
  rcases command with _ | _ | _ | _ | _ | kind | kind | _ | _ | _ <;>
    first | rfl | (cases kind <;> rfl)

theorem code_of_ofCode? {number : Nat} {command : Command} (found : ofCode? number = some command) :
    command.code = number := by
  unfold ofCode? at found
  split at found <;> simp_all [code] <;> subst found <;> rfl

end Command

/-- A record whose references have type `ref`. -/
inductive Record (ref : Type)
  | solution
  | project
  | context
  | pin
  | signal (pins : List ref)
  | gate (kind : GateKind) (pins : List ref)
  | timer (kind : TimerKind) (pins : List ref) (delay : Seconds)
  | connect (start stop : ref) (invertStart invertStop : Bool)
  | tag (name : String) (initial : Tri)
  | bindTag (signal tag : ref)
  deriving DecidableEq, Repr

inductive Field (ref : Type)
  | byte (value : Nat)
  | word (value : Nat)
  | text (value : String)
  | reference (target : ref)
  deriving DecidableEq, Repr

def triCode : Tri → Nat
  | .false => 0
  | .true => 1
  | .unknown => 2

def triOfCode? : Nat → Option Tri
  | 0 => some .false
  | 1 => some .true
  | 2 => some .unknown
  | _ => none

namespace Record

def command : Record ref → Command
  | solution => .solution
  | project => .project
  | context => .context
  | pin => .pin
  | signal _ => .signal
  | gate kind _ => .gate kind
  | timer kind _ _ => .timer kind
  | connect _ _ _ _ => .connect
  | tag _ _ => .tag
  | bindTag _ _ => .bindTag

def fields : Record ref → List (Field ref)
  | solution | project | context | pin => []
  | signal pins => pins.map .reference
  | gate _ pins => pins.map .reference
  | timer _ pins delay => pins.map .reference ++ [.word delay.bits.toNat]
  | connect start stop invertStart invertStop =>
    [.reference start, .reference stop, .byte invertStart.toNat, .byte invertStop.toNat]
  | tag name initial => [.text name, .byte (triCode initial)]
  | bindTag mapped onto => [.reference mapped, .reference onto]

end Record

end RelayLogic.Netlist
