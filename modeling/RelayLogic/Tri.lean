/-!
Three-valued logic. A signal is true, false, or unknown (undriven or indeterminate); conjunction
and disjunction follow Kleene: an unknown operand leaves the result unknown unless the other
operand already decides it.
-/

namespace RelayLogic

inductive Tri
  | true
  | false
  | unknown
  deriving DecidableEq, Repr, Inhabited

namespace Tri

def ofBool : Bool → Tri
  | .true => .true
  | .false => .false

def ofOption : Option Bool → Tri
  | some value => ofBool value
  | none => .unknown

def toOption : Tri → Option Bool
  | .true => some .true
  | .false => some .false
  | .unknown => none

def isKnown (value : Tri) : Bool :=
  value != .unknown

protected def not : Tri → Tri
  | .true => .false
  | .false => .true
  | .unknown => .unknown

def invertIf (value : Tri) (inverted : Bool) : Tri :=
  if inverted then value.not else value

protected def and : Tri → Tri → Tri
  | .false, _ => .false
  | _, .false => .false
  | .true, .true => .true
  | _, _ => .unknown

protected def or : Tri → Tri → Tri
  | .true, _ => .true
  | _, .true => .true
  | .false, .false => .false
  | _, _ => .unknown

def name : Tri → String
  | .true => "true"
  | .false => "false"
  | .unknown => "unknown"

/-- Reads a value's name in any ASCII case; `1`, `0`, `on`, `off`, `x` and `?` are names too. -/
def ofName? (text : String) : Option Tri :=
  match text.map Char.toLower with
  | "true" | "1" | "on" => some .true
  | "false" | "0" | "off" => some .false
  | "unknown" | "x" | "?" => some .unknown
  | _ => none

end Tri

end RelayLogic
