import RelayLogic.Decimal.Reading
import RelayLogic.Text.Blank

/-!
Quantities: numbers with a scale letter and the letter `s` for seconds, both optional.
-/

namespace RelayLogic.Diagram

def scaleFactor? : Char → Option Float
  | 'u' => some 1e-6
  | 'm' => some 1e-3
  | 'k' => some 1e3
  | _ => none

def dropSeconds (text : List Char) : List Char :=
  if text.getLast? = some 's' then text.dropLast else text

def readQuantity? (text : String) : Option Float :=
  let bare := dropSeconds (Text.trim text.toList)
  match bare.getLast?.bind scaleFactor? with
  | some factor => (Decimal.read? bare.dropLast).map (· * factor)
  | none => Decimal.read? bare

end RelayLogic.Diagram
