import RelayLogic.Text.Alphabetic
import RelayLogic.Text.Numeric

/-!
The characters that names are made of.
-/

namespace RelayLogic.Text

def isAlphanumeric (char : Char) : Bool :=
  isAlphabetic char || isNumeric char

theorem isAlphanumeric_of_isAlphabetic {char : Char} (alphabetic : isAlphabetic char = true) :
    isAlphanumeric char = true := by
  simp [isAlphanumeric, alphabetic]

end RelayLogic.Text
