import RelayLogic.Decimal.Reading
import RelayLogic.Toml.Reader

/-!
Dates and times of day. Each of their numbers is checked against its bounds, and none is kept.
-/

namespace RelayLogic.Toml

open Reader

def field (count low high : Nat) : Reader Nat := do
  let digits ← (List.replicate count (one Char.isDigit)).mapM id
  let value := Decimal.digitsValue digits
  guard (low ≤ value && value ≤ high)
  return value

/-- Takes a date. Every month may have 31 days. -/
def date : Reader Unit := do
  let _ ← field 4 0 9999
  mark '-'
  let _ ← field 2 1 12
  mark '-'
  let _ ← field 2 1 31

def hoursAndMinutes : Reader Unit := do
  let _ ← field 2 0 23
  mark ':'
  let _ ← field 2 0 59

def timeOfDay : Reader Unit := do
  hoursAndMinutes
  mark ':'
  let _ ← field 2 0 60
  let _ ← optional do
    mark '.'
    let _ ← one Char.isDigit
    span Char.isDigit

def offset : Reader Unit :=
  discard (one fun char => char = 'Z' || char = 'z') <|> do
    let _ ← one fun char => char = '+' || char = '-'
    hoursAndMinutes

def moment : Reader Unit :=
  (do
    date
    let _ ← optional do
      let _ ← one fun char => char = 'T' || char = 't' || char = ' '
      timeOfDay
      optional offset) <|> timeOfDay

end RelayLogic.Toml
