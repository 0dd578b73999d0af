import RelayLogic.Decimal.Reading
import RelayLogic.Toml.Basic
import RelayLogic.Toml.Quotation

/-!
Numbers. An integer has 64 bits and a sign, whatever base it is written in; an underscore may stand
between any two digits.
-/

namespace RelayLogic.Toml

open Reader

def digits (accepts : Char → Bool) : Reader (List Char) := do
  let first ← one accepts
  let rest ← many (one accepts <|> do
    mark '_'
    one accepts)
  return first :: rest

def sign : Reader (List Char) :=
  (return [← one fun char => char = '+' || char = '-']) <|> return []

def wholeDigits : Reader (List Char) := do
  let taken ← digits Char.isDigit
  guard (taken.length = 1 || taken.head? != some '0')
  return taken

def signedValue (sign digits : List Char) : Int :=
  if sign = ['-'] then -(Decimal.digitsValue digits : Int) else Decimal.digitsValue digits

def decimalInteger : Reader Int := do
  let sign ← sign
  let digits ← wholeDigits
  return signedValue sign digits

def basedInteger (letter : Char) (base : Nat) : Reader Int := do
  marks ['0', letter]
  let taken ← digits fun char => (hexDigit? char).any (· < base)
  return taken.foldl (fun value digit => base * value + (hexDigit? digit).getD 0) (0 : Nat)

def integerLimit : Int := Nat.pow 2 63

def integer : Reader Int := do
  let value ←
    basedInteger 'x' 16 <|> basedInteger 'o' 8 <|> basedInteger 'b' 2 <|> decimalInteger
  guard (-integerLimit ≤ value && value < integerLimit)
  return value

def fraction : Reader (List Char) := do
  mark '.'
  return '.' :: (← digits Char.isDigit)

def exponent : Reader (List Char) := do
  let _ ← one fun char => char = 'e' || char = 'E'
  let sign ← sign
  return 'e' :: sign ++ (← digits Char.isDigit)

def fractionalPart : Reader (List Char) :=
  exponent <|> do
    let fraction ← fraction
    return fraction ++ (← exponent <|> return [])

def infinityBits : UInt64 := 0x7FF0000000000000

/-- Takes a number with fraction or exponent. Digits alone do not make it infinite. -/
def fractional : Reader Float := do
  let text := (← sign) ++ (← wholeDigits) ++ (← fractionalPart)
  match Decimal.read? text with
  | some value =>
    guard (value.toBits != infinityBits)
    return value
  | none => failure

def special : Reader Float := do
  let sign ← sign
  let name ← (do marks "inf".toList; return "inf".toList) <|> do
    marks "nan".toList
    return "nan".toList
  match Decimal.read? (sign ++ name) with
  | some value => return value
  | none => failure

end RelayLogic.Toml
