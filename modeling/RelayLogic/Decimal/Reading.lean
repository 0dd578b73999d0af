/-!
Reading decimal numbers. The number read is the binary64 value nearest to the decimal one; of two
that are equally near it is the one with the even significand.
-/

namespace RelayLogic.Decimal

def roundQuotient (num den : Nat) : Nat :=
  let quotient := num / den
  let twice := 2 * (num % den)
  if den < twice || (twice = den && quotient % 2 = 1) then quotient + 1 else quotient

def scaleBinary (num den : Nat) (exponent : Int) : Nat × Nat :=
  if 0 ≤ exponent then (num * Nat.pow 2 exponent.toNat, den)
  else (num, den * Nat.pow 2 (-exponent).toNat)

/-- The exponent of the greatest power of two that is not above a positive fraction. -/
def floorLog2 (num den : Nat) : Int :=
  let guess : Int := (num.log2 : Int) - den.log2
  let (scaled, unit) := scaleBinary num den (-guess)
  if unit ≤ scaled then guess else guess - 1

/--
The bits of the binary64 value nearest to a positive fraction. The exponent field counts steps of
2⁵² above the least exponent, so a significand that rounds up to 2⁵³ carries into it by itself.
-/
def nearestBits (num den : Nat) : Nat :=
  let exponent := max (floorLog2 num den - 52) (-1074)
  let (scaled, unit) := scaleBinary num den (-exponent)
  min ((exponent + 1074).toNat * Nat.pow 2 52 + roundQuotient scaled unit) 0x7FF0000000000000

/--
The bits of the binary64 value nearest to `significand · 10 ^ exponent`. Beyond `limit` the value
is infinite or zero whatever the digits are.
-/
def scientificBits (significand : Nat) (exponent : Int) : Nat :=
  let limit : Int := 400
  let magnitude : Int := exponent + (Nat.toDigits 10 significand).length
  if significand = 0 || magnitude < -limit then 0
  else if limit < magnitude then 0x7FF0000000000000
  else if 0 ≤ exponent then nearestBits (significand * Nat.pow 10 exponent.toNat) 1
  else nearestBits significand (Nat.pow 10 (-exponent).toNat)

def digitsValue (digits : List Char) : Nat :=
  digits.foldl (fun value digit => 10 * value + (digit.toNat - '0'.toNat)) 0

def takeSign : List Char → Bool × List Char
  | '-' :: rest => (true, rest)
  | '+' :: rest => (false, rest)
  | rest => (false, rest)

def readExponent? : List Char → Option Int
  | [] => some 0
  | mark :: rest =>
    if mark = 'e' || mark = 'E' then
      let (negative, digits) := takeSign rest
      if digits.isEmpty || !digits.all Char.isDigit then none
      else if negative then some (-(digitsValue digits : Int))
      else some (digitsValue digits)
    else none

def readMagnitude? (text : List Char) : Option Nat := do
  let whole := text.takeWhile Char.isDigit
  let afterWhole := text.dropWhile Char.isDigit
  let (fraction, rest) := match afterWhole with
    | '.' :: tail => (tail.takeWhile Char.isDigit, tail.dropWhile Char.isDigit)
    | _ => ([], afterWhole)
  if whole.isEmpty && fraction.isEmpty then none
  else
    let exponent ← readExponent? rest
    return scientificBits (digitsValue (whole ++ fraction)) (exponent - fraction.length)

/-- Reads a number with an optional sign; `inf`, `infinity` and `nan` are numbers in any case. -/
def read? (text : List Char) : Option Float :=
  let (negative, rest) := takeSign text
  let magnitude := match String.ofList (rest.map Char.toLower) with
    | "inf" | "infinity" => some 0x7FF0000000000000
    | "nan" => some 0x7FF8000000000000
    | _ => readMagnitude? rest
  magnitude.map fun bits =>
    Float.ofBits (UInt64.ofNat (if negative then bits + Nat.pow 2 63 else bits))

end RelayLogic.Decimal
