import RelayLogic.Decimal.Shortest

/-!
Durations of timers: a binary32 number of seconds, kept as its bits so that every value can be
stored and read back unchanged.
-/

namespace RelayLogic

structure Seconds where
  bits : UInt32
  deriving DecidableEq, Repr, Inhabited

namespace Seconds

open Float.Model in
def ofFloat (value : Float) : Seconds :=
  let rounded := match UnpackedFloat.unpack .binary64 value.toBits.toBitVec with
    | .finite sign significand exponent _ =>
      UnpackedFloat.round .binary32 sign significand exponent
    | special => special
  ⟨.ofBitVec (rounded.pack .binary32)⟩

def signed (seconds : Seconds) : Bool :=
  Nat.pow 2 31 ≤ seconds.bits.toNat

def exponentField (seconds : Seconds) : Nat :=
  seconds.bits.toNat / Nat.pow 2 23 % Nat.pow 2 8

def fractionField (seconds : Seconds) : Nat :=
  seconds.bits.toNat % Nat.pow 2 23

def isFinite (seconds : Seconds) : Bool :=
  seconds.exponentField != 255

def isNaN (seconds : Seconds) : Bool :=
  seconds.exponentField == 255 && seconds.fractionField != 0

def isZero (seconds : Seconds) : Bool :=
  seconds.exponentField == 0 && seconds.fractionField == 0

def isNegative (seconds : Seconds) : Bool :=
  seconds.signed && !seconds.isZero && !seconds.isNaN

def isPositive (seconds : Seconds) : Bool :=
  !seconds.signed && !seconds.isZero && !seconds.isNaN

/-- The magnitude of a finite number is `significand · 2 ^ scale` in units of 2⁻¹⁴⁹. -/
def significand (seconds : Seconds) : Nat :=
  if seconds.exponentField = 0 then seconds.fractionField
  else seconds.fractionField + Nat.pow 2 23

def scale (seconds : Seconds) : Nat :=
  seconds.exponentField - 1

def value (seconds : Seconds) : Rat :=
  let magnitude := mkRat (seconds.significand * Nat.pow 2 seconds.scale) (Nat.pow 2 149)
  if seconds.signed then -magnitude else magnitude

/--
The numbers that round to a finite number's magnitude, in units of 2⁻¹⁵¹. Below the least
significand of an exponent the neighbour is only half as far away.
-/
def interval (seconds : Seconds) : Decimal.Interval :=
  let half := Nat.pow 2 (seconds.scale + 1)
  let value := 4 * seconds.significand * Nat.pow 2 seconds.scale
  let narrow := seconds.fractionField = 0 && 1 < seconds.exponentField
  { low := if narrow then value - half / 2 else value - half
    value := value
    high := value + half
    unit := Nat.pow 2 151
    closed := seconds.significand % 2 = 0 }

/-- The shortest decimal text that is read back as the number, always positional. -/
def text (seconds : Seconds) : String :=
  if seconds.isNaN then "NaN"
  else
    let magnitude :=
      if !seconds.isFinite then "inf"
      else if seconds.isZero then "0"
      else
        match seconds.interval.search 100 38 with
        | some number => number.positional
        | none => ""
    if seconds.signed then "-" ++ magnitude else magnitude

end Seconds

end RelayLogic
