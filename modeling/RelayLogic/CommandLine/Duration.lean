import RelayLogic.Decimal.Reading

/-!
Spans of real time, in nanoseconds.
-/

namespace RelayLogic.CommandLine

def second : Nat := 1000000000

def millisecond : Nat := 1000000

/--
The nanoseconds nearest to a number of seconds. A number that is negative, not finite, or too great
for a 64-bit count of seconds is no span of time.
-/
def nanoseconds? (seconds : Float) : Option Nat :=
  let bits := seconds.toBits.toNat
  let exponentField := bits / Nat.pow 2 52 % Nat.pow 2 11
  let fractionField := bits % Nat.pow 2 52
  let significand := if exponentField = 0 then fractionField else fractionField + Nat.pow 2 52
  let (num, den) := Decimal.scaleBinary significand 1 (((max exponentField 1 : Nat) : Int) - 1075)
  if exponentField = Nat.pow 2 11 - 1 then none
  else if Nat.pow 2 63 ≤ bits && significand != 0 then none
  else if Nat.pow 2 64 * den ≤ num then none
  else some (Decimal.roundQuotient (num * second) den)

end RelayLogic.CommandLine
