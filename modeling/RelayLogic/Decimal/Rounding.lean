import RelayLogic.Decimal.Reading

/-!
Rounding to the binary64 format. Numbers are fractions here, so that what arithmetic makes of them
is exact until it is rounded.
-/

namespace RelayLogic.Decimal

/--
The number with 53 significant bits that is nearest to a fraction, of two the one with the even
significand. It is the binary64 number as long as that is neither infinite nor below 2⁻¹⁰²².
-/
def binary64 (value : Rat) : Rat :=
  let exponent := floorLog2 value.num.natAbs value.den - 52
  let (scaled, unit) := scaleBinary value.num.natAbs value.den (-exponent)
  let (num, den) := scaleBinary (roundQuotient scaled unit) 1 exponent
  mkRat (value.num.sign * num) den

end RelayLogic.Decimal
