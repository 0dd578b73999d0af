import RelayLogic.Decimal.Rounding
import RelayLogic.Seconds

/-!
Simulated time, which advances in whole cycles.
-/

namespace RelayLogic

/-- The cycle that comes a number of cycles after another. Cycles are counted with 64 bits. -/
def cycleAfter (now count : Nat) : Nat :=
  (now + count) % Nat.pow 2 64

structure Clock where
  cycle : Nat
  resolution : Nat
  deriving DecidableEq, Repr

namespace Clock

def new (resolution : Nat) : Clock := ⟨0, resolution⟩

def advance (clock : Clock) : Clock :=
  { clock with cycle := cycleAfter clock.cycle 1 }

/-- The part of a cycle that a delay may exceed without taking one more, since it is rounded. -/
def allowance : Rat := Decimal.binary64 (mkRat 1 1000000)

/--
The cycles that cover a delay, rounded up. A delay that is not positive and finite takes none. Every
operation rounds; none of its results is too large or too small for the binary64 format.
-/
def cyclesFor (clock : Clock) (delay : Seconds) : Nat :=
  if clock.resolution = 0 || !delay.isFinite || !delay.isPositive then 0
  else
    let cycles := Decimal.binary64 (Decimal.binary64 (delay.value * 1000) / clock.resolution)
    min (Decimal.binary64 (cycles - allowance)).ceil.toNat (Nat.pow 2 64 - 1)

def elapsed (clock : Clock) : Float :=
  Float.ofNat clock.cycle * Float.ofNat clock.resolution / 1000.0

end Clock

end RelayLogic
