/-!
The shortest decimal text of a binary fraction: the fewest digits that lie nearer to the number
than to any of its neighbours, and of those the nearest to the number itself.
-/

namespace RelayLogic.Decimal

structure Scientific where
  digits : Nat
  exponent : Int
  deriving DecidableEq, Repr

/--
A positive number with the interval of numbers that are read back as it, all counted in units of
one over `unit`. The ends belong to the interval where `closed` says so.
-/
structure Interval where
  low : Nat
  value : Nat
  high : Nat
  unit : Nat
  closed : Bool
  deriving DecidableEq, Repr

def Interval.scaled (interval : Interval) (exponent : Int) : Interval × Nat :=
  if 0 ≤ exponent then (interval, interval.unit * Nat.pow 10 exponent.toNat)
  else
    let factor := Nat.pow 10 (-exponent).toNat
    ({ interval with
        low := interval.low * factor, value := interval.value * factor,
        high := interval.high * factor }, interval.unit)

def Interval.admits (interval : Interval) (number : Nat) : Bool :=
  if interval.closed then interval.low ≤ number && number ≤ interval.high
  else interval.low < number && number < interval.high

/--
The multiple of `10 ^ exponent` in the interval that is nearest to the value. Where two are equally
near, it is the greater.
-/
def Interval.nearest? (interval : Interval) (exponent : Int) : Option Scientific :=
  let (scaled, step) := interval.scaled exponent
  let below := scaled.value / step
  let above := below + 1
  match scaled.admits (below * step), scaled.admits (above * step) with
  | false, false => none
  | true, false => some ⟨below, exponent⟩
  | false, true => some ⟨above, exponent⟩
  | true, true =>
    if scaled.value - below * step < above * step - scaled.value then some ⟨below, exponent⟩
    else some ⟨above, exponent⟩

/-- The first hit on grids that become finer tenfold, `steps` of them from `10 ^ exponent` on. -/
def Interval.search (interval : Interval) : Nat → Int → Option Scientific
  | 0, _ => none
  | steps + 1, exponent =>
    match interval.nearest? exponent with
    | some found => some found
    | none => interval.search steps (exponent - 1)

def Scientific.positional (number : Scientific) : String :=
  if 0 ≤ number.exponent then toString (number.digits * Nat.pow 10 number.exponent.toNat)
  else
    let places := (-number.exponent).toNat
    let scale := Nat.pow 10 places
    let fraction := Nat.toDigits 10 (number.digits % scale)
    let padded := List.replicate (places - fraction.length) '0' ++ fraction
    let kept := (padded.reverse.dropWhile (· == '0')).reverse
    let whole := toString (number.digits / scale)
    if kept.isEmpty then whole else whole ++ "." ++ String.ofList kept

end RelayLogic.Decimal
