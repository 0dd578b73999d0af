import RelayLogic.Clock
import RelayLogic.Tri

/-!
Timers, which count whole cycles. The cycle in which an edge is first seen is the first that
counts. An unknown enable input gives an unknown output and makes the timer forget what it counts.
-/

namespace RelayLogic

structure OnDelay where
  cycles : Nat
  /-- The cycle from which on the output is true, while the enable input is. -/
  due : Option Nat
  deriving DecidableEq, Repr

namespace OnDelay

def new (cycles : Nat) : OnDelay := ⟨cycles, none⟩

def step (timer : OnDelay) (now : Nat) : Tri → Tri × OnDelay
  | .true =>
    let due := timer.due.getD (cycleAfter now (timer.cycles - 1))
    (.ofBool (due ≤ now), { timer with due := some due })
  | .false => (.false, { timer with due := none })
  | .unknown => (.unknown, { timer with due := none })

end OnDelay

structure OffDelay where
  cycles : Nat
  output : Tri
  /-- The cycle from which on the output is false again. -/
  due : Option Nat
  deriving DecidableEq, Repr

namespace OffDelay

def new (cycles : Nat) : OffDelay := ⟨cycles, .false, none⟩

def step (timer : OffDelay) (now : Nat) : Tri → Tri × OffDelay
  | .true => (.true, { timer with output := .true, due := none })
  | .false =>
    if timer.output = .true then
      let due := timer.due.getD (cycleAfter now timer.cycles)
      if due ≤ now then (.false, { timer with output := .false, due := none })
      else (.true, { timer with output := .true, due := some due })
    else (.false, { timer with output := .false })
  | .unknown => (.unknown, { timer with output := .unknown, due := none })

end OffDelay

structure Pulse where
  cycles : Nat
  armed : Bool
  /-- The cycle that the open window ends before. -/
  ends : Option Nat
  deriving DecidableEq, Repr

namespace Pulse

def new (cycles : Nat) : Pulse := ⟨cycles, false, none⟩

def window (timer : Pulse) (now : Nat) : Tri × Pulse :=
  match timer.ends with
  | some ends => if now < ends then (.true, timer) else (.false, { timer with ends := none })
  | none => (.false, timer)

def step (timer : Pulse) (now : Nat) : Tri → Tri × Pulse
  | .true =>
    let opened :=
      if timer.armed && timer.ends.isNone then some (cycleAfter now timer.cycles) else timer.ends
    { timer with armed := false, ends := opened }.window now
  | .false => { timer with armed := true }.window now
  | .unknown => (.unknown, { timer with armed := false, ends := none })

end Pulse

end RelayLogic
