import RelayLogic.Simulator

/-!
Tickers, which step a simulator at a steady pace and hand on every cycle's changes, if there are
any. What they hand on does not depend on the pace.
-/

namespace RelayLogic

structure Ticker where
  simulator : Simulator
  running : Bool
  deriving DecidableEq, Repr

structure Batch where
  cycle : Nat
  changes : List StateChange
  deriving DecidableEq, Repr

abbrev Ticking := EStateM Error Ticker

namespace Ticking

def simulate (simulation : Simulation α) : Ticking α := fun ticker =>
  match simulation ticker.simulator with
  | .ok answer simulator => .ok answer { ticker with simulator := simulator }
  | .error error simulator => .error error { ticker with simulator := simulator }

def start : Ticking Unit := do
  if (← get).running then throw (.ticker .alreadyStarted)
  let _ ← simulate Simulation.compile
  if (← get).simulator.settings.tickPeriod = 0 then throw (.ticker .zeroPeriod)
  modify fun ticker => { ticker with running := true }

def stop : Ticking Unit :=
  modify fun ticker =>
    if ticker.running then ⟨ticker.simulator.reset, false⟩ else ticker

def tick : Ticking Batch := do
  let changes ← simulate Simulation.step
  return ⟨(← get).simulator.cycle, changes⟩

/-- Ticks until a number of batches are handed on, but not more often than `limit` says. -/
def batches : Nat → Nat → Ticking (List Batch)
  | 0, _ => return []
  | _, 0 => return []
  | limit + 1, count + 1 => do
    let batch ← tick
    if batch.changes.isEmpty then batches limit (count + 1)
    else return batch :: (← batches limit count)

end Ticking

end RelayLogic
