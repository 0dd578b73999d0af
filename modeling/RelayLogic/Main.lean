import RelayLogic.CommandLine.Run

/-!
The command line.
-/

namespace RelayLogic.CommandLine

/-- Waits for a number of nanoseconds, in parts that a single sleep can last. -/
def pause (nanoseconds : Nat) : IO Unit := do
  let longest := Nat.pow 2 31
  let milliseconds := nanoseconds / millisecond
  for _ in [0 : milliseconds / longest] do
    IO.sleep (UInt32.ofNat longest)
  IO.sleep (UInt32.ofNat (milliseconds % longest))

def machine : Host IO where
  readFile path := do
    try
      let bytes ← IO.FS.readBinFile path
      return some bytes.toList
    catch _ => return none
  writeFile path bytes := do
    try
      IO.FS.writeBinFile path ⟨bytes.toArray⟩
      return true
    catch _ => return false
  print text := do
    IO.print text
    (← IO.getStdout).flush
  wait := pause

end RelayLogic.CommandLine

open RelayLogic.CommandLine in
def main (arguments : List String) : IO UInt32 := do
  let outcome ← run machine arguments
  match outcome with
  | .success => pure ()
  | .failure error => IO.eprintln ("error: " ++ error.message)
  | .misuse => IO.eprint usage
  return UInt32.ofNat outcome.code
