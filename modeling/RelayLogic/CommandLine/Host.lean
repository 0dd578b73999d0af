/-!
What a command needs from the machine that it runs on. Whatever runs commands supplies it, so that
they can be run on files and time that are only imagined.
-/

namespace RelayLogic.CommandLine

structure Host (m : Type → Type) where
  readFile : String → m (Option (List UInt8))
  writeFile : String → List UInt8 → m Bool
  print : String → m Unit
  wait : Nat → m Unit

end RelayLogic.CommandLine
