import RelayLogic.CommandLine.Host
import RelayLogic.CommandLine.Path

/-!
A working directory in memory, and commands run in it. Directories exist as far as files are in
them, and waiting takes no time.
-/

namespace RelayLogic.CommandLine

structure Directory where
  files : List (List String × List UInt8)
  printed : String

namespace Directory

def place? (path : String) : Option (List String) :=
  let written := (pieces '/' path.toList).map String.ofList
  let last := written.getLastD ""
  if written.length ≠ 1 && written.head? = some "" then none
  else if last = "" || last = "." || written.contains ".." then none
  else some (steps path)

/-- Whether there is a directory at a place: the working directory, or one with a file in it. -/
def isDirectory (directory : Directory) (place : List String) : Bool :=
  place.isEmpty ||
    directory.files.any fun (file, _) => place.isPrefixOf file && place.length < file.length

def content? (directory : Directory) (path : String) : Option (List UInt8) := do
  let place ← place? path
  directory.files.lookup place

def put? (directory : Directory) (path : String) (bytes : List UInt8) : Option Directory := do
  let place ← place? path
  guard (directory.isDirectory place.dropLast && !directory.isDirectory place)
  return { directory with
    files := (place, bytes) :: directory.files.filter fun (file, _) => file != place }

def ofFiles (files : List (String × List UInt8)) : Directory :=
  ⟨files.map fun (name, bytes) => (steps name, bytes), ""⟩

def host : Host (StateM Directory) where
  readFile path := return (← get).content? path
  writeFile path bytes := do
    match (← get).put? path bytes with
    | some directory =>
      set directory
      return true
    | none => return false
  print text := modify fun directory => { directory with printed := directory.printed ++ text }
  wait _ := return ()

end Directory

end RelayLogic.CommandLine
