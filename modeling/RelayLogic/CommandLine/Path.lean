/-!
Names of files as command lines write them: the steps of a path, with a slash between any two.
-/

namespace RelayLogic.CommandLine

def pieces (separator : Char) : List Char → List (List Char)
  | [] => [[]]
  | char :: rest =>
    match pieces separator rest with
    | [] => [[char]]
    | piece :: others =>
      if char = separator then [] :: piece :: others else (char :: piece) :: others

def steps (path : String) : List String :=
  ((pieces '/' path.toList).map String.ofList).filter fun step => step != "" && step != "."

def fileName? (path : String) : Option String := do
  let name ← (steps path).getLast?
  if name = ".." then none else some name

/-- What follows the last dot of a name that has something before that dot. -/
def extension? (path : String) : Option String := do
  let name ← fileName? path
  match ((pieces '.' name.toList).reverse : List (List Char)) with
  | last :: stem :: rest => if rest.isEmpty && stem.isEmpty then none else some (String.ofList last)
  | _ => none

def isNetlist (path : String) : Bool :=
  (extension? path).any fun extension => extension.map Char.toLower = "lgn"

end RelayLogic.CommandLine
