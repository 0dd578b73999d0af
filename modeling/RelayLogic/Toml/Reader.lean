/-!
Reading pieces of a text. A reader takes characters from the front of the text or fails, and then
nothing is taken.
-/

namespace RelayLogic.Toml

abbrev Reader := StateT (List Char) Option

namespace Reader

def one (accepts : Char → Bool) : Reader Char := fun text =>
  match text with
  | char :: rest => if accepts char then some (char, rest) else none
  | [] => none

def span (accepts : Char → Bool) : Reader (List Char) := fun text =>
  some (text.takeWhile accepts, text.dropWhile accepts)

def mark (wanted : Char) : Reader Unit := do
  let _ ← one (· = wanted)

def marks : List Char → Reader Unit
  | [] => return ()
  | wanted :: rest => do
    mark wanted
    marks rest

/-- Takes what `reader` takes as often as it is there, but at most once for each item of `limit`. -/
def repeated (reader : Reader α) : List β → Reader (List α)
  | [] => return []
  | _ :: limit =>
    (do
      let item ← reader
      let items ← repeated reader limit
      return item :: items) <|> return []

def many (reader : Reader α) : Reader (List α) := do
  repeated reader (← get)

def separated (separator : Char) (reader : Reader α) : Reader (α × List α) := do
  let first ← reader
  let rest ← many do
    mark separator
    reader
  return (first, rest)

def atEnd : Reader Unit := do
  guard (← get).isEmpty

def blanks : Reader Unit := do
  let _ ← span fun char => char = ' ' || char = '\t'

def newline : Reader Unit :=
  marks ['\r', '\n'] <|> mark '\n'

def isPlain (char : Char) : Bool :=
  0x20 ≤ char.toNat && char.toNat != 0x7F || char = '\t'

def comment : Reader Unit := do
  mark '#'
  let _ ← span isPlain

def gap : Reader Unit := do
  blanks
  let _ ← many do
    newline <|> comment
    blanks

end Reader

end RelayLogic.Toml
