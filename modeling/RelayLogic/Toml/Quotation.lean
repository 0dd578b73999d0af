import RelayLogic.Toml.Reader

/-!
Text between quotation marks. Double marks admit escapes and single ones do not; three marks at
once admit newlines and single marks inside.
-/

namespace RelayLogic.Toml

open Reader

def hexDigit? (char : Char) : Option Nat :=
  if char.isDigit then some (char.toNat - '0'.toNat)
  else if 'a' ≤ char && char ≤ 'f' then some (char.toNat - 'a'.toNat + 10)
  else if 'A' ≤ char && char ≤ 'F' then some (char.toNat - 'A'.toNat + 10)
  else none

def hexValue (digits : List Char) : Nat :=
  digits.foldl (fun value digit => 16 * value + (hexDigit? digit).getD 0) 0

def codePoint (digits : Nat) : Reader Char := do
  let taken ← (List.replicate digits (one fun char => (hexDigit? char).isSome)).mapM id
  let code := hexValue taken
  guard code.isValidChar
  return Char.ofNat code

def escape : Reader Char := do
  mark '\\'
  match ← one fun _ => true with
  | 'b' => return '\x08'
  | 't' => return '\t'
  | 'n' => return '\n'
  | 'f' => return '\x0C'
  | 'r' => return '\r'
  | '"' => return '"'
  | '\\' => return '\\'
  | 'u' => codePoint 4
  | 'U' => codePoint 8
  | _ => failure

def continuation : Reader (List Char) := do
  mark '\\'
  blanks
  newline
  let _ ← many (newline <|> discard (one fun char => char = ' ' || char = '\t'))
  return []

def run (accepts : Char → Bool) : Reader (List Char) := do
  let first ← one accepts
  return first :: (← span accepts)

def innerNewline : Reader (List Char) := do
  newline
  return ['\n']

def innerMarks (quote : Char) : Reader (List Char) := do
  let marks ← run (· = quote)
  guard (marks.length ≤ 2 && !(← get).isEmpty)
  return marks

/-- Takes the three marks that end a text. Up to two more before them belong to the text. -/
def closingMarks (quote : Char) : Reader (List Char) := do
  let marks ← run (· = quote)
  guard (3 ≤ marks.length && marks.length ≤ 5)
  return marks.drop 3

def isBasic (char : Char) : Bool :=
  isPlain char && char != '"' && char != '\\'

def isLiteral (char : Char) : Bool :=
  isPlain char && char != '\''

def block (quote : Char) (piece : Reader (List Char)) : Reader String := do
  marks [quote, quote, quote]
  let _ ← optional newline
  let pieces ← many (piece <|> innerNewline <|> innerMarks quote)
  return String.ofList (pieces.flatten ++ (← closingMarks quote))

def quotation (quote : Char) (piece : Reader (List Char)) : Reader String := do
  mark quote
  let pieces ← many piece
  mark quote
  return String.ofList pieces.flatten

def basicPiece : Reader (List Char) :=
  run isBasic <|> (return [← escape])

def lineText : Reader String :=
  quotation '"' basicPiece <|> quotation '\'' (run isLiteral)

def text : Reader String :=
  block '"' (basicPiece <|> continuation) <|> block '\'' (run isLiteral) <|> lineText

end RelayLogic.Toml
