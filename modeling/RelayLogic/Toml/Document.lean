import RelayLogic.Toml.Moment
import RelayLogic.Toml.Numeral

/-!
Reading documents. A document is a sequence of lines; each of them says one thing or nothing.
-/

namespace RelayLogic.Toml

open Reader

def isNameChar (char : Char) : Bool :=
  char.isAlphanum || char = '_' || char = '-'

def name : Reader String := do
  blanks
  let name ← lineText <|> (return String.ofList (← run isNameChar))
  blanks
  return name

def nestingLimit : Nat := 127

def key : Reader Key := do
  let (first, rest) ← separated '.' name
  guard (rest.length < nestingLimit)
  return Key.ofNames first rest

def boolean : Reader Bool :=
  (do marks "true".toList; return true) <|> do
    marks "false".toList
    return false

def plainValue : Reader Value :=
  (return .text (← text)) <|>
  (do moment; return .moment) <|>
  (return .number (← fractional)) <|>
  (return .number (← special)) <|>
  (return .integer (← integer)) <|>
  (return .boolean (← boolean))

def array (value : Reader Value) : Reader Value := do
  mark '['
  let items ← optional do
    let items ← separated ',' do
      gap
      let item ← value
      gap
      return item
    let _ ← optional (mark ',')
    return items.1 :: items.2
  gap
  mark ']'
  return .array (items.getD [])

def pair (value : Reader Value) : Reader (Key × Value) := do
  let key ← key
  mark '='
  blanks
  let value ← value
  blanks
  return (key, value)

def bracedTable (value : Reader Value) : Reader Value := do
  mark '\x7b'
  let pairs ← optional (separated ',' (pair value))
  blanks
  mark '\x7d'
  let pairs := match pairs with
    | some (first, rest) => first :: rest
    | none => []
  match Entries.ofPairs pairs with
  | some entries => return .table .braced entries
  | none => failure

def value : Nat → Reader Value
  | 0 => plainValue
  | depth + 1 => plainValue <|> array (value depth) <|> bracedTable (value depth)

def elementHeader : Reader Key := do
  marks ['[', '[']
  let key ← key
  marks [']', ']']
  return key

def tableHeader : Reader Key := do
  mark '['
  let key ← key
  mark ']'
  return key

def statement : Reader Statement :=
  (return .element (← elementHeader)) <|>
  (return .header (← tableHeader)) <|> do
    let (key, value) ← pair (value nestingLimit)
    return .pair key value

def line : Reader (Option Statement) := do
  blanks
  let statement ← optional statement
  blanks
  let _ ← optional comment
  return statement

def document : Reader (List Statement) := do
  let _ ← optional (mark '\uFEFF')
  let lines ← many do
    let line ← line
    newline
    return line
  let last ← line
  atEnd
  return (lines ++ [last]).filterMap id

def parse? (text : String) : Option Entries := do
  let (statements, _) ← document text.toList
  Entries.ofStatements statements

end RelayLogic.Toml
