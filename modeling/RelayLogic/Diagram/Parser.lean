import RelayLogic.Diagram.Lexer
import RelayLogic.Diagram.Quantity
import RelayLogic.Diagram.Statement
import RelayLogic.Text.Lowercase

/-!
Reading diagrams. The reader looks at one token at a time and always has the current one at hand,
so a text that cannot be split on is refused as soon as the reader moves on to the place.
-/

namespace RelayLogic.Diagram

abbrev Parse := StateT Tokens (Except Error)

namespace Parse

def current : Parse Token := do
  (← get).head

def advance : Parse Unit := do
  modify Tokens.tail
  let _ ← current

def expect (kind : TokenKind) : Parse Token := do
  let token ← current
  if token.kind = kind then
    advance
    return token
  else throw (.statement token.position.line (.expected kind token.kind))

def atLineEnd (kind : TokenKind) : Bool :=
  kind = .newline || kind = .eof

def isWord (kind : TokenKind) : Bool :=
  kind = .identifier || kind = .number

/-- The arguments of a tag: first values, the last of which counts, and properties. -/
def tagArguments (line : Nat) : Nat → Tri → List (String × String) →
    Parse (Tri × List (String × String))
  | 0, initial, properties => return (initial, properties)
  | fuel + 1, initial, properties => do
    let word ← current
    if atLineEnd word.kind then return (initial, properties)
    if !isWord word.kind then throw (.statement line (.tagToken word.text))
    advance
    if (← current).kind = .equals then
      advance
      let value ← current
      if !isWord value.kind then throw (.statement line .missingPropertyValue)
      advance
      tagArguments line fuel initial (putKey (Text.lowercase word.text) value.text properties)
    else
      match Tri.ofName? word.text with
      | some value => tagArguments line fuel value properties
      | none => throw (.statement line (.invalidInitial word.text))

def tag (line : Nat) : Parse TagDecl := do
  let name ← expect .identifier
  let (initial, properties) ← tagArguments line ((← get).length + 1) .unknown []
  return ⟨name.text, initial, properties, line⟩

def directive : Parse Statement := do
  let token ← current
  let line := token.position.line
  advance
  match Text.lowercase token.text with
  | ".solution" => return .solution (← expect .identifier).text
  | ".project" => return .project (← expect .identifier).text
  | ".context" => return .context (← expect .identifier).text line
  | ".tag" => return .tag (← tag line)
  | _ => throw (.statement line (.unknownDirective token.text))

def quantity (line : Nat) (text : String) : Parse Float :=
  match readQuantity? text with
  | some value => return value
  | none => throw (.statement line (.invalidNumber text))

/-- The arguments of a block: numbers by key, one name, one number. -/
def blockArguments : Nat → BlockDecl → Parse BlockDecl
  | 0, block => return block
  | fuel + 1, block => do
    let word ← current
    if atLineEnd word.kind then return block
    advance
    if word.kind = .identifier && (← current).kind = .equals then
      advance
      let text := (← current).text
      advance
      let value ← quantity block.line text
      let key := Text.lowercase word.text
      blockArguments fuel { block with parameters := putKey key value block.parameters }
    else if word.kind = .identifier && block.tag.isNone then
      blockArguments fuel { block with tag := some word.text }
    else if word.kind = .number && block.value.isNone then
      let value ← quantity block.line word.text
      blockArguments fuel { block with value := some value }
    else throw (.invalidBlock block.name block.line (.unexpectedArgument word.text))

def block : Parse BlockDecl := do
  let kind ← current
  advance
  let name ← expect .identifier
  blockArguments ((← get).length + 1) ⟨kind.text, name.text, none, none, [], kind.position.line⟩

def point : Parse PointRef := do
  let inverted := (← current).kind = .bang
  if inverted then advance
  let block ← expect .identifier
  if (← current).kind = .colon then
    advance
    let name ← current
    if isWord name.kind then
      advance
      return ⟨block.text, some name.text, inverted⟩
    else throw (.statement name.position.line .missingPoint)
  else return ⟨block.text, none, inverted⟩

def wire : Parse WireDecl := do
  let word ← current
  advance
  let start ← point
  let stop ← point
  return ⟨start, stop, word.position.line⟩

def statement : Parse Statement := do
  let token ← current
  if token.kind = .directive then directive
  else if token.kind = .identifier then
    if token.text.map Char.toLower = "wire" then return .wire (← wire)
    else return .block (← block)
  else throw (.statement token.position.line (.unexpectedToken token.text))

def endOfLine : Parse Unit := do
  let token ← current
  if token.kind = .newline then advance
  else if token.kind != .eof then
    throw (.statement token.position.line (.trailingToken token.text))

/-- The rest of a diagram; every round takes a token at least. -/
def lines : Nat → Draft → Parse Draft
  | 0, draft => return draft
  | fuel + 1, draft => do
    let token ← current
    if token.kind = .eof then return draft
    else if token.kind = .newline then
      advance
      lines fuel draft
    else
      let read ← statement
      endOfLine
      lines fuel (draft.add read)

end Parse

def ofTokens (tokens : Tokens) : Except Error Diagram := do
  let (draft, _) ← (Parse.lines (tokens.length + 1) .empty).run tokens
  return draft.diagram

def parse (text : String) : Except Error Diagram :=
  ofTokens (tokenize text)

end RelayLogic.Diagram
