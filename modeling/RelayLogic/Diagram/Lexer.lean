import RelayLogic.Error
import RelayLogic.Text.Alphanumeric

/-!
Splitting a diagram's text into tokens. Between two tokens stand blanks and comments; a token is
the longest piece of text of its class that starts where the gap ends.
-/

namespace RelayLogic.Diagram

def isSpace (char : Char) : Bool :=
  char = ' ' || char = '\t' || char = '\r'

def isCommentMark (char : Char) : Bool :=
  char = '#' || char = ';'

/-- Splits off the blanks and comments at the front of a text that may start inside a comment. -/
def takeGap : Bool → List Char → List Char × List Char
  | _, [] => ([], [])
  | true, char :: rest =>
    if char = '\n' then ([], char :: rest)
    else
      let (gap, after) := takeGap true rest
      (char :: gap, after)
  | false, char :: rest =>
    if isSpace char || isCommentMark char then
      let (gap, after) := takeGap (isCommentMark char) rest
      (char :: gap, after)
    else ([], char :: rest)

def isNameStart (char : Char) : Bool :=
  Text.isAlphanumeric char || char = '_'

def isNameRest (char : Char) : Bool :=
  isNameStart char || char = '-'

def takeName : List Char → List Char × List Char
  | [] => ([], [])
  | char :: rest =>
    if isNameStart char then (char :: rest.takeWhile isNameRest, rest.dropWhile isNameRest)
    else ([], char :: rest)

def takeOne (accepts : Char → Bool) : List Char → List Char × List Char
  | [] => ([], [])
  | char :: rest => if accepts char then ([char], rest) else ([], char :: rest)

def takeMarked (accepts : Char → Bool) (tail : List Char → List Char × List Char) :
    List Char → List Char × List Char
  | [] => ([], [])
  | char :: rest =>
    if accepts char then
      let (taken, after) := tail rest
      (char :: taken, after)
    else ([], char :: rest)

def takeBoth (first second : List Char → List Char × List Char) (text : List Char) :
    List Char × List Char :=
  let (taken, middle) := first text
  let (more, rest) := second middle
  (taken ++ more, rest)

def isSign (char : Char) : Bool :=
  char = '-' || char = '+'

def isExponentMark (char : Char) : Bool :=
  char = 'e' || char = 'E'

def isScale (char : Char) : Bool :=
  char = 'u' || char = 'm' || char = 'k'

def takeDigits (text : List Char) : List Char × List Char :=
  (text.takeWhile Char.isDigit, text.dropWhile Char.isDigit)

def takeUnit : List Char → List Char × List Char
  | 's' :: rest => (['s'], rest)
  | text => takeMarked isScale (takeOne (· = 's')) text

/-- Splits off a number: sign, digits, point and digits, exponent, unit, each of them optional. -/
def takeNumber : List Char → List Char × List Char :=
  takeBoth (takeOne isSign) <|
  takeBoth takeDigits <|
  takeBoth (takeMarked (· = '.') takeDigits) <|
  takeBoth (takeMarked isExponentMark (takeBoth (takeOne isSign) takeDigits)) takeUnit

inductive Scan
  | ends
  | fault (fault : LexicalFault)
  | lexeme (kind : TokenKind) (text rest : List Char)
  deriving Repr

def scan : List Char → Scan
  | [] => .ends
  | char :: rest =>
    match char with
    | '\n' => .lexeme .newline [char] rest
    | ':' => .lexeme .colon [char] rest
    | '!' => .lexeme .bang [char] rest
    | '=' => .lexeme .equals [char] rest
    | '.' =>
      let (name, after) := takeName rest
      if name.isEmpty then .fault .emptyDirective else .lexeme .directive (char :: name) after
    | _ =>
      if isSign char || char.isDigit then
        let (number, after) := takeNumber (char :: rest)
        .lexeme .number number after
      else if Text.isAlphabetic char || char = '_' then
        let (name, after) := takeName (char :: rest)
        .lexeme .identifier name after
      else .fault (.unexpectedCharacter char)

inductive Tokens
  | ends (position : Position)
  | fails (position : Position) (fault : LexicalFault)
  | next (token : Token) (rest : Tokens)
  deriving Repr

/-- The tokens of a text that starts at a given place; each of them takes a character at least. -/
def tokensFrom : Nat → Position → List Char → Tokens
  | 0, position, _ => .ends position
  | fuel + 1, position, text =>
    let (gap, rest) := takeGap false text
    let start := position.advance gap
    match scan rest with
    | .ends => .ends start
    | .fault fault => .fails start fault
    | .lexeme kind lexeme after =>
      .next ⟨kind, String.ofList lexeme, start⟩ (tokensFrom fuel (start.advance lexeme) after)

def tokenize (text : String) : Tokens :=
  tokensFrom (text.toList.length + 1) .first text.toList

namespace Tokens

def length : Tokens → Nat
  | ends _ => 0
  | fails _ _ => 0
  | next _ rest => rest.length + 1

def toList : Tokens → List Token
  | ends position => [⟨.eof, "", position⟩]
  | fails _ _ => []
  | next token rest => token :: rest.toList

def fault? : Tokens → Option Error
  | ends _ => none
  | fails position fault => some (.lexical position fault)
  | next _ rest => rest.fault?

def head : Tokens → Except Error Token
  | ends position => .ok ⟨.eof, "", position⟩
  | fails position fault => .error (.lexical position fault)
  | next token _ => .ok token

/-- The tokens after the first; the end is followed by itself. -/
def tail : Tokens → Tokens
  | next _ rest => rest
  | tokens => tokens

end Tokens

end RelayLogic.Diagram
