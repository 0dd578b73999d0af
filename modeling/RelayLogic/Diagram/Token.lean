/-!
The words and marks that a diagram's text is made of.
-/

namespace RelayLogic.Diagram

inductive TokenKind
  | identifier
  | number
  | directive
  | colon
  | bang
  | equals
  | newline
  | eof
  deriving DecidableEq, Repr

def TokenKind.name : TokenKind → String
  | .identifier => "Identifier"
  | .number => "Number"
  | .directive => "Directive"
  | .colon => "Colon"
  | .bang => "Bang"
  | .equals => "Equals"
  | .newline => "Newline"
  | .eof => "Eof"

/-- A place in a text: line and column, both counted from one, columns in characters. -/
structure Position where
  line : Nat
  column : Nat
  deriving DecidableEq, Repr

def Position.first : Position := ⟨1, 1⟩

def Position.next (position : Position) (char : Char) : Position :=
  if char = '\n' then ⟨position.line + 1, 1⟩ else ⟨position.line, position.column + 1⟩

def Position.advance (position : Position) (text : List Char) : Position :=
  text.foldl Position.next position

structure Token where
  kind : TokenKind
  text : String
  position : Position
  deriving DecidableEq, Repr

end RelayLogic.Diagram
