import RelayLogic.Text.Extending
import RelayLogic.Text.Ignorable

/-!
Quoted text in messages: between double quotes, with escapes for the quote itself, the backslash,
control characters, characters that would join the one before them and invisible ones.
-/

namespace RelayLogic.Text

def hexDigits (code : Nat) : List Char :=
  Nat.toDigits 16 code

def escapeCode (char : Char) : List Char :=
  ['\\', 'u', '\x7b'] ++ hexDigits char.toNat ++ ['\x7d']

def isControl (char : Char) : Bool :=
  char.toNat < 0x20 || (0x7F ≤ char.toNat && char.toNat < 0xA0)

def quoteChar (char : Char) : List Char :=
  match char with
  | '"' => ['\\', '"']
  | '\\' => ['\\', '\\']
  | '\n' => ['\\', 'n']
  | '\r' => ['\\', 'r']
  | '\t' => ['\\', 't']
  | '\x00' => ['\\', '0']
  | _ =>
    if isControl char || isExtending char || isIgnorable char then escapeCode char else [char]

def quoted (text : String) : String :=
  String.ofList ('"' :: text.toList.flatMap quoteChar ++ ['"'])

end RelayLogic.Text
