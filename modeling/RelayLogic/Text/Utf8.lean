/-!
Text as bytes. A character takes one to four bytes, and only the shortest form of each is text.
-/

namespace RelayLogic.Text

structure Utf8Error where
  validUpTo : Nat
  /-- The length of the faulty sequence, or none where the bytes end inside a character. -/
  length : Option Nat
  deriving DecidableEq, Repr

def Utf8Error.message (error : Utf8Error) : String :=
  match error.length with
  | some length =>
    "invalid utf-8 sequence of " ++ toString length ++ " bytes from index " ++
      toString error.validUpTo
  | none => "incomplete utf-8 byte sequence from index " ++ toString error.validUpTo

structure PartialChar where
  start : Nat
  taken : Nat
  owed : Nat
  low : UInt8
  high : UInt8
  code : Nat
  deriving DecidableEq, Repr

/-- What a first byte above the one-byte range starts, or none if no character starts with it. -/
def PartialChar.ofLead? (start : Nat) (lead : UInt8) : Option PartialChar :=
  if 0xC2 ≤ lead && lead ≤ 0xDF then some ⟨start, 1, 1, 0x80, 0xBF, lead.toNat - 0xC0⟩
  else if lead == 0xE0 then some ⟨start, 1, 2, 0xA0, 0xBF, 0⟩
  else if lead == 0xED then some ⟨start, 1, 2, 0x80, 0x9F, 0xD⟩
  else if 0xE1 ≤ lead && lead ≤ 0xEF then some ⟨start, 1, 2, 0x80, 0xBF, lead.toNat - 0xE0⟩
  else if lead == 0xF0 then some ⟨start, 1, 3, 0x90, 0xBF, 0⟩
  else if 0xF1 ≤ lead && lead ≤ 0xF3 then some ⟨start, 1, 3, 0x80, 0xBF, lead.toNat - 0xF0⟩
  else if lead == 0xF4 then some ⟨start, 1, 3, 0x80, 0x8F, 4⟩
  else none

def PartialChar.extend (char : PartialChar) (byte : UInt8) : PartialChar where
  start := char.start
  taken := char.taken + 1
  owed := char.owed - 1
  low := 0x80
  high := 0xBF
  code := char.code * 64 + (byte.toNat - 0x80)

def decodeUtf8From (offset : Nat) : Option PartialChar → List UInt8 → Except Utf8Error (List Char)
  | none, [] => .ok []
  | some char, [] => .error ⟨char.start, none⟩
  | none, byte :: rest =>
    if byte < 0x80 then do
      let chars ← decodeUtf8From (offset + 1) none rest
      return Char.ofNat byte.toNat :: chars
    else
      match PartialChar.ofLead? offset byte with
      | some char => decodeUtf8From (offset + 1) (some char) rest
      | none => .error ⟨offset, some 1⟩
  | some char, byte :: rest =>
    if char.low ≤ byte && byte ≤ char.high then
      let longer := char.extend byte
      if longer.owed = 0 then do
        let chars ← decodeUtf8From (offset + 1) none rest
        return Char.ofNat longer.code :: chars
      else decodeUtf8From (offset + 1) (some longer) rest
    else .error ⟨char.start, some char.taken⟩

def decodeUtf8 (bytes : List UInt8) : Except Utf8Error String := do
  let chars ← decodeUtf8From 0 none bytes
  return String.ofList chars

def encodeUtf8 (text : String) : List UInt8 :=
  text.toUTF8.toList

end RelayLogic.Text
