import RelayLogic.Netlist.Entry

/-!
Writing netlists. Records are numbered as they come; a reference is the number of the record that
declares the element, which must not come later. The number of records stands at the end.
-/

namespace RelayLogic

namespace Netlist

abbrev Numbers := List (ElementId × Nat)

/-- The bytes of a field, or the element that it refers to and that has no number. -/
def Field.encode (numbers : Numbers) : Field ElementId → Except ElementId (List UInt8)
  | .byte value => .ok (toBytes 1 value)
  | .word value => .ok (toBytes 4 value)
  | .text value =>
    let bytes := Text.encodeUtf8 value
    .ok (toBytes 4 bytes.length ++ bytes)
  | .reference element =>
    match numbers.lookup element with
    | some number => .ok (toBytes 4 number)
    | none => .error element

/-- The bytes of fields up to the first that has none, and the failure that it means. -/
def encodeFields (numbers : Numbers) : List (Field ElementId) → List UInt8 × Option Error
  | [] => ([], none)
  | field :: rest =>
    match field.encode numbers with
    | .error element => ([], some (.netlist (.unwritten element)))
    | .ok bytes =>
      let (more, failure) := encodeFields numbers rest
      (bytes ++ more, failure)

def encodeEntries (count : Nat) (numbers : Numbers) : Entries → List UInt8 × Option Error
  | [] => (toBytes 4 count, none)
  | .error error :: _ => ([], some error)
  | .ok entry :: rest =>
    let numbered := match entry.element with
      | some element => (element, count) :: numbers
      | none => numbers
    let header := toBytes 2 entry.record.command.code ++ toBytes 4 count
    match encodeFields numbered entry.record.fields with
    | (bytes, some error) => (header ++ bytes, some error)
    | (bytes, none) =>
      let (more, failure) := encodeEntries (count + 1) numbered rest
      (header ++ bytes ++ more, failure)

end Netlist

namespace Circuit

/-- The bytes of a circuit as far as they can be written, and why they end early if they do. -/
def encodePartial (circuit : Circuit) : List UInt8 × Option Error :=
  Netlist.encodeEntries 0 [] circuit.entries

def encode (circuit : Circuit) : Except Error (List UInt8) :=
  match circuit.encodePartial with
  | (bytes, none) => .ok bytes
  | (_, some error) => .error error

end Circuit

end RelayLogic
