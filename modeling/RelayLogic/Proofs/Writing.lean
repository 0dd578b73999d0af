import RelayLogic.Netlist.Encode
import RelayLogic.Proofs.Reading

/-!
What is written of a circuit whose entries refer to earlier ones alone: the records, with the
number of a record in place of each element.
-/

namespace RelayLogic.Netlist

def Field.map (view : ref → ref') : Field ref → Field ref'
  | .byte value => .byte value
  | .word value => .word value
  | .text value => .text value
  | .reference target => .reference (view target)

def Record.map (view : ref → ref') : Record ref → Record ref'
  | .solution => .solution
  | .project => .project
  | .context => .context
  | .pin => .pin
  | .signal pins => .signal (pins.map view)
  | .gate kind pins => .gate kind (pins.map view)
  | .timer kind pins delay => .timer kind (pins.map view) delay
  | .connect start stop invertStart invertStop =>
    .connect (view start) (view stop) invertStart invertStop
  | .tag name initial => .tag name initial
  | .bindTag mapped onto => .bindTag (view mapped) (view onto)

def Record.references : Record ref → List ref
  | .signal pins | .gate _ pins | .timer _ pins _ => pins
  | .connect start stop _ _ => [start, stop]
  | .bindTag mapped onto => [mapped, onto]
  | _ => []

theorem Record.command_map (view : ref → ref') (record : Record ref) :
    (record.map view).command = record.command := by
  cases record <;> rfl

theorem Record.fields_map (view : ref → ref') (record : Record ref) :
    (record.map view).fields = record.fields.map (Field.map view) := by
  cases record <;> simp [Record.map, fields, Field.map]

theorem Record.mem_references {record : Record ref} {target : ref}
    (member : .reference target ∈ record.fields) : target ∈ record.references := by
  cases record <;> simp_all [fields, references]

variable {view : ElementId → Nat} {numbers : Numbers}

theorem encodeFields_ok {fields : List (Field ElementId)}
    (known : ∀ target, .reference target ∈ fields → numbers.lookup target = some (view target)) :
    encodeFields numbers fields = ((fields.map (Field.map view)).flatMap Field.bytes, none) := by
  induction fields with
  | nil => rfl
  | cons field fields ih =>
      have rest := ih fun target member => known target (List.mem_cons_of_mem _ member)
      have first : field.encode numbers = .ok (Field.bytes (field.map view)) := by
        cases field with
        | reference target =>
            simp only [Field.encode, known target List.mem_cons_self, Field.map, Field.bytes]
        | _ => rfl
      simp only [encodeFields, first, rest, List.map_cons, List.flatMap_cons]

def Entry.number (entry : Entry) (count : Nat) (numbers : Numbers) : Numbers :=
  match entry.element with
  | some element => (element, count) :: numbers
  | none => numbers

theorem encodeEntries_cons {entry : Entry} {entries : Entries} {count : Nat}
    {bytes more : List UInt8}
    (fields : encodeFields (entry.number count numbers) entry.record.fields = (bytes, none))
    (rest : encodeEntries (count + 1) (entry.number count numbers) entries = (more, none)) :
    encodeEntries count numbers (.ok entry :: entries) =
      (toBytes 2 entry.record.command.code ++ toBytes 4 count ++ bytes ++ more, none) := by
  obtain ⟨element, record⟩ := entry
  cases element with
  | none =>
      simp only [Entry.number] at fields rest
      simp only [encodeEntries, fields, rest]
  | some element =>
      simp only [Entry.number] at fields rest
      simp only [encodeEntries, fields, rest]

/-- Whether entries refer to what is known or declared by the same or an earlier entry. -/
def Closed (known : List ElementId) : List Entry → Prop
  | [] => True
  | entry :: rest =>
    (∀ target ∈ entry.record.references, target ∈ known ++ entry.element.toList) ∧
      Closed (known ++ entry.element.toList) rest

/-- Entries are written when their references are closed and `view` numbers what they declare. -/
theorem encodeEntries_ok {entries : List Entry} {count : Nat} {known : List ElementId}
    (closed : Closed known entries)
    (knows : ∀ target ∈ known, numbers.lookup target = some (view target))
    (numbered : ∀ index entry, entries[index]? = some entry →
      ∀ id ∈ entry.element, view id = count + index) :
    encodeEntries count numbers (entries.map .ok) =
      (recordsBytes count (entries.map fun entry => entry.record.map view) ++
        toBytes 4 (count + entries.length), none) := by
  induction entries generalizing count numbers known with
  | nil => rfl
  | cons entry entries ih =>
      obtain ⟨targets, closedRest⟩ := closed
      have knowsGrown : ∀ target ∈ known ++ entry.element.toList,
          (entry.number count numbers).lookup target = some (view target) := by
        intro target member
        cases declares : entry.element with
        | none =>
            simp only [declares, Option.toList_none, List.append_nil] at member
            simp only [Entry.number, declares]
            exact knows target member
        | some element =>
            have number : view element = count := numbered 0 entry rfl element declares
            simp only [declares, Option.toList_some, List.mem_append, List.mem_singleton] at member
            simp only [Entry.number, declares, List.lookup_cons]
            by_cases same : target = element
            · simp [same, number]
            · have different : (target == element) = false := by simpa using same
              simp only [different]
              exact knows target (member.resolve_right same)
      have fields : encodeFields (entry.number count numbers) entry.record.fields =
          ((entry.record.map view).fields.flatMap Field.bytes, none) := by
        rw [Record.fields_map]
        exact encodeFields_ok fun target member =>
          knowsGrown target (targets target (Record.mem_references member))
      have numberedRest : ∀ index later, entries[index]? = some later →
          ∀ id ∈ later.element, view id = count + 1 + index := by
        intro index later found id declares
        rw [numbered (index + 1) later (by simpa using found) id declares]
        omega
      have total : count + 1 + entries.length = count + (entries.length + 1) := by omega
      rw [List.map_cons, encodeEntries_cons fields (ih closedRest knowsGrown numberedRest), total]
      simp only [List.map_cons, recordsBytes, Record.bytes, Record.command_map, List.append_assoc,
        List.length_cons]

end RelayLogic.Netlist
