import RelayLogic.Proofs.Rows

/-!
Netlists that are cut short. A row tells by its first bytes how long it is, so what is left of a
netlist starts with the rows of the whole. The four bytes behind them start the next row, and cannot
be read as the number of rows before it.
-/

namespace RelayLogic.Netlist

/-- Whether a record has as many pins as its command says, and a name that can be written. -/
def Record.Sized : Record ref → Prop
  | .signal pins => pins.length = 2
  | .gate _ pins | .timer _ pins _ => pins.length = 4
  | .tag name _ => (Text.encodeUtf8 name).length < 2 ^ 32
  | _ => True

def Record.tail : Record ref → List UInt8
  | .timer _ _ delay => toBytes 4 delay.bits.toNat
  | .connect _ _ invertStart invertStop => toBytes 1 invertStart.toNat ++ toBytes 1 invertStop.toNat
  | .tag name initial => toBytes 4 (Text.encodeUtf8 name).length ++
      (Text.encodeUtf8 name ++ toBytes 1 (triCode initial))
  | _ => []

def Record.row (number : Nat) (record : Record Nat) : Row :=
  ⟨record.command, number, record.references, record.tail⟩

theorem Record.Sized.map {record : Record ref} (sized : record.Sized) (view : ref → ref') :
    (record.map view).Sized := by
  cases record <;> simp only [Record.map, Sized, List.length_map] at sized ⊢ <;> exact sized

theorem Record.references_map (view : ref → ref') (record : Record ref) :
    (record.map view).references = record.references.map view := by
  cases record <;> rfl

theorem Record.bytes_row (number : Nat) (record : Record Nat) :
    (record.row number).bytes = record.bytes number := by
  have pins : ∀ targets : List Nat,
      (targets.map Field.reference).flatMap Field.bytes = targets.flatMap (toBytes 4) := by
    intro targets
    rw [List.flatMap_map]
    rfl
  cases record <;>
    simp [row, Row.bytes, bytes, command, references, tail, fields, Field.bytes, pins,
      List.flatMap_append]

theorem Record.row_fits {number : Nat} {record : Record Nat} (small : number < 2 ^ 32)
    (sized : record.Sized) (targets : ∀ target ∈ record.references, target < 2 ^ 32) :
    (record.row number).Fits := by
  refine ⟨small, ?_, targets, ?_⟩
  · cases record <;> first | rfl | exact sized
  · cases record with
    | tag name initial => exact ⟨_, _, sized, rfl⟩
    | _ => simp [row, Command.Ends, command, tail, length_toBytes]

variable {numbers : Numbers}

theorem encodeFields_numbers {fields : List (Field ElementId)} {bytes : List UInt8}
    (done : encodeFields numbers fields = (bytes, none)) :
    bytes = (fields.map (Field.map fun target => (numbers.lookup target).getD 0)).flatMap
      Field.bytes := by
  have known : ∀ target, .reference target ∈ fields →
      numbers.lookup target = some ((numbers.lookup target).getD 0) := by
    intro target member
    obtain ⟨number, found⟩ := Option.isSome_iff_exists.mp (encodeFields_known done target member)
    simp [found]
  rw [encodeFields_ok known] at done
  exact (Prod.mk.inj done).1.symm

theorem encodeEntries_rows {entries : Entries} {count : Nat} {bytes : List UInt8}
    (few : count + entries.length < 2 ^ 32)
    (earlier : ∀ target number, numbers.lookup target = some number → number < 2 ^ 32)
    (sized : ∀ entry, .ok entry ∈ entries → entry.record.Sized)
    (done : encodeEntries count numbers entries = (bytes, none)) :
    ∃ rows : List Row, (∀ row ∈ rows, row.Fits) ∧
      rows.map (·.number) = List.range' count entries.length ∧
        bytes = rows.flatMap Row.bytes ++ toBytes 4 (count + entries.length) := by
  induction entries generalizing count numbers bytes with
  | nil =>
      cases done
      exact ⟨[], by simp, rfl, rfl⟩
  | cons entry entries ih =>
      cases entry with
      | error error => simp [encodeEntries] at done
      | ok entry =>
          obtain ⟨fields, more, written, rest⟩ := encodeEntries_ok_cons done
          rw [encodeEntries_cons written rest] at done
          rw [List.length_cons] at few
          have grown : ∀ target number,
              (entry.number count numbers).lookup target = some number → number < 2 ^ 32 := by
            intro target number found
            cases declares : entry.element with
            | none =>
                simp only [Entry.number, declares] at found
                exact earlier target number found
            | some element =>
                simp only [Entry.number, declares, List.lookup_cons] at found
                split at found
                · obtain rfl := Option.some.inj found
                  omega
                · exact earlier target number found
          obtain ⟨rows, fits, numbered, rfl⟩ := ih (by omega) grown
            (fun other member => sized other (List.mem_cons_of_mem _ member)) rest
          let record := entry.record.map fun target =>
            ((entry.number count numbers).lookup target).getD 0
          have row : (record.row count).Fits := by
            refine Record.row_fits (by omega) ((sized entry List.mem_cons_self).map _) ?_
            intro number member
            rw [Record.references_map] at member
            obtain ⟨target, _, rfl⟩ := List.mem_map.mp member
            cases found : (entry.number count numbers).lookup target with
            | none => decide
            | some number => exact grown target number found
          refine ⟨record.row count :: rows, List.forall_mem_cons.mpr ⟨row, fits⟩, ?_, ?_⟩
          · rw [List.map_cons, numbered, List.length_cons, List.range'_succ]
            rfl
          · rw [← (Prod.mk.inj done).1, encodeFields_numbers written, ← Record.fields_map,
              List.flatMap_cons, Record.bytes_row, Record.bytes, Record.command_map]
            simp only [List.append_assoc, List.length_cons]
            rw [Nat.add_right_comm, Nat.add_assoc count]

theorem toBytes_inj {width first second : Nat} (firstBound : first < 256 ^ width)
    (secondBound : second < 256 ^ width)
    (same : toBytes width first = toBytes width second) : first = second := by
  have numbers := congrArg ofBytes same
  rwa [ofBytes_toBytes, ofBytes_toBytes, Nat.pow_eq, Nat.mod_eq_of_lt firstBound,
    Nat.mod_eq_of_lt secondBound] at numbers

theorem Command.code_inj {first second : Command} (same : first.code = second.code) :
    first = second := by
  have found := ofCode?_code first
  rw [same, ofCode?_code] at found
  exact (Option.some.inj found).symm

theorem length_references (references : List Nat) :
    (references.flatMap (toBytes 4)).length = 4 * references.length := by
  induction references with
  | nil => rfl
  | cons target references ih =>
      rw [List.flatMap_cons, List.length_append, length_toBytes, ih, List.length_cons]
      omega

theorem Command.Ends.length_eq {command : Command} {first second more others : List UInt8}
    (one : command.Ends first) (two : command.Ends second)
    (same : first ++ more = second ++ others) : first.length = second.length := by
  cases command with
  | timer _ | connect => exact one.trans two.symm
  | tag =>
      obtain ⟨text, initial, short, rfl⟩ := one
      obtain ⟨other, value, otherShort, rfl⟩ := two
      simp only [List.append_assoc] at same
      have lengths := (List.append_inj same (by rw [length_toBytes, length_toBytes])).1
      have equal : text.length = other.length :=
        toBytes_inj (show _ < 256 ^ 4 from short) otherShort lengths
      simp only [List.length_append, length_toBytes, equal]
  | _ => exact congrArg List.length (Eq.trans one (Eq.symm two))

theorem Row.length_bytes (row : Row) :
    row.bytes.length = 6 + 4 * row.references.length + row.tail.length := by
  simp only [bytes, List.length_append, length_toBytes, length_references]
  omega

theorem Row.Fits.bytes_eq {first second : Row} (fits : first.Fits) (otherFits : second.Fits)
    {more others : List UInt8} (same : first.bytes ++ more = second.bytes ++ others) :
    first.bytes = second.bytes := by
  have parts := same
  simp only [Row.bytes, List.append_assoc] at parts
  obtain ⟨codes, parts⟩ := List.append_inj parts (by rw [length_toBytes, length_toBytes])
  obtain ⟨_, parts⟩ := List.append_inj parts (by rw [length_toBytes, length_toBytes])
  have commands : first.command = second.command :=
    Command.code_inj (toBytes_inj (Read.code_lt _) (Read.code_lt _) codes)
  have counts : first.references.length = second.references.length := by
    rw [fits.count, otherFits.count, commands]
  obtain ⟨_, parts⟩ := List.append_inj parts (by rw [length_references, length_references, counts])
  have tails := Command.Ends.length_eq (commands ▸ fits.tail) otherFits.tail parts
  refine (List.append_inj same ?_).1
  rw [length_bytes, length_bytes, counts, tails]

theorem rows_cases {first second : List Row} (fits : ∀ row ∈ first, row.Fits)
    (otherFits : ∀ row ∈ second, row.Fits) {more others : List UInt8}
    (same : first.flatMap Row.bytes ++ more = second.flatMap Row.bytes ++ others) :
    first.length ≤ second.length ∧
        more = (second.drop first.length).flatMap Row.bytes ++ others ∨
      second.length < first.length ∧
        others = (first.drop second.length).flatMap Row.bytes ++ more := by
  induction first generalizing second with
  | nil => exact Or.inl ⟨Nat.zero_le _, same⟩
  | cons row first ih =>
      cases second with
      | nil => exact Or.inr ⟨Nat.zero_lt_succ _, same.symm⟩
      | cons other second =>
          obtain ⟨rowFits, fits⟩ := List.forall_mem_cons.mp fits
          obtain ⟨otherRow, otherFits⟩ := List.forall_mem_cons.mp otherFits
          rw [List.flatMap_cons, List.flatMap_cons, List.append_assoc, List.append_assoc] at same
          have heads := rowFits.bytes_eq otherRow same
          rw [heads] at same
          have rest := ih fits otherFits (List.append_cancel_left same)
          simpa only [List.length_cons, List.drop_succ_cons, Nat.succ_le_succ_iff,
            Nat.succ_lt_succ_iff] using rest

theorem toBytes_add (low high number : Nat) :
    toBytes (low + high) number = toBytes low number ++ toBytes high (number / 256 ^ low) := by
  induction low generalizing number with
  | zero => simp [toBytes]
  | succ low ih =>
      rw [Nat.succ_add, toBytes, ih, toBytes, List.cons_append, Nat.div_div_eq_div_mul,
        Nat.pow_succ']

/-- Where the first four bytes of a row are read as a number, it is not the number of the row. -/
theorem number_ne_start {row : Row} (first : 0 < row.number) (few : row.number ≤ 65536)
    (more others : List UInt8) : toBytes 4 row.number ++ more ≠ row.bytes ++ others := by
  intro same
  have split := toBytes_add 2 2 row.number
  simp only [Row.bytes, split, List.append_assoc] at same
  obtain ⟨_, rest⟩ := List.append_inj same (by rw [length_toBytes, length_toBytes])
  obtain ⟨halves, _⟩ := List.append_inj rest (by rw [length_toBytes, length_toBytes])
  have numbers := congrArg ofBytes halves
  simp only [ofBytes_toBytes, Nat.pow_eq, Nat.reducePow] at numbers
  have high : row.number / 65536 % 65536 = row.number / 65536 := Nat.mod_eq_of_lt (by omega)
  omega

theorem decode_nothing : decode (toBytes 4 0) = .error (.netlist .noSolution) := rfl

theorem number_getElem {rows : List Row} (numbered : rows.map (·.number) = List.range' 0 rows.length)
    {index : Nat} (bound : index < rows.length) : (rows[index]).number = index := by
  have listed : (rows.map (·.number))[index]? = some index := by
    rw [numbered, List.getElem?_range' bound]
    simp
  rw [List.getElem?_map, List.getElem?_eq_getElem bound] at listed
  exact Option.some.inj listed

theorem decode_cut {rows : List Row} (fits : ∀ row ∈ rows, row.Fits)
    (numbered : rows.map (·.number) = List.range' 0 rows.length) (few : rows.length ≤ 65537)
    {cut rest : List UInt8} (whole : cut ++ rest = rows.flatMap Row.bytes ++ toBytes 4 rows.length)
    (strict : rest ≠ []) : ∃ error, decode cut = .error error := by
  cases decoded : decode cut with
  | error error => exact ⟨error, rfl⟩
  | ok circuit =>
      exfalso
      obtain ⟨left, leftFits, -, rfl, -⟩ := decode_rows decoded
      rw [List.append_assoc] at whole
      rcases rows_cases leftFits fits whole with ⟨fewer, start⟩ | ⟨more, start⟩
      · rcases Nat.lt_or_ge left.length rows.length with bound | all
        · have number := number_getElem numbered bound
          rw [List.drop_eq_getElem_cons bound, List.flatMap_cons, List.append_assoc] at start
          rcases Nat.eq_zero_or_pos left.length with none | some
          · obtain rfl := List.length_eq_zero_iff.mp none
            rw [List.flatMap_nil, List.nil_append, List.length_nil, decode_nothing] at decoded
            contradiction
          · have begins : toBytes 4 (rows[left.length]).number ++ rest = (rows[left.length]).bytes ++
                ((rows.drop (left.length + 1)).flatMap Row.bytes ++ toBytes 4 rows.length) := by
              rw [number]
              exact start
            exact number_ne_start (by omega) (by omega) _ _ begins
        · have equal : left.length = rows.length := Nat.le_antisymm fewer all
          rw [equal, List.drop_length, List.flatMap_nil, List.nil_append] at start
          have lengths := congrArg List.length start
          simp only [List.length_append, length_toBytes] at lengths
          exact strict (List.length_eq_zero_iff.mp (by omega))
      · -- The count of the whole is too short to hold another row.
        rw [List.drop_eq_getElem_cons more, List.flatMap_cons] at start
        have lengths := congrArg List.length start
        simp only [List.length_append, length_toBytes, Row.length_bytes] at lengths
        omega

end RelayLogic.Netlist

namespace RelayLogic.Circuit

open Netlist (Entry Row)

variable {circuit : Circuit}

theorem length_areSignalPins {pins : List ElementId} (arePins : circuit.areSignalPins pins) :
    pins.length = 2 := by
  unfold areSignalPins at arePins
  split at arePins
  next => rfl
  next => contradiction

section

variable (valid : circuit.validate = .ok ())

include valid

theorem memberEntries_sized {id : ElementId} {entry : Entry}
    (member : .ok entry ∈ circuit.memberEntries id) : entry.record.Sized := by
  have pin : ∀ {pins : List ElementId} {record : Netlist.Record ElementId}, record.Sized →
      .ok entry ∈ Netlist.ownerEntries id pins record → entry.record.Sized := by
    intro pins record sized member
    rcases List.mem_append.mp member with among | last
    · obtain ⟨_, _, same⟩ := List.mem_map.mp among
      cases same
      trivial
    · cases List.mem_singleton.mp last
      exact sized
  unfold memberEntries at member
  split at member
  next => simp at member
  next element found =>
    have parts := (validate_ok_iff.mp valid id element (element_ok_iff.mp found)).2
    cases kind : element.kind with
    | signal tag =>
        rw [kind] at parts
        simp only [kind] at member
        have two : (Netlist.Record.signal (circuit.pinsOf id)).Sized :=
          length_areSignalPins parts.1
        exact pin two member
    | gate gate =>
        rw [kind] at parts
        simp only [kind] at member
        have four : (Netlist.Record.gate gate (circuit.pinsOf id)).Sized := parts
        exact pin four member
    | timer timer delay =>
        rw [kind] at parts
        simp only [kind] at member
        have four : (Netlist.Record.timer timer (circuit.pinsOf id) delay).Sized := parts.1
        exact pin four member
    | _ =>
        simp only [kind, List.mem_singleton] at member
        cases member <;> trivial

theorem contextEntries_sized {id : ElementId} {entry : Entry}
    (member : .ok entry ∈ circuit.contextEntries id) : entry.record.Sized := by
  unfold contextEntries at member
  split at member
  next => simp at member
  next element found =>
    split at member
    next =>
      rcases List.mem_cons.mp member with first | rest
      · cases first
        trivial
      · obtain ⟨child, _, inside⟩ := List.mem_flatMap.mp rest
        exact memberEntries_sized valid inside
    next => contradiction

theorem entries_sized (short : circuit.ShortTags) {entry : Entry}
    (member : .ok entry ∈ circuit.entries) : entry.record.Sized := by
  rcases List.mem_cons.mp member with first | rest
  · cases first
    trivial
  rcases List.mem_append.mp rest with inTree | bound
  · obtain ⟨top, _, inside⟩ := List.mem_flatMap.mp inTree
    unfold topEntries at inside
    split at inside
    next => simp at inside
    next element found =>
      split at inside
      next initial properties isTag =>
        cases List.mem_singleton.mp inside
        exact short top element (element_ok_iff.mp found) (by rw [isTag]; rfl)
      next =>
        rcases List.mem_cons.mp inside with first | rest
        · cases first
          trivial
        · obtain ⟨child, _, inside⟩ := List.mem_flatMap.mp rest
          exact contextEntries_sized valid inside
      next => contradiction
  · obtain ⟨signal, _, mapped⟩ := List.mem_filterMap.mp bound
    split at mapped
    next =>
      obtain ⟨tag, _, same⟩ := Option.map_eq_some_iff.mp mapped
      cases same
      trivial
    next => contradiction

/-- A netlist of few records that is cut short is refused, wherever it is cut. -/
theorem decode_error_of_cut (short : circuit.ShortTags) {bytes : List UInt8}
    (encoded : circuit.encode = .ok bytes) (few : circuit.entries.length ≤ 65537)
    {cut : List UInt8} (start : cut <+: bytes) (strict : cut ≠ bytes) :
    ∃ error, Netlist.decode cut = .error error := by
  unfold encode at encoded
  split at encoded
  next written done =>
    cases encoded
    obtain ⟨rest, rfl⟩ := start
    obtain ⟨rows, fits, numbered, whole⟩ := Netlist.encodeEntries_rows (by omega) (by simp)
      (fun entry member => entries_sized valid short member) done
    have count : rows.length = circuit.entries.length := by
      rw [← List.length_map, numbered, List.length_range']
    rw [Nat.zero_add, ← count] at whole
    rw [← count] at numbered few
    refine Netlist.decode_cut fits numbered few whole fun none => strict ?_
    rw [none, List.append_nil]
  next => contradiction

end

def posted : Circuit :=
  (empty "yard").afterCalls [.addTag "glow" .true, .addProject "shed"]

theorem posted_cut : posted.validate = .ok () ∧ posted.ShortTags ∧
    posted.entries.length ≤ 65537 ∧ ∃ bytes, posted.encode = .ok bytes ∧
      bytes.take 18 <+: bytes ∧ bytes.take 18 ≠ bytes ∧
        ∃ error, Netlist.decode (bytes.take 18) = .error error := by
  have valid : posted.validate = .ok () := by decide +kernel
  have short : posted.ShortTags := by
    have all : ∀ id ∈ posted.ids, ∀ element ∈ posted.get? id,
        (Text.encodeUtf8 element.name).length < 2 ^ 32 := by decide +kernel
    exact fun id element held _ => all id (List.mem_range.mpr (get?_lt held)) element held
  have few : posted.entries.length ≤ 65537 := by decide +kernel
  refine ⟨valid, short, few, _, rfl, List.take_prefix 18 _, by decide +kernel, ?_⟩
  exact decode_error_of_cut valid short rfl few (List.take_prefix 18 _) (by decide +kernel)

end RelayLogic.Circuit
