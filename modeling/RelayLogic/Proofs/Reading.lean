import RelayLogic.Netlist.Decode
import RelayLogic.Proofs.Utf8

/-!
What is read from bytes. A step of reading takes just the bytes that were written for its answer,
whatever follows them, and the records of a netlist are added one after the other.
-/

namespace RelayLogic.Netlist

def Field.bytes : Field Nat → List UInt8
  | .byte value => toBytes 1 value
  | .word value => toBytes 4 value
  | .text value => toBytes 4 (Text.encodeUtf8 value).length ++ Text.encodeUtf8 value
  | .reference target => toBytes 4 target

def Record.bytes (number : Nat) (record : Record Nat) : List UInt8 :=
  toBytes 2 record.command.code ++ (toBytes 4 number ++ record.fields.flatMap Field.bytes)

def recordsBytes : Nat → List (Record Nat) → List UInt8
  | _, [] => []
  | number, record :: rest => record.bytes number ++ recordsBytes (number + 1) rest

/-- Whether a record refers to the first so many records alone, and can be written as it is. -/
def Record.Fits (count : Nat) : Record Nat → Prop
  | .signal pins => pins.length = 2 ∧ ∀ pin ∈ pins, pin < count
  | .gate _ pins | .timer _ pins _ => pins.length = 4 ∧ ∀ pin ∈ pins, pin < count
  | .connect start stop _ _ => start < count ∧ stop < count
  | .tag name _ => (Text.encodeUtf8 name).length < 2 ^ 32
  | .bindTag mapped onto => mapped < count ∧ onto < count
  | _ => True

def Reader.past (reader : Reader) (length : Nat) : Reader :=
  { reader with rest := reader.rest.drop length, offset := reader.offset + length }

structure Reader.Knows (reader : Reader) (count : Nat) : Prop where
  known : ∀ number < count, reader.elements.lookup number = some number
  room : reader.offset + reader.rest.length = reader.bodyEnd + 4

theorem Reader.Knows.past {reader : Reader} {count length : Nat} (knows : reader.Knows count)
    (bound : length ≤ reader.rest.length) : (reader.past length).Knows count := by
  refine ⟨knows.known, ?_⟩
  have room := knows.room
  simp only [Reader.past, List.length_drop]
  omega

theorem Reader.past_past (reader : Reader) (first second : Nat) :
    (reader.past first).past second = reader.past (first + second) := by
  simp [Reader.past, Nat.add_assoc]

namespace Read

variable {count : Nat}

theorem run_bind {first : Read α} {next : α → Read β} {reader later : Reader} {answer : α}
    (done : first reader = .ok (answer, later)) : (first >>= next) reader = next answer later := by
  show StateT.bind first next reader = _
  simp only [StateT.bind, done]
  rfl

/-- Whether a step takes given bytes and no more, where the first records are known. -/
def Takes (count : Nat) (read : Read α) (bytes : List UInt8) (answer : α) : Prop :=
  ∀ reader rest, reader.Knows count → reader.rest = bytes ++ rest → 4 ≤ rest.length →
    read reader = .ok (answer, reader.past bytes.length)

theorem takes_pure (answer : α) : Takes count (pure answer) [] answer := by
  intro reader rest _ _ _
  rfl

theorem Takes.past {read : Read α} {bytes rest : List UInt8} {answer : α} {reader : Reader}
    (takes : Takes count read bytes answer) (knows : reader.Knows count)
    (whole : reader.rest = bytes ++ rest) (long : 4 ≤ rest.length) :
    read reader = .ok (answer, reader.past bytes.length) ∧
      (reader.past bytes.length).Knows count ∧ (reader.past bytes.length).rest = rest := by
  refine ⟨takes reader rest knows whole long, knows.past ?_, ?_⟩
  · rw [whole, List.length_append]
    exact Nat.le_add_right _ _
  · simp [Reader.past, whole]

theorem Takes.bind {first : Read α} {next : α → Read β} {before after : List UInt8} {answer : α}
    {last : β} (takes : Takes count first before answer)
    (takesNext : Takes count (next answer) after last) :
    Takes count (first >>= next) (before ++ after) last := by
  intro reader rest knows whole long
  rw [List.append_assoc] at whole
  have longer : 4 ≤ (after ++ rest).length := by
    rw [List.length_append]
    omega
  obtain ⟨done, knowsNext, left⟩ := takes.past knows whole longer
  rw [run_bind done, takesNext _ rest knowsNext left long, Reader.past_past, List.length_append]

theorem Takes.view {first : Read α} {bytes : List UInt8} {answer : α}
    (takes : Takes count first bytes answer) (view : α → β) :
    Takes count (do return view (← first)) bytes (view answer) := by
  have viewed : Takes count (first >>= fun answer => pure (view answer)) (bytes ++ []) _ :=
    takes.bind (takes_pure (view answer))
  rwa [List.append_nil] at viewed

theorem takes_bytes (count : Nat) {length : Nat} {bytes : List UInt8} (same : bytes.length = length) :
    Takes count (Read.bytes length) bytes bytes := by
  intro reader rest _ whole _
  have taken : reader.rest.take length = bytes := by
    rw [whole, ← same, List.take_left]
  have enough : ¬bytes.length < length := by omega
  simp only [Read.bytes, bind, StateT.bind, get, getThe, MonadStateOf.get, StateT.get, pure,
    Except.pure, Except.bind, taken, enough, ↓reduceIte]
  rw [same]
  rfl

theorem takes_number (count width : Nat) {value : Nat} (small : value < Nat.pow 256 width) :
    Takes count (Read.number width) (toBytes width value) value := by
  have taken := (takes_bytes count (length_toBytes width value)).view ofBytes
  rw [ofBytes_toBytes, Nat.mod_eq_of_lt small] at taken
  exact taken

theorem takes_text {text : String} (short : (Text.encodeUtf8 text).length < 2 ^ 32) :
    Takes count Read.text (Field.bytes (.text text)) text := by
  intro reader rest knows whole long
  generalize same : Text.encodeUtf8 text = bytes at short
  rw [Field.bytes, same, List.append_assoc] at whole
  have longer : 4 ≤ (bytes ++ rest).length := by
    rw [List.length_append]
    omega
  obtain ⟨first, knowsNext, left⟩ := (takes_number count 4 short).past knows whole longer
  generalize lengthRead : reader.past (toBytes 4 bytes.length).length = later
    at first knowsNext left
  have fits : ¬later.bodyEnd - later.offset < bytes.length := by
    have room := knowsNext.room
    rw [left, List.length_append] at room
    omega
  have known : (get : Read Reader) later = .ok (later, later) := rfl
  have second := takes_bytes count rfl later rest knowsNext left long
  have decoded : Text.decodeUtf8 bytes = .ok text := same ▸ Text.decodeUtf8_encodeUtf8 text
  unfold Read.text
  rw [run_bind first, run_bind known]
  simp only [fits, ↓reduceIte]
  rw [run_bind second, decoded]
  show Except.ok (text, later.past bytes.length) = _
  rw [← lengthRead, Reader.past_past, Field.bytes, same, List.length_append]

theorem takes_reference (record : Nat) {target : Nat} (known : target < count)
    (few : count ≤ 2 ^ 32) :
    Takes count (Read.reference record) (Field.bytes (.reference target)) target := by
  intro reader rest knows whole long
  have small : target < Nat.pow 256 4 := Nat.lt_of_lt_of_le known few
  have first := takes_number count 4 small reader rest knows whole long
  have found := knows.known target known
  have seen : (get : Read Reader) (reader.past (toBytes 4 target).length) =
      .ok (reader.past (toBytes 4 target).length, reader.past (toBytes 4 target).length) := rfl
  unfold Read.reference
  rw [run_bind first, run_bind seen]
  simp only [Reader.past, found]
  rfl

theorem takes_references (record : Nat) (few : count ≤ 2 ^ 32) (targets : List Nat)
    (known : ∀ target ∈ targets, target < count) :
    Takes count (Read.references record targets.length)
      ((targets.map Field.reference).flatMap Field.bytes) targets := by
  induction targets with
  | nil => exact takes_pure []
  | cons target targets ih =>
      rw [List.map_cons, List.flatMap_cons]
      exact (takes_reference record (known target List.mem_cons_self) few).bind
        ((ih fun other member => known other (List.mem_cons_of_mem _ member)).view _)

theorem takes_record (number : Nat) {record : Record Nat} (fits : record.Fits count)
    (few : count ≤ 2 ^ 32) :
    Takes count (Read.record number record.command) (record.fields.flatMap Field.bytes) record := by
  cases record with
  | solution | project | context | pin => exact takes_pure _
  | signal pins =>
      have taken := takes_references number few pins fits.2
      rw [fits.1] at taken
      exact taken.view Record.signal
  | gate kind pins =>
      have taken := takes_references number few pins fits.2
      rw [fits.1] at taken
      exact taken.view (Record.gate kind)
  | timer kind pins delay =>
      have taken := takes_references number few pins fits.2
      rw [fits.1] at taken
      have word := (takes_number count 4 delay.bits.toNat_lt).view
        fun bits => Record.timer kind pins ⟨UInt32.ofNat bits⟩
      rw [UInt32.ofNat_toNat] at word
      have bytes : (Record.timer kind pins delay).fields.flatMap Field.bytes =
          (pins.map Field.reference).flatMap Field.bytes ++ toBytes 4 delay.bits.toNat := by
        simp [Record.fields, Field.bytes]
      rw [bytes]
      exact taken.bind word
  | connect start stop invertStart invertStop =>
      have bytes : (Record.connect start stop invertStart invertStop).fields.flatMap Field.bytes =
          Field.bytes (.reference start) ++ (Field.bytes (.reference stop) ++
            (toBytes 1 invertStart.toNat ++ toBytes 1 invertStop.toNat)) := by
        simp [Record.fields, Field.bytes]
      have bit : ∀ mark : Bool, mark.toNat < Nat.pow 256 1 := by decide
      have same : Record.connect start stop (invertStart.toNat != 0) (invertStop.toNat != 0) =
          .connect start stop invertStart invertStop := by
        cases invertStart <;> cases invertStop <;> rfl
      rw [bytes, ← same]
      exact (takes_reference number fits.1 few).bind ((takes_reference number fits.2 few).bind
        ((takes_number count 1 (bit invertStart)).bind
          ((takes_number count 1 (bit invertStop)).view _)))
  | tag name initial =>
      have bytes : (Record.tag name initial).fields.flatMap Field.bytes =
          Field.bytes (.text name) ++ (toBytes 1 (triCode initial) ++ []) := by
        simp [Record.fields, Field.bytes]
      rw [bytes]
      cases initial with
      | false => exact (takes_text fits).bind ((takes_number count 1 (by decide)).bind (takes_pure _))
      | true => exact (takes_text fits).bind ((takes_number count 1 (by decide)).bind (takes_pure _))
      | unknown => exact (takes_text fits).bind ((takes_number count 1 (by decide)).bind (takes_pure _))
  | bindTag mapped onto =>
      have bytes : (Record.bindTag mapped onto).fields.flatMap Field.bytes =
          Field.bytes (.reference mapped) ++ Field.bytes (.reference onto) := by
        simp [Record.fields]
      rw [bytes]
      exact (takes_reference number fits.1 few).bind ((takes_reference number fits.2 few).view _)

theorem code_lt (command : Command) : command.code < Nat.pow 256 2 := by
  rcases command with _ | _ | _ | _ | _ | kind | kind | _ | _ | _ <;>
    first | decide | (cases kind <;> decide)

end Read

def Reader.declaring (reader : Reader) (number : Nat) : Option ElementId → Reader
  | some element => { reader with elements := (number, element) :: reader.elements }
  | none => reader

namespace Read

variable {count : Nat}

theorem step_ok {number : Nat} {record : Record Nat} {assembly grown : Assembly}
    {element : Option ElementId} (fits : record.Fits count) (few : count ≤ 2 ^ 32)
    (small : number < 2 ^ 32) (added : assembly.add number record = .ok (grown, element))
    {reader : Reader} {rest : List UInt8} (knows : reader.Knows count)
    (whole : reader.rest = record.bytes number ++ rest) (long : 4 ≤ rest.length) :
    Read.step (some assembly) reader =
      .ok (grown, (reader.past (record.bytes number).length).declaring number element) := by
  have known : (get : Read Reader) reader = .ok (reader, reader) := rfl
  have longer : ∀ bytes : List UInt8, 4 ≤ (bytes ++ rest).length := by
    intro bytes
    rw [List.length_append]
    omega
  simp only [Record.bytes, List.append_assoc] at whole
  obtain ⟨first, knowsFirst, restFirst⟩ := (takes_number count 2
    (code_lt record.command)).past knows whole (by rw [← List.append_assoc]; exact longer _)
  obtain ⟨second, knowsSecond, restSecond⟩ := (takes_number count 4 small).past
    knowsFirst restFirst (longer _)
  obtain ⟨third, _, _⟩ := (takes_record number fits few).past knowsSecond restSecond long
  have adds : ∀ reader, (liftM (assembly.add number record) : Read _) reader =
      .ok ((grown, element), reader) := by
    intro reader
    rw [added]
    rfl
  unfold Read.step
  rw [run_bind known, run_bind first, run_bind second, Command.ofCode?_code]
  simp only
  rw [run_bind third, run_bind (adds _)]
  simp only [Reader.past_past, Record.bytes, List.length_append, ← Nat.add_assoc]
  cases element with
  | none => rfl
  | some element => rfl

end Read

inductive Assembly.Adds : Nat → Nat → Assembly → List (Record Nat) → Assembly → Prop
  | done {count number assembly} : Adds count number assembly [] assembly
  | add {count number assembly record grown element records final} (fits : Record.Fits count record)
      (added : assembly.add number record = .ok (grown, element))
      (own : ∀ id ∈ element, id = number ∧ count = number)
      (rest : Adds (count + element.toList.length) (number + 1) grown records final) :
      Adds count number assembly (record :: records) final

namespace Assembly.Adds

variable {count number : Nat} {assembly grown final : Assembly} {record : Record Nat}
  {records more : List (Record Nat)}

theorem declare (fits : record.Fits number)
    (added : assembly.add number record = .ok (grown, some number))
    (rest : Adds (number + 1) (number + 1) grown records final) :
    Adds number number assembly (record :: records) final :=
  .add fits added (by simp) rest

theorem bind (fits : record.Fits count) (added : assembly.add number record = .ok (grown, none))
    (rest : Adds count (number + 1) grown records final) :
    Adds count number assembly (record :: records) final :=
  .add fits added (by simp) rest

end Assembly.Adds

theorem Reader.Knows.declaring {reader : Reader} {count number : Nat} {element : Option ElementId}
    (knows : reader.Knows count) (own : ∀ id ∈ element, id = number ∧ count = number) :
    (reader.declaring number element).Knows (count + element.toList.length) := by
  cases element with
  | none => exact knows
  | some id =>
      obtain ⟨rfl, rfl⟩ := own id rfl
      refine ⟨fun number bound => ?_, knows.room⟩
      rw [Option.toList_some, List.length_singleton] at bound
      by_cases same : number = count
      · simp [Reader.declaring, same]
      · have different : (number == count) = false := by simpa using same
        simp only [Reader.declaring, List.lookup_cons, different]
        exact knows.known number (by omega)

theorem Reader.offset_declaring (reader : Reader) (number : Nat) (element : Option ElementId) :
    (reader.declaring number element).offset = reader.offset := by
  cases element <;> rfl

theorem Reader.rest_declaring (reader : Reader) (number : Nat) (element : Option ElementId) :
    (reader.declaring number element).rest = reader.rest := by
  cases element <;> rfl

theorem records_ok {count number : Nat} {assembly final : Assembly} {records : List (Record Nat)}
    (adds : assembly.Adds count number records final) (few : number + records.length ≤ 2 ^ 32)
    (before : count ≤ number) {reader : Reader} {rest : List UInt8} (knows : reader.Knows count)
    (whole : reader.rest = recordsBytes number records ++ rest) (long : 4 ≤ rest.length) :
    ∃ later, Read.records records.length (some assembly) reader = .ok (some final, later) ∧
      later.offset = reader.offset + (recordsBytes number records).length := by
  induction adds generalizing reader with
  | done => exact ⟨reader, rfl, rfl⟩
  | @add count number assembly record grown element records final fits added own _ ih =>
      rw [recordsBytes, List.append_assoc] at whole
      rw [List.length_cons] at few
      have longer : 4 ≤ (recordsBytes (number + 1) records ++ rest).length := by
        rw [List.length_append]
        omega
      have step := Read.step_ok fits (by omega) (by omega) added knows whole longer
      have bound : (record.bytes number).length ≤ reader.rest.length := by
        rw [whole, List.length_append]
        omega
      have left : (reader.past (record.bytes number).length).rest =
          recordsBytes (number + 1) records ++ rest := by
        simp [Reader.past, whole]
      have next : count + element.toList.length ≤ number + 1 := by
        cases element <;> simp <;> omega
      obtain ⟨later, read, offset⟩ := ih (by omega) next ((knows.past bound).declaring own)
        (by rw [Reader.rest_declaring, left])
      refine ⟨later, ?_, ?_⟩
      · rw [List.length_cons, Read.records, Read.run_bind step, read]
      · rw [offset, Reader.offset_declaring, recordsBytes, List.length_append, ← Nat.add_assoc]
        rfl

theorem step_solution {reader : Reader} {rest : List UInt8} (knows : reader.Knows 0)
    (whole : reader.rest = Record.solution.bytes 0 ++ rest) (long : 4 ≤ rest.length) :
    Read.step none reader = .ok (⟨.empty solutionName, none, none⟩,
      (reader.past (Record.solution.bytes 0).length).declaring 0 (some 0)) := by
  have known : (get : Read Reader) reader = .ok (reader, reader) := rfl
  have bytes : Record.solution.bytes 0 = toBytes 2 0 ++ toBytes 4 0 := rfl
  rw [bytes, List.append_assoc] at whole
  have longer : 4 ≤ (toBytes 4 0 ++ rest).length := by
    rw [List.length_append]
    omega
  obtain ⟨first, knowsFirst, restFirst⟩ :=
    (Read.takes_number 0 2 (by decide)).past knows whole longer
  obtain ⟨second, _, _⟩ :=
    (Read.takes_number 0 4 (by decide)).past knowsFirst restFirst long
  unfold Read.step
  rw [Read.run_bind known, Read.run_bind first, Read.run_bind second, Reader.past_past, bytes,
    List.length_append]
  rfl

/-- A netlist whose records can be added, to a valid circuit, is decoded to that circuit. -/
theorem decode_ok {records : List (Record Nat)} {final : Assembly}
    (adds : Assembly.Adds 1 1 ⟨.empty solutionName, none, none⟩ records final)
    (few : records.length + 1 < 2 ^ 32) (valid : final.circuit.validate = .ok ()) :
    decode (recordsBytes 0 (.solution :: records) ++ toBytes 4 (records.length + 1)) =
      .ok final.circuit := by
  generalize counted : toBytes 4 (records.length + 1) = tail
  have four : tail.length = 4 := by rw [← counted, length_toBytes]
  have count : ofBytes tail = records.length + 1 := by
    rw [← counted, ofBytes_toBytes]
    exact Nat.mod_eq_of_lt few
  generalize body : recordsBytes 0 (.solution :: records) = bytes
  have parts : bytes = Record.solution.bytes 0 ++ recordsBytes 1 records := by rw [← body]; rfl
  let reader : Reader := ⟨bytes ++ tail, 0, bytes.length, []⟩
  have knows : reader.Knows 0 := ⟨by simp, by simp [reader, four]⟩
  have whole : reader.rest = Record.solution.bytes 0 ++ (recordsBytes 1 records ++ tail) := by
    simp [reader, parts]
  have longer : 4 ≤ (recordsBytes 1 records ++ tail).length := by
    rw [List.length_append]
    omega
  have first := step_solution knows whole longer
  have bound : (Record.solution.bytes 0).length ≤ reader.rest.length := by
    rw [whole, List.length_append]
    omega
  have knowsFirst : ((reader.past (Record.solution.bytes 0).length).declaring 0 (some 0)).Knows 1 :=
    (knows.past bound).declaring (by simp)
  have left : ((reader.past (Record.solution.bytes 0).length).declaring 0 (some 0)).rest =
      recordsBytes 1 records ++ tail := by
    rw [Reader.rest_declaring]
    simp [Reader.past, whole]
  obtain ⟨later, read, offset⟩ :=
    records_ok adds (by omega) (Nat.le_refl 1) knowsFirst left (Nat.le_of_eq four.symm)
  have all : Read.records (records.length + 1) none reader = .ok (some final, later) := by
    rw [Read.records, Read.run_bind first, read]
  have ended : later.offset = bytes.length := by
    rw [offset, Reader.offset_declaring, parts, List.length_append]
    simp [Reader.past, reader]
  have bodyEnd : (bytes ++ tail).length - 4 = bytes.length := by
    rw [List.length_append]
    omega
  have enough : ¬(bytes ++ tail).length < 4 := by
    rw [List.length_append]
    omega
  have dropped : (bytes ++ tail).drop bytes.length = tail := List.drop_left
  simp only [decode, bodyEnd, enough, ↓reduceIte, dropped, count, StateT.run]
  rw [show Read.records (records.length + 1) none ⟨bytes ++ tail, 0, bytes.length, []⟩ = _ from all]
  simp only [bind, Except.bind, ended, ne_eq, not_true_eq_false, ↓reduceIte, valid]
  rfl

end RelayLogic.Netlist
