import RelayLogic.Proofs.Loading

/-!
The bytes of a netlist that is read to its end. They are rows, one for each record, and each row
refers to earlier rows alone.
-/

namespace RelayLogic.Netlist

def Command.references : Command → Nat
  | solution | project | context | pin | tag => 0
  | signal | connect | bindTag => 2
  | gate _ | timer _ => 4

def Command.Ends (tail : List UInt8) : Command → Prop
  | timer _ => tail.length = 4
  | connect => tail.length = 2
  | tag => ∃ text initial, text.length < 2 ^ 32 ∧
      tail = toBytes 4 text.length ++ (text ++ toBytes 1 initial)
  | _ => tail = []

/-- A record as its bytes show it, whatever its references stand for. -/
structure Row where
  command : Command
  number : Nat
  references : List Nat
  tail : List UInt8

namespace Row

def bytes (row : Row) : List UInt8 :=
  toBytes 2 row.command.code ++
    (toBytes 4 row.number ++ (row.references.flatMap (toBytes 4) ++ row.tail))

structure Fits (row : Row) : Prop where
  number : row.number < 2 ^ 32
  count : row.references.length = row.command.references
  references : ∀ target ∈ row.references, target < 2 ^ 32
  tail : row.command.Ends row.tail

def Declares (row : Row) (number : Nat) : Prop :=
  row.command ≠ .bindTag ∧ row.number = number

end Row

theorem toBytes_ofBytes (bytes : List UInt8) : toBytes bytes.length (ofBytes bytes) = bytes := by
  induction bytes with
  | nil => rfl
  | cons byte bytes ih =>
      have small := byte.toNat_lt
      have low : (byte.toNat + 256 * ofBytes bytes) % 256 = byte.toNat := by omega
      have high : (byte.toNat + 256 * ofBytes bytes) / 256 = ofBytes bytes := by omega
      rw [List.length_cons, ofBytes, toBytes, low, high, ih, UInt8.ofNat_toNat]

namespace Read

variable {reader middle later : Reader} {record : Nat}

structure Took (reader : Reader) (taken : List UInt8) (later : Reader) : Prop where
  rest : reader.rest = taken ++ later.rest
  offset : later.offset = reader.offset + taken.length
  elements : later.elements = reader.elements

theorem Took.refl (reader : Reader) : Took reader [] reader :=
  ⟨rfl, rfl, rfl⟩

theorem Took.trans {first second : List UInt8} (one : Took reader first middle)
    (two : Took middle second later) : Took reader (first ++ second) later where
  rest := by rw [one.rest, two.rest, List.append_assoc]
  offset := by rw [two.offset, one.offset, List.length_append, Nat.add_assoc]
  elements := two.elements.trans one.elements

theorem bytes_took {length : Nat} {taken : List UInt8}
    (done : Read.bytes length reader = .ok (taken, later)) :
    Took reader taken later ∧ taken.length = length := by
  obtain ⟨_, _, known, done⟩ := bind_ok_iff.mp done
  cases known
  split at done
  next => contradiction
  next enough =>
    cases done
    have whole : (reader.rest.take length).length = length :=
      Nat.le_antisymm (List.length_take_le _ _) (Nat.le_of_not_lt enough)
    exact ⟨⟨(List.take_append_drop length reader.rest).symm, by rw [whole], rfl⟩, whole⟩

theorem number_took {width number : Nat} (done : Read.number width reader = .ok (number, later)) :
    Took reader (toBytes width number) later := by
  obtain ⟨bytes, _, taken, done⟩ := bind_ok_iff.mp done
  cases done
  obtain ⟨took, rfl⟩ := bytes_took taken
  rwa [toBytes_ofBytes]

theorem text_took {text : String} (done : Read.text reader = .ok (text, later)) :
    ∃ bytes : List UInt8, bytes.length < 2 ^ 32 ∧
      Took reader (toBytes 4 bytes.length ++ bytes) later := by
  obtain ⟨length, _, counted, done⟩ := bind_ok_iff.mp done
  obtain ⟨_, _, known, done⟩ := bind_ok_iff.mp done
  cases known
  split at done
  next => contradiction
  next =>
    obtain ⟨bytes, _, taken, done⟩ := bind_ok_iff.mp done
    obtain ⟨took, whole⟩ := bytes_took taken
    cases decoded : Text.decodeUtf8 bytes with
    | error error =>
        rw [decoded] at done
        contradiction
    | ok found =>
        rw [decoded] at done
        cases done
        refine ⟨bytes, whole ▸ number_lt counted, ?_⟩
        rw [whole]
        exact (number_took counted).trans took

def known (reader : Reader) : List Nat :=
  reader.elements.map (·.1)

theorem mem_known_of_lookup {target : Nat} {element : ElementId}
    (found : reader.elements.lookup target = some element) : target ∈ known reader := by
  obtain ⟨before, after, whole, _⟩ := List.lookup_eq_some_iff.mp found
  simp [known, whole]

theorem reference_took {element : ElementId}
    (done : Read.reference record reader = .ok (element, later)) :
    ∃ target, target < 2 ^ 32 ∧ target ∈ known reader ∧ Took reader (toBytes 4 target) later := by
  obtain ⟨target, between, counted, done⟩ := bind_ok_iff.mp done
  obtain ⟨_, _, seen, done⟩ := bind_ok_iff.mp done
  cases seen
  have took := number_took counted
  cases found : between.elements.lookup target with
  | none =>
      rw [found] at done
      contradiction
  | some answer =>
      rw [found] at done
      cases done
      rw [took.elements] at found
      exact ⟨target, number_lt counted, mem_known_of_lookup found, took⟩

theorem references_took {count : Nat} {elements : List ElementId}
    (done : Read.references record count reader = .ok (elements, later)) :
    ∃ targets : List Nat, targets.length = count ∧
      (∀ target ∈ targets, target < 2 ^ 32 ∧ target ∈ known reader) ∧
        Took reader (targets.flatMap (toBytes 4)) later := by
  induction count generalizing reader elements with
  | zero =>
      cases done
      exact ⟨[], rfl, by simp, Took.refl later⟩
  | succ count ih =>
      obtain ⟨first, between, taken, done⟩ := bind_ok_iff.mp done
      obtain ⟨others, _, rest, done⟩ := bind_ok_iff.mp done
      cases done
      obtain ⟨target, small, member, took⟩ := reference_took taken
      obtain ⟨targets, length, all, tookRest⟩ := ih rest
      simp only [known, took.elements] at all
      exact ⟨target :: targets, by rw [List.length_cons, length],
        List.forall_mem_cons.mpr ⟨⟨small, member⟩, all⟩, took.trans tookRest⟩

theorem pair_took {first second : ElementId}
    (one : Read.reference record reader = .ok (first, middle))
    (two : Read.reference record middle = .ok (second, later)) :
    ∃ targets : List Nat, targets.length = 2 ∧
      (∀ target ∈ targets, target < 2 ^ 32 ∧ target ∈ known reader) ∧
        Took reader (targets.flatMap (toBytes 4)) later := by
  have both : Read.references record 2 reader = .ok ([first, second], later) :=
    bind_ok_iff.mpr ⟨first, middle, one, bind_ok_iff.mpr ⟨[second], later,
      bind_ok_iff.mpr ⟨second, later, two, rfl⟩, rfl⟩⟩
  exact references_took both

theorem record_took {number : Nat} {command : Command} {answer : Record ElementId}
    (done : Read.record number command reader = .ok (answer, later)) :
    ∃ (targets : List Nat) (tail : List UInt8), targets.length = command.references ∧
      command.Ends tail ∧ (∀ target ∈ targets, target < 2 ^ 32 ∧ target ∈ known reader) ∧
        Took reader (targets.flatMap (toBytes 4) ++ tail) later := by
  have alone : ∀ {count elements later}, Read.references number count reader = .ok (elements, later) →
      ∃ targets : List Nat, targets.length = count ∧
        (∀ target ∈ targets, target < 2 ^ 32 ∧ target ∈ known reader) ∧
          Took reader (targets.flatMap (toBytes 4) ++ []) later := by
    intro count elements later taken
    simpa only [List.append_nil] using references_took taken
  cases command with
  | solution | project | context | pin =>
      cases done
      exact ⟨[], [], rfl, rfl, by simp, Took.refl reader⟩
  | signal | gate kind =>
      obtain ⟨elements, _, taken, done⟩ := bind_ok_iff.mp done
      cases done
      obtain ⟨targets, count, all, took⟩ := alone taken
      exact ⟨targets, [], count, rfl, all, took⟩
  | timer kind =>
      obtain ⟨elements, between, taken, done⟩ := bind_ok_iff.mp done
      obtain ⟨bits, _, last, done⟩ := bind_ok_iff.mp done
      cases done
      obtain ⟨targets, count, all, took⟩ := references_took taken
      exact ⟨targets, _, count, length_toBytes 4 bits, all, took.trans (number_took last)⟩
  | connect =>
      obtain ⟨start, _, first, done⟩ := bind_ok_iff.mp done
      obtain ⟨stop, _, second, done⟩ := bind_ok_iff.mp done
      obtain ⟨invertStart, _, third, done⟩ := bind_ok_iff.mp done
      obtain ⟨invertStop, _, last, done⟩ := bind_ok_iff.mp done
      cases done
      obtain ⟨targets, count, all, took⟩ := pair_took first second
      refine ⟨targets, toBytes 1 invertStart ++ toBytes 1 invertStop, count, ?_, all,
        took.trans ((number_took third).trans (number_took last))⟩
      simp [Command.Ends, length_toBytes]
  | tag =>
      obtain ⟨name, _, taken, done⟩ := bind_ok_iff.mp done
      obtain ⟨code, _, last, done⟩ := bind_ok_iff.mp done
      obtain ⟨text, short, took⟩ := text_took taken
      cases coded : triOfCode? code with
      | none =>
          rw [coded] at done
          contradiction
      | some value =>
          rw [coded] at done
          cases done
          have whole := took.trans (number_took last)
          rw [List.append_assoc] at whole
          exact ⟨[], _, rfl, ⟨text, code, short, rfl⟩, by simp, whole⟩
  | bindTag =>
      obtain ⟨signal, _, first, done⟩ := bind_ok_iff.mp done
      obtain ⟨tag, _, second, done⟩ := bind_ok_iff.mp done
      cases done
      obtain ⟨targets, count, all, took⟩ := pair_took first second
      exact ⟨targets, [], count, rfl, all, by rwa [List.append_nil]⟩

structure TookRow (reader : Reader) (row : Row) (later : Reader) : Prop where
  fits : row.Fits
  rest : reader.rest = row.bytes ++ later.rest
  offset : later.offset = reader.offset + row.bytes.length
  refers : ∀ target ∈ row.references, target ∈ known reader
  known : ∀ number ∈ known later, number ∈ known reader ∨ row.Declares number

theorem row_took {command : Command} {number : Nat} {targets : List Nat} {tail : List UInt8}
    {start between : Reader}
    (head : Took reader (toBytes 2 command.code ++ toBytes 4 number) start)
    (small : number < 2 ^ 32) (count : targets.length = command.references)
    (ends : command.Ends tail)
    (all : ∀ target ∈ targets, target < 2 ^ 32 ∧ target ∈ known start)
    (took : Took start (targets.flatMap (toBytes 4) ++ tail) between)
    (rest : later.rest = between.rest) (offset : later.offset = between.offset)
    (declared : ∀ other ∈ known later, other ∈ known between ∨
      command ≠ .bindTag ∧ number = other) :
    TookRow reader ⟨command, number, targets, tail⟩ later := by
  have whole := head.trans took
  rw [List.append_assoc] at whole
  simp only [known, head.elements] at all
  refine ⟨⟨small, count, fun target member => (all target member).1, ends⟩, ?_, ?_,
    fun target member => (all target member).2, fun other member => ?_⟩
  · rw [rest]
    exact whole.rest
  · rw [offset]
    exact whole.offset
  · have before := declared other member
    simp only [known, whole.elements] at before
    exact before

theorem bindTag_element {number : Nat} {record : Record ElementId} {assembly grown : Assembly}
    {element : ElementId} (taken : Read.record number .bindTag reader = .ok (record, later)) :
    assembly.add number record ≠ .ok (grown, some element) := by
  obtain ⟨signal, _, _, taken⟩ := bind_ok_iff.mp taken
  obtain ⟨tag, _, _, taken⟩ := bind_ok_iff.mp taken
  cases taken
  intro added
  obtain ⟨⟨_, _⟩, _, added⟩ := Check.bind_ok_iff.mp added
  cases added

theorem step_took {assembly? : Option Assembly} {assembly : Assembly}
    (done : Read.step assembly? reader = .ok (assembly, later)) :
    ∃ row, TookRow reader row later := by
  obtain ⟨_, _, seen, done⟩ := bind_ok_iff.mp done
  cases seen
  obtain ⟨code, _, coded, done⟩ := bind_ok_iff.mp done
  obtain ⟨number, start, numbered, done⟩ := bind_ok_iff.mp done
  have head := (number_took coded).trans (number_took numbered)
  have small : number < 2 ^ 32 := number_lt numbered
  cases found : Command.ofCode? code with
  | none =>
      rw [found] at done
      contradiction
  | some command =>
      rw [found] at done
      rw [← Command.code_of_ofCode? found] at head
      cases assembly? with
      | none =>
          cases command with
          | solution =>
              cases done
              have none : ∀ target ∈ ([] : List Nat), target < 2 ^ 32 ∧ target ∈ known start :=
                nofun
              refine ⟨_, row_took head small rfl rfl none (Took.refl start) rfl rfl ?_⟩
              intro other member
              rcases List.mem_cons.mp member with rfl | member
              · exact Or.inr ⟨by decide, rfl⟩
              · exact Or.inl member
          | _ => contradiction
      | some before =>
          simp only at done
          obtain ⟨record, between, taken, done⟩ := bind_ok_iff.mp done
          obtain ⟨⟨grown, element⟩, _, added, done⟩ := bind_ok_iff.mp done
          obtain ⟨targets, tail, count, ends, all, took⟩ := record_took taken
          cases result : before.add number record with
          | error error =>
              rw [result] at added
              contradiction
          | ok answer =>
              rw [result] at added
              cases added
              cases element with
              | none =>
                  cases done
                  exact ⟨_, row_took head small count ends all took rfl rfl fun _ member =>
                    Or.inl member⟩
              | some element =>
                  cases done
                  refine ⟨_, row_took head small count ends all took rfl rfl ?_⟩
                  intro other member
                  rcases List.mem_cons.mp member with rfl | member
                  · refine Or.inr ⟨?_, rfl⟩
                    rintro rfl
                    exact bindTag_element taken result
                  · exact Or.inl member

theorem records_took {count : Nat} {assembly? final : Option Assembly}
    (done : Read.records count assembly? reader = .ok (final, later)) :
    ∃ rows : List Row, rows.length = count ∧ (∀ row ∈ rows, row.Fits) ∧
      reader.rest = rows.flatMap Row.bytes ++ later.rest ∧
        later.offset = reader.offset + (rows.flatMap Row.bytes).length ∧
          ∀ before row after, rows = before ++ row :: after → ∀ target ∈ row.references,
            target ∈ known reader ∨ ∃ earlier ∈ before, earlier.Declares target := by
  induction count generalizing assembly? reader with
  | zero =>
      cases done
      exact ⟨[], rfl, by simp, by simp, by simp, by simp⟩
  | succ count ih =>
      obtain ⟨assembly, middle, first, done⟩ := bind_ok_iff.mp done
      obtain ⟨row, took⟩ := step_took first
      obtain ⟨rows, length, fits, rest, offset, refers⟩ := ih done
      refine ⟨row :: rows, by rw [List.length_cons, length],
        List.forall_mem_cons.mpr ⟨took.fits, fits⟩, ?_, ?_, ?_⟩
      · rw [took.rest, rest, List.flatMap_cons, List.append_assoc]
      · rw [offset, took.offset, List.flatMap_cons, List.length_append, Nat.add_assoc]
      · intro before other after whole target member
        cases before with
        | nil =>
            cases whole
            exact Or.inl (took.refers target member)
        | cons top before =>
            cases whole
            rcases refers before other after rfl target member with seen | ⟨earlier, listed, known⟩
            · rcases took.known target seen with seen | declares
              · exact Or.inl seen
              · exact Or.inr ⟨_, List.mem_cons_self .., declares⟩
            · exact Or.inr ⟨earlier, List.mem_cons_of_mem _ listed, known⟩

end Read

/-- The bytes of a netlist that is read to its end are rows and their number, and every reference is
the number of an earlier row that declares an element. -/
theorem decode_rows {bytes : List UInt8} {circuit : Circuit}
    (decoded : decode bytes = .ok circuit) :
    ∃ rows : List Row, (∀ row ∈ rows, row.Fits) ∧ rows.length < 2 ^ 32 ∧
      bytes = rows.flatMap Row.bytes ++ toBytes 4 rows.length ∧
        ∀ before row after, rows = before ++ row :: after → ∀ target ∈ row.references,
          ∃ earlier ∈ before, earlier.Declares target := by
  unfold decode at decoded
  split at decoded
  next => contradiction
  next enough =>
    obtain ⟨⟨assembly?, reader⟩, read, decoded⟩ := Check.bind_ok_iff.mp decoded
    dsimp only at decoded
    split at decoded
    next => contradiction
    next ended =>
      obtain ⟨rows, length, fits, rest, offset, refers⟩ := Read.records_took read
      have behind : (rows.flatMap Row.bytes).length = bytes.length - 4 := by
        rw [Nat.zero_add] at offset
        rw [← offset, not_not.mp ended]
      have last : bytes.drop (bytes.length - 4) = reader.rest := by
        rw [← behind]
        exact (congrArg (List.drop _) rest).trans List.drop_left
      have four : reader.rest.length = 4 := by
        rw [← last, List.length_drop]
        omega
      rw [last] at length
      refine ⟨rows, fits, ?_, ?_, fun before row after whole target member => ?_⟩
      · have few := ofBytes_lt reader.rest
        rwa [four, ← length] at few
      · rw [length, ← four, toBytes_ofBytes]
        exact rest
      · rcases refers before row after whole target member with known | found
        · simp [Read.known] at known
        · exact found

end RelayLogic.Netlist
