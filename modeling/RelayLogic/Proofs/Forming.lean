import RelayLogic.Proofs.Descending
import RelayLogic.Proofs.Rows

/-!
What the decoder lets in. Every circuit that is read from bytes is well-formed, though only its
validation at the end asks for some of that, and nothing ever asks for the rest.
-/

namespace RelayLogic

namespace Circuit

variable {circuit : Circuit}

/-- A tree of elements in which each is where it belongs, with the pins and the tag that it needs. -/
structure WellFormed (circuit : Circuit) : Prop where
  spanning : circuit.Spanning
  owned : ∀ id, id < circuit.size → id ≠ solution → ∃ owner, circuit.owner id = some owner
  descendants : (circuit.descendants solution).Perm (circuit.ids.erase solution)
  top : ∀ child ∈ circuit.children solution, ∃ kind, circuit.kind? child = some kind ∧
    (kind.isTag ∨ kind = .project)
  projects : ∀ project, circuit.kind? project = some .project →
    ∀ child ∈ circuit.children project, circuit.kind? child = some .context
  wires : ∀ id wire, circuit.kind? id = some (.wire wire) →
    circuit.isPin wire.start ∧ circuit.isPin wire.stop ∧ wire.start ≠ wire.stop
  signals : ∀ id tag, circuit.kind? id = some (.signal tag) →
    (∃ input output, circuit.children id = [input, output] ∧
      circuit.kind? input = some (.pin (.fixed .input)) ∧
        circuit.kind? output = some (.pin (.fixed .output))) ∧
      ∀ target ∈ tag, circuit.IsTag target
  logic : ∀ id kind, circuit.kind? id = some kind → kind.isLogic →
    (circuit.children id).length = 4 ∧
      ∀ pin ∈ circuit.children id, circuit.kind? pin = some (.pin .floating)
  delays : ∀ id kind delay, circuit.kind? id = some (.timer kind delay) →
    delay.isFinite ∧ delay.isNegative = false

theorem Spanning.owned (spanning : circuit.Spanning) {id : Nat} (bound : id < circuit.size)
    (notRoot : id ≠ solution) : ∃ owner, circuit.owner id = some owner := by
  obtain ⟨levels, reached⟩ := spanning.reaches id bound
  cases levels with
  | zero => exact absurd (Option.some.inj reached) notRoot
  | succ levels =>
      obtain ⟨owner, owned, _⟩ := Option.bind_eq_some_iff.mp reached
      exact ⟨owner, owned⟩

theorem Tree.wellFormed (tree : circuit.Tree Kind.Nests) (valid : circuit.validate = .ok ()) :
    circuit.WellFormed := by
  have spanning : circuit.Spanning := tree.spanning fun id bound => by
    obtain ⟨element, held⟩ := exists_get? bound
    exact tree.reach held
  have parts : ∀ id kind, circuit.kind? id = some kind → circuit.HasParts id kind := by
    intro id kind isKind
    obtain ⟨element, held, rfl⟩ := kind?_eq_some.mp isKind
    exact (validate_ok_iff.mp valid id element held).2
  refine ⟨spanning, fun id bound notRoot => spanning.owned bound notRoot,
    spanning.descendants_perm, ?_, ?_, fun id wire => parts id _, ?_, ?_,
    fun id kind delay isTimer => (parts id _ isTimer).2⟩
  · intro child member
    obtain ⟨root, held, isSolution, _⟩ := tree.root
    obtain ⟨other, childHeld, nests⟩ := tree.nested held isSolution member
    refine ⟨other.kind, kind?_eq_some.mpr ⟨other, childHeld, rfl⟩, ?_⟩
    cases kind : other.kind with
    | tag _ _ => exact Or.inl rfl
    | project => exact Or.inr rfl
    | _ => simp [kind, Kind.Nests, Kind.isSignal, Kind.isLogic] at nests
  · intro project isProject child member
    obtain ⟨element, held, same⟩ := kind?_eq_some.mp isProject
    obtain ⟨other, childHeld, nests⟩ := tree.nested held same member
    exact kind?_eq_some.mpr ⟨other, childHeld, nests.isContext⟩
  · intro id tag isSignal
    obtain ⟨element, held, same⟩ := kind?_eq_some.mp isSignal
    obtain ⟨input, output, pins, isInput, isOutput⟩ := tree.owns.signal_pins valid held same
    exact ⟨⟨input, output, pins, kind?_eq_some.mpr isInput, kind?_eq_some.mpr isOutput⟩,
      (parts id _ isSignal).2⟩
  · intro id kind isKind isLogic
    obtain ⟨element, held, rfl⟩ := kind?_eq_some.mp isKind
    obtain ⟨four, floating⟩ := tree.owns.logic_pins valid held isLogic
    exact ⟨four, fun pin member => kind?_eq_some.mpr (floating pin member)⟩

end Circuit

namespace Netlist

/-- Only well-formed circuits are read from bytes, and only from bytes in which every reference is
the number of an earlier record. -/
theorem decode_wellFormed {bytes : List UInt8} {circuit : Circuit}
    (decoded : decode bytes = .ok circuit) :
    circuit.WellFormed ∧ ∃ rows : List Row, (∀ row ∈ rows, row.Fits) ∧ rows.length < 2 ^ 32 ∧
      bytes = rows.flatMap Row.bytes ++ toBytes 4 rows.length ∧
        ∀ before row after, rows = before ++ row :: after → ∀ target ∈ row.references,
          ∃ earlier ∈ before, earlier.Declares target := by
  obtain ⟨sound, valid, _⟩ := decode_loads decoded
  have tree := sound.nests valid (fun _ same => same) sound.noMemory_netlist
  exact ⟨tree.wellFormed valid, decode_rows decoded⟩

def repeated : List Row :=
  [⟨.solution, 0, [], []⟩, ⟨.project, 1, [], []⟩, ⟨.context, 2, [], []⟩, ⟨.pin, 3, [], []⟩,
    ⟨.pin, 4, [], []⟩, ⟨.signal, 5, [3, 4], []⟩, ⟨.pin, 3, [], []⟩, ⟨.connect, 6, [4, 3], [0, 1]⟩]

theorem repeated_wellFormed : ∃ bytes circuit, bytes = repeated.flatMap Row.bytes ++ toBytes 4 8 ∧
    decode bytes = .ok circuit ∧ circuit.WellFormed ∧
      ∃ rows : List Row, (∀ row ∈ rows, row.Fits) ∧ rows.length < 2 ^ 32 ∧
        bytes = rows.flatMap Row.bytes ++ toBytes 4 rows.length ∧
          ∀ before row after, rows = before ++ row :: after → ∀ target ∈ row.references,
            ∃ earlier ∈ before, earlier.Declares target := by
  have loads : (decode (repeated.flatMap Row.bytes ++ toBytes 4 8)).toOption.isSome := by
    decide +kernel
  cases decoded : decode (repeated.flatMap Row.bytes ++ toBytes 4 8) with
  | error error =>
      rw [decoded] at loads
      contradiction
  | ok circuit =>
      obtain ⟨formed, rows⟩ := decode_wellFormed decoded
      exact ⟨_, circuit, rfl, decoded, formed, rows⟩

end Netlist

end RelayLogic
