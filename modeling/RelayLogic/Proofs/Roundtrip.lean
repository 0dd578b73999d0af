import RelayLogic.Proofs.Replay

/-!
Netlists of circuits whose wires look back, read again. What is read is the circuit itself under
other handles: those that number its elements in their order.
-/

namespace RelayLogic.Circuit

open Netlist (Assembly Record solutionName recordsBytes toBytes)
open Netlist.Assembly (Adds)

variable {circuit copy : Circuit} {bound : List ElementId}

theorem Tree.start (tree : circuit.Tree Kind.Nests) (name : String) :
    circuit.Mirrors [] [solution] (.empty name) := by
  obtain ⟨root, held, isSolution, noOwner⟩ := tree.root
  have unowned := tree.owner_solution
  constructor
  case size => rfl
  case closed =>
    intro id member owner owned
    rw [List.mem_singleton.mp member, unowned] at owned
    contradiction
  case each =>
    intro id member
    obtain rfl := List.mem_singleton.mp member
    have twinHeld : (Circuit.empty name).get? (circuit.numberOf solution) =
        some ⟨name, .solution, none, [], none, none⟩ := by
      rw [numberOf_solution]
      rfl
    refine ⟨root, _, held, twinHeld, ?_, ?_, ?_, ?_⟩
    · simp [isSolution, Kind.unbound, Kind.renamed]
    · rw [noOwner]
      rfl
    · simp [unowned]
    · simp [isSolution, Kind.isTag]

def bindingsOf (circuit : Circuit) (ids : List ElementId) : List (Record Nat) :=
  (ids.filterMap circuit.bindingOf).map fun entry => entry.record.map circuit.numberOf

theorem add_bindTag {signal tag : ElementId} {first second : Element}
    (signalHeld : circuit.get? signal = some first) (isSignal : first.kind.isSignal)
    (tagHeld : circuit.get? tag = some second) (isTag : second.kind.isTag)
    (project context : Option ElementId) (number : Nat) :
    Assembly.add ⟨circuit, project, context⟩ number (.bindTag signal tag) =
      .ok (⟨circuit.update signal fun element => { element with kind := .signal (some tag) },
        project, context⟩, none) := by
  have done := Build.run_ok (Build.bindTag_ok signalHeld isSignal tagHeld isTag)
  simp only [Assembly.add, done]
  rfl

namespace Mirrors

theorem skip {id : ElementId} (mirrors : circuit.Mirrors bound circuit.order copy)
    (untagged : circuit.tagOf id = none) :
    circuit.Mirrors (id :: bound) circuit.order copy := by
  refine ⟨mirrors.size, mirrors.closed, fun other member => ?_⟩
  obtain ⟨element, twin, held, twinHeld, isTwin⟩ := mirrors.each other member
  refine ⟨element, twin, held, twinHeld, ?_⟩
  by_cases same : other = id
  · subst same
    have plain : element.kind.unbound = element.kind := by
      cases kind : element.kind with
      | signal tag =>
          cases tag with
          | none => rfl
          | some tag =>
              rw [tagOf_eq_some.mpr ⟨element, held, kind⟩] at untagged
              contradiction
      | _ => rfl
    simpa [plain] using isTwin
  · simpa [same] using isTwin

theorem bind {id tag : ElementId} {element : Element}
    (mirrors : circuit.Mirrors bound circuit.order copy) (held : circuit.get? id = some element)
    (isSignal : element.kind = .signal (some tag)) (known : id ∈ circuit.order) :
    circuit.Mirrors (id :: bound) circuit.order (copy.update (circuit.numberOf id) fun element =>
      { element with kind := .signal (some (circuit.numberOf tag)) }) := by
  refine ⟨by rw [size_update, mirrors.size], mirrors.closed, fun other member => ?_⟩
  obtain ⟨found, twin, foundHeld, twinHeld, isTwin⟩ := mirrors.each other member
  by_cases same : other = id
  · subst same
    rw [held] at foundHeld
    cases foundHeld
    refine ⟨element, _, held, by rw [get?_update_self, twinHeld, Option.map_some], ?_⟩
    refine ⟨?_, isTwin.owner, isTwin.children, isTwin.name⟩
    simp [isSignal, Kind.renamed]
  · have apart : circuit.numberOf other ≠ circuit.numberOf id := fun equal =>
      same (numberOf_inj member equal)
    refine ⟨found, twin, foundHeld, by rw [get?_update_ne apart, twinHeld], ?_⟩
    simpa [same] using isTwin

theorem bindings (valid : circuit.validate = .ok ())
    (known : ∀ id element, circuit.get? id = some element → id ∈ circuit.order)
    (ids : List ElementId) (mirrors : circuit.Mirrors bound circuit.order copy)
    (project context : Option ElementId) (number : Nat) :
    ∃ copy', circuit.Mirrors (ids.reverse ++ bound) circuit.order copy' ∧
      Adds circuit.order.length number ⟨copy, project, context⟩ (circuit.bindingsOf ids)
        ⟨copy', project, context⟩ := by
  induction ids generalizing bound copy number with
  | nil => exact ⟨copy, mirrors, .done⟩
  | cons id ids ih =>
      rw [List.reverse_cons, List.append_assoc]
      cases tagged : circuit.tagOf id with
      | none =>
          have skipped : circuit.bindingsOf (id :: ids) = circuit.bindingsOf ids := by
            simp [bindingsOf, bindingOf, tagged]
          rw [skipped]
          exact ih (mirrors.skip tagged) number
      | some tag =>
          obtain ⟨element, held, isSignal⟩ := tagOf_eq_some.mp tagged
          have first : circuit.bindingsOf (id :: ids) =
              .bindTag (circuit.numberOf id) (circuit.numberOf tag) :: circuit.bindingsOf ids := by
            simp [bindingsOf, bindingOf, tagged, Record.map]
          have parts := (validate_ok_iff.mp valid id element held).2
          rw [isSignal] at parts
          obtain ⟨other, tagHeld, isTag⟩ := parts.2 tag rfl
          have idKnown := known id element held
          have tagKnown := known tag other tagHeld
          obtain ⟨copy', whole, adds⟩ := ih (mirrors.bind held isSignal idKnown) (number + 1)
          refine ⟨copy', whole, ?_⟩
          rw [first]
          obtain ⟨found, twin, foundHeld, twinHeld, isTwin⟩ := mirrors.each id idKnown
          rw [held] at foundHeld
          cases foundHeld
          obtain ⟨foundTag, twinTag, foundTagHeld, twinTagHeld, isTwinTag⟩ :=
            mirrors.each tag tagKnown
          rw [tagHeld] at foundTagHeld
          cases foundTagHeld
          have twinSignal : twin.kind.isSignal := by
            rw [isTwin.kind, isSignal]
            split <;> rfl
          have twinIsTag : twinTag.kind.isTag := by
            rw [isTwinTag.kind]
            cases kind : other.kind with
            | tag initial properties => split <;> rfl
            | _ => simp [kind, Kind.isTag] at isTag
          exact .bind ⟨List.idxOf_lt_length_of_mem idKnown, List.idxOf_lt_length_of_mem tagKnown⟩
            (add_bindTag twinHeld twinSignal twinTagHeld twinIsTag project context number) adds

theorem renames (tree : circuit.Tree Kind.Nests) (mirrors : circuit.Mirrors bound circuit.order copy)
    (all : ∀ id ∈ circuit.order, id ∈ bound) : circuit.Renames circuit.numberOf copy := by
  have listed : ∀ id : Nat, id ∈ circuit.order ↔ id < circuit.size := fun id =>
    tree.mem_order_iff tree.shallow fun _ _ => tree.reach
  constructor
  case fixed => exact circuit.numberOf_solution
  case bijective =>
    refine ⟨fun id bound => ?_, fun first bound second _ same => ?_, fun number bound => ?_⟩
    · rw [Set.mem_Iio, mirrors.size]
      exact List.idxOf_lt_length_of_mem ((listed id).mpr bound)
    · exact numberOf_inj ((listed first).mpr bound) same
    · rw [Set.mem_Iio, mirrors.size] at bound
      exact ⟨circuit.order[number], (listed _).mp (List.getElem_mem bound),
        tree.numberOf_getElem bound⟩
  case each =>
    intro id element held
    have member := (listed id).mpr (get?_lt held)
    obtain ⟨found, twin, foundHeld, twinHeld, isTwin⟩ := mirrors.each id member
    rw [held] at foundHeld
    cases foundHeld
    have children : circuit.order.filter (circuit.owner · = some id) = element.children := by
      rw [order, tree.children_in_order tree.shallow member]
      simp only [Circuit.children, held]
    rw [children, if_pos (all id member)] at isTwin
    exact ⟨twin, twinHeld, isTwin⟩

end Mirrors

namespace Tree

variable (tree : circuit.Tree Kind.Nests)

include tree

theorem records_eq : circuit.records = .solution ::
    (circuit.recordsOf ((circuit.children solution).flatMap (circuit.inOrder 2)) ++
      circuit.bindingsOf circuit.order) := by
  obtain ⟨root, held, isSolution, _⟩ := tree.root
  have first : circuit.recordOf solution = .solution := by
    simp only [recordOf, held, isSolution]
  rw [records, List.map_append, ← bindingsOf]
  simp [recordsOf, entryOf, first, Record.map, Function.comp_def, order, inOrder]

/-- What is read from the netlist of a circuit is the circuit under other handles. -/
theorem decode_encode (backward : circuit.Backward) (valid : circuit.validate = .ok ())
    (few : circuit.entries.length < 2 ^ 32) (short : circuit.ShortTags) :
    ∃ bytes copy, circuit.encode = .ok bytes ∧ Netlist.decode bytes = .ok copy ∧
      circuit.Renames circuit.numberOf copy := by
  obtain ⟨whole, project, context, mirrors, replayed⟩ := (tree.visits backward).replay tree valid
    short rfl List.mem_cons_self (circuit.current_none _ _) (circuit.current_none _ _)
    (tree.start solutionName)
  obtain ⟨copy, bound, bindings⟩ := mirrors.bindings valid
    (fun _ _ held => (tree.mem_order_iff tree.shallow fun _ _ => tree.reach).mpr
      (get?_lt held)) circuit.order project context circuit.order.length
  have renames := bound.renames tree (by simp)
  have adds := replayed _ _ bindings
  have length : circuit.records.length = circuit.entries.length := by
    simp [tree.entries_eq, records]
  rw [← length, tree.records_eq, List.length_cons] at few
  refine ⟨_, copy, tree.encode_ok backward valid, ?_, renames⟩
  rw [tree.records_eq, List.length_cons]
  exact Netlist.decode_ok adds few (renames.valid valid)

end Tree

theorem Laid.decode_encode (laid : circuit.Laid) (valid : circuit.validate = .ok ())
    (few : circuit.entries.length < 2 ^ 32) (short : circuit.ShortTags) :
    ∃ bytes copy, circuit.encode = .ok bytes ∧ Netlist.decode bytes = .ok copy ∧
      circuit.Renames circuit.numberOf copy :=
  laid.tree.decode_encode laid.backward valid few short

end RelayLogic.Circuit
