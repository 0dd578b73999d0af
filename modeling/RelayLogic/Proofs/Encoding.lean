import RelayLogic.Proofs.Layout

/-!
The netlist of a circuit that is laid out: the records of its elements in their order, and then
those that map its signals onto tags.
-/

namespace RelayLogic.Circuit

open Netlist (Entry Entries Closed Record Field recordsBytes toBytes)

variable {circuit : Circuit}

def entryOf (circuit : Circuit) (id : ElementId) : Entry :=
  ⟨some id, circuit.recordOf id⟩

def bindingOf (circuit : Circuit) (id : ElementId) : Option Entry :=
  (circuit.tagOf id).map fun tag => ⟨none, .bindTag id tag⟩

theorem bindingEntries_eq (ids : List ElementId) :
    circuit.bindingEntries (ids.map (.ok <| circuit.entryOf ·)) =
      (ids.filterMap circuit.bindingOf).map .ok := by
  rw [bindingEntries, List.filterMap_map, List.map_filterMap]
  refine List.filterMap_congr fun id _ => ?_
  simp only [Function.comp_apply, entryOf, bindingOf, Option.map_map]
  cases held : circuit.get? id with
  | none => simp only [recordOf, tagOf, held, Option.map_none]
  | some element =>
      obtain ⟨name, kind, owner, children, evaluator, block⟩ := element
      cases kind with
      | signal tag =>
          simp only [recordOf, held]
          rfl
      | _ => simp only [recordOf, tagOf, held, Option.map_none]

namespace Tree

variable (tree : circuit.Tree Kind.Nests)

include tree

theorem recordOf_child {id child : ElementId} {element : Element}
    (held : circuit.get? id = some element) (owner : element.kind.isSignal ∨ element.kind.isLogic)
    (member : child ∈ circuit.children id) : circuit.recordOf child = .pin := by
  obtain ⟨other, point, childHeld, isPin, _⟩ := tree.owns.owned_pin held owner member
  simp only [recordOf, childHeld, isPin]

theorem memberEntries_eq {id : ElementId} {element : Element}
    (held : circuit.get? id = some element) (nests : Kind.context.Nests element.kind) :
    circuit.memberEntries id = (circuit.inOrder 0 id).map (.ok <| circuit.entryOf ·) := by
  have leaf : element.kind.isLeaf →
      circuit.inOrder 0 id = [id] := by
    intro leaf
    rw [inOrder, tree.children_eq_nil held leaf, List.nil_append]
  have owner : element.kind.isSignal ∨ element.kind.isLogic →
      Netlist.ownerEntries id (circuit.pinsOf id) (circuit.recordOf id) =
        (circuit.inOrder 0 id).map (.ok <| circuit.entryOf ·) := by
    intro owner
    rw [Netlist.ownerEntries, tree.owns.pinsOf_eq_children held owner, inOrder, List.map_append]
    refine congrArg₂ _ (List.map_congr_left fun child member => ?_) rfl
    rw [entryOf, tree.recordOf_child held owner member]
  have element_ok : circuit.element id = .ok element := element_ok_iff.mpr held
  cases kind : element.kind with
  | pin point =>
      simp only [memberEntries, element_ok, kind, leaf (by rw [kind]; rfl), List.map_cons,
        List.map_nil, entryOf, recordOf, held]
  | wire wire =>
      simp only [memberEntries, element_ok, kind, leaf (by rw [kind]; rfl), List.map_cons,
        List.map_nil, entryOf, recordOf, held]
  | signal tag =>
      rw [← owner (by rw [kind]; exact Or.inl rfl)]
      simp only [memberEntries, element_ok, kind, recordOf, held]
  | gate _ =>
      rw [← owner (by rw [kind]; exact Or.inr rfl)]
      simp only [memberEntries, element_ok, kind, recordOf, held]
  | timer _ _ =>
      rw [← owner (by rw [kind]; exact Or.inr rfl)]
      simp only [memberEntries, element_ok, kind, recordOf, held]
  | _ =>
      rw [kind] at nests
      simp [Kind.Nests] at nests

theorem contextEntries_eq {id : ElementId} {element : Element}
    (held : circuit.get? id = some element) (isContext : element.kind = .context) :
    circuit.contextEntries id = (circuit.inOrder 1 id).map (.ok <| circuit.entryOf ·) := by
  have children : element.children = circuit.children id := by
    simp only [Circuit.children, held]
  have each : ∀ child ∈ circuit.children id, circuit.memberEntries child =
      (circuit.inOrder 0 child).map (.ok <| circuit.entryOf ·) := by
    intro child member
    obtain ⟨other, childHeld, nests⟩ := tree.nested held isContext member
    exact tree.memberEntries_eq childHeld nests
  simp only [contextEntries, element_ok_iff.mpr held, isContext, children]
  rw [List.flatMap_congr each, inOrder, List.map_cons, List.map_flatMap]
  simp only [entryOf, recordOf, held, isContext]

theorem topEntries_eq {id : ElementId} (member : id ∈ circuit.children solution) :
    circuit.topEntries id = (circuit.inOrder 2 id).map (.ok <| circuit.entryOf ·) := by
  obtain ⟨root, rootHeld, isSolution, _⟩ := tree.root
  obtain ⟨element, held, nests⟩ := tree.nested rootHeld isSolution member
  have children : element.children = circuit.children id := by
    simp only [Circuit.children, held]
  cases kind : element.kind with
  | tag initial properties =>
      simp only [topEntries, element_ok_iff.mpr held, kind, inOrder,
        tree.children_eq_nil held (by rw [kind]; rfl), List.flatMap_nil, List.map_cons,
        List.map_nil, entryOf, recordOf, held]
  | project =>
      have each : ∀ child ∈ circuit.children id, circuit.contextEntries child =
          (circuit.inOrder 1 child).map (.ok <| circuit.entryOf ·) := by
        intro child childMember
        obtain ⟨other, childHeld, childNests⟩ := tree.nested held kind childMember
        exact tree.contextEntries_eq childHeld childNests.isContext
      simp only [topEntries, element_ok_iff.mpr held, kind, children]
      rw [List.flatMap_congr each, inOrder, List.map_cons, List.map_flatMap]
      simp only [entryOf, recordOf, held, kind]
  | _ => simp [kind, Kind.Nests, Kind.isSignal, Kind.isLogic] at nests

theorem entries_eq : circuit.entries =
    (circuit.order.map circuit.entryOf ++ circuit.order.filterMap circuit.bindingOf).map .ok := by
  have tops : (circuit.children solution).flatMap circuit.topEntries =
      ((circuit.children solution).flatMap (circuit.inOrder 2)).map
        (.ok <| circuit.entryOf ·) := by
    rw [List.flatMap_congr fun id member => tree.topEntries_eq member, List.map_flatMap]
  have noTag : circuit.bindingOf solution = none := by
    obtain ⟨root, held, isSolution, _⟩ := tree.root
    obtain ⟨name, kind, owner, children, evaluator, block⟩ := root
    simp only at isSolution
    subst isSolution
    simp only [bindingOf, tagOf, held, Option.map_none]
  have first : circuit.entryOf solution = ⟨some solution, .solution⟩ := by
    obtain ⟨root, held, isSolution, _⟩ := tree.root
    simp only [entryOf, recordOf, held, isSolution]
  rw [entries, tops, bindingEntries_eq, order, inOrder, List.filterMap_cons_none noTag]
  simp only [List.map_cons, List.map_append, List.map_map, first, List.cons_append]
  rfl

end Tree

theorem closed_pins {pins visited : List ElementId} {rest : List Entry}
    (plain : ∀ pin ∈ pins, circuit.recordOf pin = .pin) (closed : Closed (visited ++ pins) rest) :
    Closed visited (pins.map circuit.entryOf ++ rest) := by
  induction pins generalizing visited with
  | nil => simpa using closed
  | cons pin pins ih =>
      refine ⟨?_, ih (fun other member => plain other (List.mem_cons_of_mem _ member)) ?_⟩
      · simp [entryOf, plain pin List.mem_cons_self, Record.references]
      · simpa [entryOf] using closed

theorem Visits.closed {project context : Option ElementId} {visited remaining : List ElementId}
    (tree : circuit.Tree Kind.Nests) (visits : circuit.Visits project context visited remaining)
    {rest : List Entry} (closed : Closed (visited ++ remaining) rest) :
    Closed visited (remaining.map circuit.entryOf ++ rest) := by
  induction visits with
  | done => simpa using closed
  | @tag project context visited id remaining isTag _ ih =>
      obtain ⟨element, held, isTag⟩ := isTag
      refine ⟨?_, ih (by simpa using closed)⟩
      cases kind : element.kind <;>
        simp [kind, Kind.isTag, entryOf, recordOf, held, Record.references] at isTag ⊢
  | @project project context visited id element remaining held isProject _ ih =>
      refine ⟨?_, ih (by simpa using closed)⟩
      simp [entryOf, recordOf, held, isProject, Record.references]
  | @context project context visited id element remaining held isContext _ _ ih =>
      refine ⟨?_, ih (by simpa using closed)⟩
      simp [entryOf, recordOf, held, isContext, Record.references]
  | @member project context visited id element remaining held nests _ known _ ih =>
      rw [inOrder, List.append_assoc, List.map_append, List.append_assoc]
      refine closed_pins ?_ ⟨?_, ?_⟩
      · intro pin isPin
        by_cases leaf : element.kind.isLeaf
        · rw [tree.children_eq_nil held leaf] at isPin
          contradiction
        · refine tree.recordOf_child held ?_ isPin
          cases kind : element.kind <;>
            simp [kind, Kind.isLeaf, Kind.Nests, Kind.isSignal, Kind.isLogic] at leaf nests ⊢
      · intro target refers
        exact List.mem_append_left _ (known target refers)
      · have continued := ih (by simpa [inOrder] using closed)
        simpa [inOrder, entryOf] using continued

theorem tagOf_eq_some {id tag : ElementId} : circuit.tagOf id = some tag ↔
    ∃ element, circuit.get? id = some element ∧ element.kind = .signal (some tag) := by
  unfold tagOf
  cases circuit.get? id with
  | none => simp
  | some element =>
      obtain ⟨name, kind, owner, children, evaluator, block⟩ := element
      cases kind <;> simp

theorem closed_bindings (tree : circuit.Tree Kind.Nests) (valid : circuit.validate = .ok ())
    {ids : List ElementId} (members : ∀ id ∈ ids, id ∈ circuit.order) :
    Closed circuit.order (ids.filterMap circuit.bindingOf) := by
  induction ids with
  | nil => trivial
  | cons id ids ih =>
      have rest := ih fun other member => members other (List.mem_cons_of_mem _ member)
      cases mapped : circuit.bindingOf id with
      | none =>
          rw [List.filterMap_cons_none mapped]
          exact rest
      | some entry =>
          rw [List.filterMap_cons_some mapped]
          obtain ⟨tag, tagged, rfl⟩ := Option.map_eq_some_iff.mp mapped
          obtain ⟨element, held, isSignal⟩ := tagOf_eq_some.mp tagged
          have parts := (validate_ok_iff.mp valid id element held).2
          rw [isSignal] at parts
          obtain ⟨other, tagHeld, _⟩ := parts.2 tag rfl
          refine ⟨?_, by simpa using rest⟩
          intro target refers
          refine List.mem_append_left _ ?_
          rcases List.mem_pair.mp refers with rfl | rfl
          · exact members target List.mem_cons_self
          · exact (tree.mem_order_iff tree.shallow fun _ _ => tree.reach).mpr (get?_lt tagHeld)

def numberOf (circuit : Circuit) (id : ElementId) : Nat :=
  circuit.order.idxOf id

def records (circuit : Circuit) : List (Record Nat) :=
  (circuit.order.map circuit.entryOf ++ circuit.order.filterMap circuit.bindingOf).map
    fun entry => entry.record.map circuit.numberOf

/-- A valid circuit in which wires look back is written as its records. -/
theorem Tree.encode_ok (tree : circuit.Tree Kind.Nests) (backward : circuit.Backward)
    (valid : circuit.validate = .ok ()) :
    circuit.encode =
      .ok (recordsBytes 0 circuit.records ++ toBytes 4 circuit.records.length) := by
  have closed : Closed []
      (circuit.order.map circuit.entryOf ++ circuit.order.filterMap circuit.bindingOf) := by
    obtain ⟨root, held, isSolution, _⟩ := tree.root
    refine ⟨by simp [entryOf, recordOf, held, isSolution, Record.references], ?_⟩
    exact (tree.visits backward).closed tree (closed_bindings tree valid fun id member => member)
  have numbered : ∀ index entry,
      (circuit.order.map circuit.entryOf ++ circuit.order.filterMap circuit.bindingOf)[index]? =
        some entry → ∀ id ∈ entry.element, circuit.numberOf id = 0 + index := by
    intro index entry found id declares
    rw [Nat.zero_add]
    by_cases early : index < circuit.order.length
    · rw [List.getElem?_append_left (by simpa using early), List.getElem?_map,
        List.getElem?_eq_getElem early] at found
      cases found
      cases declares
      exact (tree.nodup_order tree.shallow).idxOf_getElem index early
    · rw [List.getElem?_append_right (by simpa using early)] at found
      obtain ⟨other, _, mapped⟩ := List.mem_filterMap.mp (List.mem_of_getElem? found)
      obtain ⟨tag, _, rfl⟩ := Option.map_eq_some_iff.mp mapped
      contradiction
  have nothing : ∀ target ∈ ([] : List ElementId),
      ([] : Netlist.Numbers).lookup target = some (circuit.numberOf target) := by simp
  have written := Netlist.encodeEntries_ok closed nothing numbered
  rw [encode, encodePartial, tree.entries_eq, written]
  simp only [Nat.zero_add, records, List.length_map]

end RelayLogic.Circuit
