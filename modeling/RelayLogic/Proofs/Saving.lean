import RelayLogic.Proofs.Gaining
import RelayLogic.Proofs.Joining
import RelayLogic.Proofs.Roundtrip
import Mathlib.Algebra.Order.BigOperators.Group.Finset

/-!
What is saved of a circuit. Netlists tell of tags and projects in the solution, of contexts in
projects, and of what contexts hold; all that stands elsewhere is passed over. A circuit in which
nothing does comes back whole, if it can be written.
-/

namespace RelayLogic

def Rules.shown : Rules :=
  ⟨(· = .context), fun _ => True, True, fun _ => Kind.isContainer_of_context⟩

namespace Circuit

variable {rules : Rules} {circuit : Circuit}

namespace Sound

variable (sound : circuit.Sound rules) (valid : circuit.validate = .ok ())

include sound valid

theorem directed_pinsOf {signal : Nat} (isSignal : signal ∈ circuit.signalIds) :
    (circuit.pinsOf signal).toFinset.card = 2 ∧
      ∀ pin ∈ circuit.pinsOf signal, pin ∈ circuit.directed := by
  obtain ⟨kind, isKind, isSignal⟩ := mem_signalIds.mp isSignal
  obtain ⟨element, held, rfl⟩ := kind?_eq_some.mp isKind
  cases same : element.kind with
  | signal tag =>
      have parts := (validate_ok_iff.mp valid signal element held).2
      rw [same] at parts
      have arePins := parts.1
      unfold areSignalPins at arePins
      split at arePins
      next input output pins =>
        simp only [Bool.and_eq_true, beq_iff_eq] at arePins
        constructor
        · rw [List.toFinset_card_of_nodup (sound.tree.nodup_pinsOf signal), pins]
          rfl
        · intro pin member
          have isPin := (sound.tree.mem_pinsOf.mp member).1
          obtain ⟨found, point, pinHeld, isPin⟩ := isPin_held isPin
          refine mem_directed.mpr ⟨point, kind?_eq_some.mpr ⟨found, pinHeld, isPin⟩, ?_⟩
          rw [← direction_of_pin pinHeld isPin]
          rw [pins, List.mem_pair] at member
          rcases member with rfl | rfl
          · simp [arePins.1]
          · simp [arePins.2]
      next => contradiction
  | _ => simp [same, Kind.isSignal] at isSignal

theorem directed_eq :
    circuit.directed = circuit.signalIds.biUnion fun id => (circuit.pinsOf id).toFinset := by
  have apart : (circuit.signalIds : Set Nat).PairwiseDisjoint
      fun id => (circuit.pinsOf id).toFinset := by
    intro first _ second _ different
    refine Finset.disjoint_left.mpr fun pin member other => different ?_
    exact sound.tree.pinsOf_unique (List.mem_toFinset.mp member) (List.mem_toFinset.mp other)
  have card : (circuit.signalIds.biUnion fun id => (circuit.pinsOf id).toFinset).card =
      2 * circuit.signalIds.card := by
    rw [Finset.card_biUnion apart, Finset.sum_const_nat fun id member =>
      (sound.directed_pinsOf valid member).1, Nat.mul_comm]
  refine (Finset.eq_of_subset_of_card_le (fun pin member => ?_) ?_).symm
  · obtain ⟨signal, isSignal, owned⟩ := Finset.mem_biUnion.mp member
    exact (sound.directed_pinsOf valid isSignal).2 pin (List.mem_toFinset.mp owned)
  · rw [card]
    exact sound.paired

theorem pin_cases {pin : ElementId} {element container : Element} {point : Pin} {owner : ElementId}
    (held : circuit.get? pin = some element) (isPin : element.kind = .pin point)
    (owned : element.owner = some owner) (ownerHeld : circuit.get? owner = some container)
    (carries : container.kind.Carries rules (.pin point)) :
    container.kind.isSignal ∧ (point = .fixed .input ∨ point = .fixed .output) ∨
      (container.kind.isLogic ∨ rules.holds container.kind) ∧ point = .floating := by
  have settled := sound.settled pin element held
  have member : pin ∈ circuit.directed ↔ point.direction ≠ .undefined := by
    rw [mem_directed]
    constructor
    · rintro ⟨other, isOther, known⟩
      rw [kind?_eq_some.mpr ⟨element, held, isPin⟩] at isOther
      cases isOther
      exact known
    · exact fun known => ⟨point, kind?_eq_some.mpr ⟨element, held, isPin⟩, known⟩
  have owner_eq : circuit.owner pin = some owner := by
    simp only [Circuit.owner, held, Option.bind_some, owned]
  have pins : pin ∈ circuit.pinsOf owner :=
    sound.tree.mem_pinsOf.mpr ⟨by simp [Circuit.isPin, held, isPin, Kind.isPin], owner_eq⟩
  obtain ⟨direction, resets⟩ := point
  by_cases undirected : direction = .undefined
  · subst undirected
    have floats : resets = true := by
      by_contra keeps
      exact settled.anchored _ isPin (by simpa using keeps) rfl
    refine Or.inr ⟨?_, by rw [floats]; rfl⟩
    rcases carries with isSignal | others
    · have listed : owner ∈ circuit.signalIds :=
        mem_signalIds.mpr ⟨_, kind?_eq_some.mpr ⟨container, ownerHeld, rfl⟩, isSignal⟩
      exact absurd rfl (member.mp ((sound.directed_pinsOf valid listed).2 pin pins))
    · exact others
  · have keeps : resets = false := by
      by_contra floats
      exact undirected (settled.undirected _ isPin (by simpa using floats))
    have listed := member.mpr undirected
    rw [sound.directed_eq valid] at listed
    obtain ⟨signal, isSignal, owns⟩ := Finset.mem_biUnion.mp listed
    rw [sound.tree.pinsOf_unique (List.mem_toFinset.mp owns) pins] at isSignal
    obtain ⟨kind, isKind, isSignal⟩ := mem_signalIds.mp isSignal
    rw [kind?_eq_some.mpr ⟨container, ownerHeld, rfl⟩] at isKind
    cases isKind
    refine Or.inl ⟨isSignal, ?_⟩
    subst keeps
    cases direction with
    | undefined => contradiction
    | input => exact Or.inl rfl
    | output => exact Or.inr rfl

theorem owns : circuit.Tree Kind.Owns := by
  refine sound.tree.refine fun id element owner container held owned ownerHeld carries => ?_
  cases kind : element.kind with
  | pin point =>
      rw [kind] at carries
      rcases sound.pin_cases valid held kind owned ownerHeld carries with first | ⟨other, floats⟩
      · exact Or.inl first
      · exact Or.inr ⟨other.symm.imp_left (rules.contains _), floats⟩
  | memory latch =>
      rw [kind] at carries
      exact rules.contains _ carries.1
  | solution | project | tag _ _ | context =>
      rw [kind] at carries
      exact carries
  | _ =>
      rw [kind] at carries
      exact rules.contains _ carries

theorem nests (contexts : ∀ kind, rules.holds kind → kind = .context)
    (noMemory : ∀ id element kind, circuit.get? id = some element → element.kind ≠ .memory kind) :
    circuit.Tree Kind.Nests := by
  refine sound.tree.refine fun id element owner container held owned ownerHeld carries => ?_
  cases kind : element.kind with
  | pin point =>
      rw [kind] at carries
      rcases sound.pin_cases valid held kind owned ownerHeld carries with first | ⟨other, floats⟩
      · exact Or.inl first
      · exact Or.inr ⟨other.symm.imp_left (contexts _), floats⟩
  | memory latch => exact absurd kind (noMemory id element latch held)
  | solution | project | tag _ _ | context =>
      rw [kind] at carries
      exact carries
  | _ =>
      rw [kind] at carries
      exact contexts _ carries

end Sound

/-- Whether nothing but tags and projects stands in the solution, and nothing but contexts in a
project. -/
def Shown (circuit : Circuit) : Prop :=
  ∀ id ∈ circuit.ids, ∀ element ∈ circuit.get? id, ∀ owner ∈ element.owner,
    ∀ container ∈ circuit.get? owner,
      (container.kind = .solution → element.kind.isTag ∨ element.kind = .project) ∧
        (container.kind = .project → element.kind = .context)

instance : Decidable circuit.Shown :=
  inferInstanceAs (Decidable (∀ id ∈ circuit.ids, _))

theorem Sound.shown (sound : circuit.Sound Rules.any) (shown : circuit.Shown) :
    circuit.Sound Rules.shown := by
  refine ⟨?_, sound.named, sound.settled, sound.paired⟩
  refine sound.tree.refine fun id element owner container held owned ownerHeld carries => ?_
  obtain ⟨inSolution, inProject⟩ :=
    shown id (List.mem_range.mpr (get?_lt held)) element held owner owned container ownerHeld
  have context : container.kind.isContainer → (element.kind.isTag = false) →
      element.kind ≠ .project → element.kind ≠ .context → container.kind = .context := by
    intro contains notTag notProject notContext
    cases kind : container.kind with
    | context => rfl
    | project => exact absurd (inProject kind) notContext
    | solution => simpa [notTag, notProject] using inSolution kind
    | _ => simp [kind, Kind.isContainer] at contains
  cases kind : element.kind with
  | pin point =>
      rw [kind] at carries context
      exact carries.imp_right (Or.imp_right fun contains =>
        context contains rfl (by simp) (by simp))
  | solution | project | tag _ _ | context =>
      rw [kind] at carries
      exact carries
  | memory latch =>
      rw [kind] at carries context
      exact ⟨context carries.1 rfl (by simp) (by simp), trivial⟩
  | _ =>
      rw [kind] at carries context
      exact context carries rfl (by simp) (by simp)

end Circuit

namespace Netlist

theorem mem_fields {record : Record ref} {target : ref} (refers : target ∈ record.references) :
    .reference target ∈ record.fields := by
  cases record <;> simp_all [Record.fields, Record.references]

theorem encodeFields_known {numbers : Numbers} {fields : List (Field ElementId)}
    {bytes : List UInt8} (done : encodeFields numbers fields = (bytes, none)) :
    ∀ target, .reference target ∈ fields → (numbers.lookup target).isSome := by
  induction fields generalizing bytes with
  | nil => simp
  | cons field fields ih =>
      intro target member
      simp only [encodeFields] at done
      split at done
      next => simp at done
      next first written =>
        obtain ⟨-, none⟩ := Prod.mk.inj done
        rcases List.mem_cons.mp member with rfl | later
        · simp only [Field.encode] at written
          split at written
          next number found => simp [found]
          next => contradiction
        · exact ih (Prod.ext rfl none) target later

theorem encodeEntries_ok_cons {entry : Entry} {entries : Entries} {count : Nat} {numbers : Numbers}
    {bytes : List UInt8} (done : encodeEntries count numbers (.ok entry :: entries) = (bytes, none)) :
    ∃ fields more,
      encodeFields (entry.number count numbers) entry.record.fields = (fields, none) ∧
        encodeEntries (count + 1) (entry.number count numbers) entries = (more, none) := by
  obtain ⟨element, record⟩ := entry
  cases element with
  | none | some element =>
      simp only [encodeEntries] at done
      split at done
      next => simp at done
      next fields written => exact ⟨fields, _, written, Prod.ext rfl (Prod.mk.inj done).2⟩

theorem encodeEntries_closed {entries : Entries} {count : Nat} {numbers : Numbers}
    {bytes : List UInt8} {known : List ElementId}
    (knows : ∀ target, (numbers.lookup target).isSome → target ∈ known)
    (done : encodeEntries count numbers entries = (bytes, none)) :
    ∃ list, entries = list.map .ok ∧ Closed known list := by
  induction entries generalizing count numbers bytes known with
  | nil => exact ⟨[], rfl, trivial⟩
  | cons entry entries ih =>
      cases entry with
      | error error => simp [encodeEntries] at done
      | ok entry =>
          have grown : ∀ target, ((entry.number count numbers).lookup target).isSome →
              target ∈ known ++ entry.element.toList := by
            intro target found
            cases declares : entry.element with
            | none =>
                simp only [Entry.number, declares] at found
                simpa using knows target found
            | some element =>
                simp only [Entry.number, declares, List.lookup_cons] at found
                by_cases same : target = element
                · simp [same]
                · have different : (target == element) = false := by simpa using same
                  simp only [different] at found
                  exact List.mem_append_left _ (knows target found)
          obtain ⟨fields, more, written, rest⟩ := encodeEntries_ok_cons done
          obtain ⟨list, rfl, closed⟩ := ih grown rest
          exact ⟨entry :: list, rfl, fun target refers =>
            grown target (encodeFields_known written target (mem_fields refers)), closed⟩

theorem Closed.references {entry : Entry} {after : List Entry} {before : List Entry}
    {known : List ElementId} (closed : Closed known (before ++ entry :: after)) :
    ∀ target ∈ entry.record.references,
      target ∈ known ++ before.flatMap (·.element.toList) ++ entry.element.toList := by
  induction before generalizing known with
  | nil => simpa using closed.1
  | cons first before ih =>
      intro target refers
      simpa using ih closed.2 target refers

theorem Closed.declared {entries : List Entry} (closed : Closed [] entries) {entry : Entry}
    (member : entry ∈ entries) {target : ElementId} (refers : target ∈ entry.record.references) :
    ∃ other ∈ entries, target ∈ other.element := by
  obtain ⟨before, after, rfl⟩ := List.append_of_mem member
  rcases List.mem_append.mp (closed.references target refers) with earlier | same
  · obtain ⟨other, among, declares⟩ := List.mem_flatMap.mp earlier
    exact ⟨other, List.mem_append_left _ among, Option.mem_toList.mp declares⟩
  · exact ⟨entry, member, Option.mem_toList.mp same⟩

end Netlist

namespace Circuit

open Netlist (Closed)

variable {rules : Rules} {circuit : Circuit}

theorem encode_closed {bytes : List UInt8} (encoded : circuit.encode = .ok bytes) :
    ∃ entries, circuit.entries = entries.map .ok ∧ Closed [] entries := by
  unfold encode at encoded
  split at encoded
  next written => exact Netlist.encodeEntries_closed (by simp) written
  next => contradiction

theorem Tree.memberEntries_subset (tree : circuit.Tree Kind.Owns) {id context : ElementId}
    {element : Element} (held : circuit.get? context = some element)
    (isContext : element.kind = .context) (member : id ∈ circuit.children context) :
    circuit.memberEntries id ⊆ circuit.entries := by
  obtain ⟨project, container, contextOwned, projectHeld, owns⟩ :=
    tree.owner_nests held (by simp [isContext])
  rw [isContext] at owns
  have isProject : container.kind = .project := owns
  obtain ⟨top, root, projectOwned, rootHeld, ownsProject⟩ :=
    tree.owner_nests projectHeld (by simp [isProject])
  rw [isProject] at ownsProject
  have isTop : top = solution := by
    by_contra notRoot
    obtain ⟨_, _, _, _, _, ownsRoot⟩ := tree.owned top root rootHeld notRoot
    rw [show root.kind = .solution from ownsProject] at ownsRoot
    exact ownsRoot
  have children : ∀ {id element}, circuit.get? id = some element →
      circuit.children id = element.children := fun held => by simp only [Circuit.children, held]
  intro entry written
  refine List.mem_append_left _ (List.mem_cons_of_mem _ (List.mem_flatMap.mpr ⟨project, ?_, ?_⟩))
  · rw [← isTop]
    exact tree.mem_children.mpr projectOwned
  · simp only [topEntries, element_ok_iff.mpr projectHeld, isProject, ← children projectHeld]
    refine List.mem_cons_of_mem _ (List.mem_flatMap.mpr
      ⟨context, tree.mem_children.mpr contextOwned, ?_⟩)
    simp only [contextEntries, element_ok_iff.mpr held, isContext, ← children held]
    exact List.mem_cons_of_mem _ (List.mem_flatMap.mpr ⟨id, member, written⟩)

theorem Tree.noMemory (tree : circuit.Tree Kind.Owns) {bytes : List UInt8}
    (encoded : circuit.encode = .ok bytes) {id context : ElementId} {element container : Element}
    (held : circuit.get? id = some element) (owned : circuit.owner id = some context)
    (ownerHeld : circuit.get? context = some container) (isContext : container.kind = .context) :
    ∀ latch, element.kind ≠ .memory latch := by
  intro latch isMemory
  obtain ⟨entries, written, _⟩ := encode_closed encoded
  have faulty : .error (.unsupported id (.memory latch)) ∈ circuit.entries := by
    refine tree.memberEntries_subset ownerHeld isContext (tree.mem_children.mpr owned) ?_
    simp only [memberEntries, element_ok_iff.mpr held, isMemory, List.mem_singleton]
  rw [written] at faulty
  obtain ⟨_, _, same⟩ := List.mem_map.mp faulty
  contradiction

theorem Sound.noMemory (sound : circuit.Sound rules) (valid : circuit.validate = .ok ())
    (contexts : ∀ kind, rules.holds kind → kind = .context) {bytes : List UInt8}
    (encoded : circuit.encode = .ok bytes) (id : ElementId) (element : Element) (latch : LatchKind)
    (held : circuit.get? id = some element) : element.kind ≠ .memory latch := by
  intro isMemory
  obtain ⟨context, container, owned, ownerHeld, carries⟩ :=
    sound.tree.owner_nests held (by simp [isMemory])
  rw [isMemory] at carries
  exact (sound.owns valid).noMemory encoded held owned ownerHeld (contexts _ carries.1) latch isMemory

theorem Tree.backward_of_encode (tree : circuit.Tree Kind.Nests)
    (valid : circuit.validate = .ok ()) {bytes : List UInt8} (encoded : circuit.encode = .ok bytes) :
    circuit.Backward := by
  intro id element wire held isWire visited remaining parts
  obtain ⟨entries, written, closed⟩ := encode_closed encoded
  rw [tree.entries_eq, parts] at written
  have same := List.map_injective_iff.mpr (fun _ _ => Except.ok.inj) written
  have needs := (validate_ok_iff.mp valid id element held).2
  rw [isWire] at needs
  have known : ∀ pin, circuit.isPin pin → pin ∈ (circuit.recordOf id).references →
      pin ∈ visited := by
    intro pin isPin refers
    rw [← same, List.map_append, List.map_cons, List.append_assoc, List.cons_append] at closed
    have member := closed.references pin refers
    have declared : (visited.map circuit.entryOf).flatMap (·.element.toList) = visited := by
      simp [List.flatMap_map, entryOf]
    rw [declared] at member
    refine (List.mem_append.mp member).resolve_right fun itself => ?_
    rw [List.mem_singleton.mp itself] at isPin
    simp [Circuit.isPin, held, isWire, Kind.isPin] at isPin
  have refers : (circuit.recordOf id).references = [wire.start, wire.stop] := by
    simp only [recordOf, held, isWire, Netlist.Record.references]
  rw [refers] at known
  exact ⟨known _ needs.1 (by simp), known _ needs.2.1 (by simp)⟩

/-- A sound circuit that is written comes back whole. -/
theorem Sound.decode_encode (sound : circuit.Sound rules)
    (contexts : ∀ kind, rules.holds kind → kind = .context)
    (valid : circuit.validate = .ok ()) (few : circuit.entries.length < 2 ^ 32)
    (short : circuit.ShortTags) {bytes : List UInt8} (encoded : circuit.encode = .ok bytes) :
    ∃ copy, Netlist.decode bytes = .ok copy ∧ circuit.Renames circuit.numberOf copy := by
  have tree := sound.nests valid contexts (sound.noMemory valid contexts encoded)
  obtain ⟨others, copy, again, decoded, renames⟩ :=
    tree.decode_encode (tree.backward_of_encode valid encoded) valid few short
  rw [encoded] at again
  cases again
  exact ⟨copy, decoded, renames⟩

end Circuit

end RelayLogic
