import RelayLogic.Proofs.Altering
import RelayLogic.Proofs.Grouping
import RelayLogic.Proofs.Retelling

/-!
Circuits without what netlists pass over. What remains of a circuit that can be written is laid out
as netlists need it, is written as the circuit is, and so comes back: netlists are canonical.
-/

namespace RelayLogic

theorem Kind.Nests.renamed {rename : ElementId → ElementId} {owner kind : Kind}
    (nests : owner.Nests kind) : (owner.renamed rename).Nests (kind.renamed rename) := by
  cases owner <;> cases kind <;>
    simp_all [Kind.Nests, Kind.renamed, Kind.isSignal, Kind.isLogic]

theorem Kind.Owns.eq_pin {owner kind : Kind} (owns : owner.Owns kind)
    (apart : owner.isContainer = false) : ∃ point, kind = .pin point := by
  cases kind with
  | pin point => exact ⟨point, rfl⟩
  | solution => exact owns.elim
  | project | tag _ _ | context =>
      rw [show owner = _ from owns] at apart
      contradiction
  | _ =>
      rw [show owner.isContainer = true from owns] at apart
      contradiction

namespace Circuit

variable {circuit copy : Circuit} {kept : ElementId → Bool} {rename : Nat → Nat}

/-- Whether netlists tell of an element: it is a tag or holds others, or it stands in a context. -/
def isTold (circuit : Circuit) (id : ElementId) : Bool :=
  (circuit.kind? id).any fun kind => kind.isContainer || kind.isTag ||
    decide ((circuit.zone id).bind circuit.kind? = some .context)

def told (circuit : Circuit) : List ElementId :=
  circuit.ids.filter circuit.isTold

def prune (circuit : Circuit) (element : Element) : Element :=
  { element with
    kind := element.kind.renamed circuit.told.idxOf
    owner := element.owner.map circuit.told.idxOf
    children := (element.children.filter circuit.isTold).map circuit.told.idxOf }

def pruned (circuit : Circuit) : Circuit :=
  ⟨(circuit.told.map fun id => circuit.prune ((circuit.get? id).getD default)).toArray⟩

theorem isTold_iff {id : ElementId} {element : Element} (held : circuit.get? id = some element) :
    circuit.isTold id ↔ (element.kind.isContainer ∨ element.kind.isTag) ∨
      (circuit.zone id).bind circuit.kind? = some .context := by
  simp [isTold, kind?, held]

theorem isTold_lt {id : Nat} (isTold : circuit.isTold id) : id < circuit.size := by
  obtain ⟨kind, isKind, _⟩ := (Option.any_eq_true _ _).mp isTold
  obtain ⟨element, held, _⟩ := kind?_eq_some.mp isKind
  exact get?_lt held

theorem mem_told {id : Nat} : id ∈ circuit.told ↔ circuit.isTold id := by
  rw [told, List.mem_filter, ids, List.mem_range]
  exact and_iff_right_of_imp isTold_lt

theorem nodup_told (circuit : Circuit) : circuit.told.Nodup :=
  List.nodup_range.filter _

theorem zone_in {id owner : ElementId} {container : Element} (owned : circuit.owner id = some owner)
    (held : circuit.get? owner = some container) (contains : container.kind.isContainer) :
    circuit.zone id = some owner := by
  simp [zone, owned, held, contains]

theorem zone_of_part {id owner : ElementId} {container : Element}
    (owned : circuit.owner id = some owner) (held : circuit.get? owner = some container)
    (apart : container.kind.isContainer = false) : circuit.zone id = circuit.owner owner := by
  simp [zone, owned, held, apart]

namespace Tree

variable (tree : circuit.Tree Kind.Owns)

include tree

theorem tells : circuit.Tells circuit.isTold where
  groups _ _ held grouped := (isTold_iff held).mpr (Or.inl grouped)
  members id element held isContext child member := by
    obtain ⟨other, childHeld, _⟩ := tree.nested held isContext member
    refine (isTold_iff childHeld).mpr (Or.inr ?_)
    rw [zone_in (tree.mem_children.mp member) held (Kind.isContainer_of_context isContext)]
    exact kind?_eq_some.mpr ⟨element, held, isContext⟩
  parts id element held isTold needs pin member := by
    obtain ⟨isPin, owned⟩ := tree.mem_pinsOf.mp member
    obtain ⟨other, point, pinHeld, _⟩ := isPin_held isPin
    have plain : element.kind.isContainer = false ∧ element.kind.isTag = false := by
      cases kind : element.kind <;>
        simp [kind, Kind.isSignal, Kind.isLogic, Kind.isContainer, Kind.isTag] at needs ⊢
    obtain ⟨owner, container, above, containerHeld, owns⟩ :=
      tree.owner_nests held (by intro same; simp [same, Kind.isContainer] at plain)
    have contains : container.kind.isContainer := by
      cases kind : element.kind <;>
        simp_all [Kind.isSignal, Kind.isLogic, Kind.Owns]
    have inContext := ((isTold_iff held).mp isTold).resolve_left (by simp [plain])
    refine (isTold_iff pinHeld).mpr (Or.inr ?_)
    rwa [zone_of_part owned held plain.1, above, ← zone_in above containerHeld contains]

theorem told_above {id owner : ElementId} {element container : Element}
    (held : circuit.get? id = some element) (isTold : circuit.isTold id)
    (notMemory : ∀ latch, element.kind ≠ .memory latch)
    (owned : circuit.owner id = some owner) (ownerHeld : circuit.get? owner = some container)
    (owns : container.kind.Owns element.kind) :
    circuit.isTold owner ∧ container.kind.Nests element.kind := by
  have told := (isTold_iff held).mp isTold
  cases contains : container.kind.isContainer with
  | true =>
      refine ⟨(isTold_iff ownerHeld).mpr (Or.inl (Or.inl contains)), ?_⟩
      have isContext (single : ¬(element.kind.isContainer ∨ element.kind.isTag)) :
          container.kind = .context := by
        have inContext := told.resolve_left single
        rw [zone_in owned ownerHeld contains] at inContext
        obtain ⟨other, found, isContext⟩ := kind?_eq_some.mp inContext
        rwa [Option.some.inj (ownerHeld.symm.trans found)]
      cases kind : element.kind with
      | memory latch => exact absurd kind (notMemory latch)
      | project | tag _ _ | context | solution =>
          rw [kind] at owns
          exact owns
      | _ =>
          rw [kind] at isContext owns
          rw [isContext (by simp [Kind.isContainer, Kind.isTag])] at owns ⊢
          exact owns.nests_context (by simp)
  | false =>
      have notSolution : container.kind ≠ .solution := by
        intro same
        rw [same] at contains
        contradiction
      obtain ⟨above, other, ownedAbove, aboveHeld, _⟩ := tree.owner_nests ownerHeld notSolution
      obtain ⟨point, kind⟩ := owns.eq_pin contains
      have inContext := told.resolve_left (by simp [kind, Kind.isContainer, Kind.isTag])
      rw [zone_of_part owned ownerHeld contains, ownedAbove] at inContext
      obtain ⟨context, found, isContext⟩ := kind?_eq_some.mp inContext
      constructor
      · refine (isTold_iff ownerHeld).mpr (Or.inr ?_)
        rw [zone_in ownedAbove found (Kind.isContainer_of_context isContext)]
        exact inContext
      · rw [kind] at owns ⊢
        exact owns.imp_right
          (And.imp_left fun place => Or.inr (place.resolve_left (by simp [contains])))

end Tree

theorem size_pruned (circuit : Circuit) : circuit.pruned.size = circuit.told.length := by
  simp [pruned, size]

theorem get?_pruned {id : Nat} {element : Element} (held : circuit.get? id = some element)
    (isTold : circuit.isTold id) :
    circuit.pruned.get? (circuit.told.idxOf id) = some (circuit.prune element) := by
  have found := List.getElem?_idxOf (mem_told.mpr isTold)
  change (circuit.told.map _).toArray[circuit.told.idxOf id]? = _
  rw [List.getElem?_toArray, List.getElem?_map, found, Option.map_some, held, Option.getD_some]

theorem Tree.extracts_pruned (tree : circuit.Tree Kind.Owns) :
    circuit.Extracts circuit.isTold circuit.told.idxOf circuit.pruned where
  fixed := by
    obtain ⟨root, held, isSolution, _⟩ := tree.root
    have isTold := tree.tells.groups solution root held (by rw [isSolution]; exact Or.inl rfl)
    obtain ⟨rest, size⟩ := Nat.exists_eq_succ_of_ne_zero (Nat.ne_of_gt tree.size_pos)
    have first : circuit.told = solution ::
        ((List.range rest).map Nat.succ).filter circuit.isTold := by
      rw [told, ids, size, List.range_succ_eq_map]
      exact List.filter_cons_of_pos isTold
    rw [first, List.idxOf_cons_self]
    rfl
  exist _ := isTold_lt
  bijective := by
    refine ⟨fun id isTold => ?_, fun first firstTold second _ same => ?_, fun place bound => ?_⟩
    · rw [Set.mem_Iio, size_pruned]
      exact List.idxOf_lt_length_of_mem (mem_told.mpr isTold)
    · exact (List.idxOf_inj (mem_told.mpr firstTold)).mp same
    · rw [Set.mem_Iio, size_pruned] at bound
      exact ⟨circuit.told[place], mem_told.mp (List.getElem_mem bound),
        circuit.nodup_told.idxOf_getElem place bound⟩
  each id element held isTold := ⟨_, get?_pruned held isTold, rfl, rfl, rfl, fun _ => rfl⟩

namespace Tree

variable (tree : circuit.Tree Kind.Owns) {bytes : List UInt8}
  (encoded : circuit.encode = .ok bytes)

include tree encoded

theorem noMemory_told (id : ElementId) (element : Element) (latch : LatchKind)
    (held : circuit.get? id = some element) (isTold : circuit.isTold id) :
    element.kind ≠ .memory latch := by
  intro isMemory
  obtain ⟨owner, container, owned, ownerHeld, owns⟩ := tree.owner_nests held (by simp [isMemory])
  rw [isMemory] at owns
  have inContext := ((isTold_iff held).mp isTold).resolve_left
    (by simp [isMemory, Kind.isContainer, Kind.isTag])
  rw [zone_in owned ownerHeld owns] at inContext
  obtain ⟨other, found, isContext⟩ := kind?_eq_some.mp inContext
  exact tree.noMemory encoded held owned found isContext latch isMemory

variable (valid : circuit.validate = .ok ())

include valid

theorem targets_told (id : ElementId) (element : Element) (held : circuit.get? id = some element)
    (isTold : circuit.isTold id) : ∀ target ∈ element.kind.targets, circuit.isTold target := by
  intro target member
  cases kind : element.kind with
  | signal tag =>
      have needs := (validate_ok_iff.mp valid id element held).2
      rw [kind] at needs member
      obtain ⟨other, tagHeld, isTag⟩ := needs.2 target (by simpa [Kind.targets] using member)
      exact (isTold_iff tagHeld).mpr (Or.inl (Or.inr isTag))
  | wire wire =>
      rw [kind] at member
      obtain ⟨context, container, owned, ownerHeld, owns⟩ := tree.owner_nests held (by simp [kind])
      have nests := (tree.told_above held isTold (by simp [kind]) owned ownerHeld owns).2
      rw [kind] at nests
      obtain ⟨entries, written, closed⟩ := encode_closed encoded
      have told : .ok ⟨some id, .connect wire.start wire.stop wire.invertStart wire.invertStop⟩ ∈
          circuit.entries := by
        refine tree.memberEntries_subset ownerHeld nests (tree.mem_children.mpr owned) ?_
        simp only [memberEntries, element_ok_iff.mpr held, kind, List.mem_singleton]
      rw [written] at told
      obtain ⟨entry, entryMember, same⟩ := List.mem_map.mp told
      cases same
      obtain ⟨other, among, declares⟩ := closed.declared entryMember member
      have listed : .ok other ∈ circuit.entries := written ▸ List.mem_map_of_mem among
      exact tree.extracts_pruned.kept_of_entry tree.tells tree (tree.noMemory_told encoded) listed
        target declares
  | _ => simp [kind, Kind.targets] at member

omit valid

/-- What remains of a circuit that can be written is laid out as netlists need it. -/
theorem nests_pruned : circuit.pruned.Tree Kind.Nests := by
  have extracts := tree.extracts_pruned
  have remains : ∀ place twin, circuit.pruned.get? place = some twin →
      ∃ id element, circuit.get? id = some element ∧ circuit.isTold id ∧
        place = circuit.told.idxOf id ∧ twin = circuit.prune element := by
    intro place twin twinHeld
    obtain ⟨id, isTold, rfl⟩ := extracts.bijective.surjOn (get?_lt twinHeld)
    obtain ⟨element, held⟩ := exists_get? (isTold_lt isTold)
    rw [get?_pruned held isTold] at twinHeld
    exact ⟨id, element, held, isTold, rfl, (Option.some.inj twinHeld).symm⟩
  constructor
  case root =>
    obtain ⟨root, held, isSolution, noOwner⟩ := tree.root
    have isTold := tree.tells.groups solution root held (by rw [isSolution]; exact Or.inl rfl)
    have twinHeld := get?_pruned held isTold
    rw [extracts.fixed] at twinHeld
    exact ⟨_, twinHeld, by simp [prune, isSolution, Kind.renamed], by simp [prune, noOwner]⟩
  case owned =>
    intro place twin twinHeld notRoot
    obtain ⟨id, element, held, isTold, rfl, rfl⟩ := remains place twin twinHeld
    have notSolution : id ≠ solution := fun same => notRoot (same ▸ extracts.fixed)
    obtain ⟨owner, container, owned, ownerHeld, member, owns⟩ :=
      tree.owned id element held notSolution
    obtain ⟨ownerTold, nests⟩ := tree.told_above held isTold
      (tree.noMemory_told encoded id element · held isTold)
      (by simp only [Circuit.owner, held, Option.bind_some, owned]) ownerHeld owns
    refine ⟨_, _, by simp [prune, owned], get?_pruned ownerHeld ownerTold, ?_, ?_⟩
    · exact List.mem_map_of_mem (List.mem_filter.mpr ⟨member, isTold⟩)
    · exact @Kind.Nests.renamed circuit.told.idxOf _ _ nests
  case child =>
    intro place twin twinHeld child member
    obtain ⟨id, element, held, isTold, rfl, rfl⟩ := remains place twin twinHeld
    obtain ⟨original, listed, rfl⟩ := List.mem_map.mp member
    obtain ⟨among, childTold⟩ := List.mem_filter.mp listed
    obtain ⟨other, childHeld, owned⟩ := tree.child id element held original among
    exact ⟨_, get?_pruned childHeld childTold, by simp [prune, owned]⟩
  case unique =>
    intro place twin twinHeld
    obtain ⟨id, element, held, isTold, rfl, rfl⟩ := remains place twin twinHeld
    refine ((tree.unique id element held).filter _).map_on fun first firstListed second _ same => ?_
    exact (List.idxOf_inj (mem_told.mpr (List.mem_filter.mp firstListed).2)).mp same
  case plain =>
    intro place twin twinHeld
    obtain ⟨id, element, held, isTold, rfl, rfl⟩ := remains place twin twinHeld
    exact tree.plain id element held

end Tree

theorem Tree.encode_renamed (tree : circuit.Tree Kind.Nests)
    (renames : circuit.Renames rename copy) {bytes : List UInt8}
    (encoded : circuit.encode = .ok bytes) : copy.encode = .ok bytes := by
  have known : ∀ owner child, child ∈ circuit.children owner → decide (child < circuit.size) := by
    intro owner child member
    obtain ⟨_, held, _⟩ := Option.bind_eq_some_iff.mp (tree.mem_children.mp member)
    exact decide_eq_true (get?_lt held)
  have extracts := renames.extracts fun id element held child member =>
    tree.mem_children.mp (by simpa only [children, held] using member)
  have all : circuit.Tells fun id => decide (id < circuit.size) :=
    ⟨fun _ _ held _ => decide_eq_true (get?_lt held), fun id _ _ _ child => known id child,
      fun id _ _ _ _ pin member => known id pin (List.mem_filter.mp member).1⟩
  refine extracts.encode all tree.owns ?_ encoded
  intro id element latch held _ isMemory
  obtain ⟨_, _, _, _, nests⟩ := tree.owner_nests held (by simp [isMemory])
  rw [isMemory] at nests
  exact nests

theorem Extracts.shortTags (extracts : circuit.Extracts kept rename copy)
    (short : circuit.ShortTags) : copy.ShortTags := by
  intro place twin twinHeld isTag
  obtain ⟨id, isKept, rfl⟩ := extracts.bijective.surjOn (get?_lt twinHeld)
  obtain ⟨element, other, held, otherHeld, isTwin⟩ := extracts.twin isKept
  rw [twinHeld] at otherHeld
  cases otherHeld
  have tagged : element.kind.isTag := by
    rw [isTwin.kind] at isTag
    cases kind : element.kind <;> simp [kind, Kind.renamed, Kind.isTag] at isTag ⊢
  rw [isTwin.name tagged]
  exact short id element held tagged

/-- What building calls make, and can be written, is read again, and is then written as the same
bytes, whatever was passed over. -/
theorem decode_encode_canonical (name : String) {calls : List Call}
    (building : ∀ call ∈ calls, call.isBuilding)
    (valid : ((empty name).afterCalls calls).validate = .ok ())
    (few : ((empty name).afterCalls calls).entries.length < 2 ^ 32)
    (short : ((empty name).afterCalls calls).ShortTags) {bytes : List UInt8}
    (encoded : ((empty name).afterCalls calls).encode = .ok bytes) :
    ∃ copy, Netlist.decode bytes = .ok copy ∧ copy.encode = .ok bytes := by
  have tree := (Build.sound_afterBuilding name building).owns valid
  have extracts := tree.extracts_pruned
  have noMemory := tree.noMemory_told encoded
  have prunedEncoded := extracts.encode tree.tells tree noMemory encoded
  have prunedValid := extracts.valid valid tree.tells.parts (tree.targets_told encoded valid)
  have prunedFew := (extracts.retells tree.tells tree noMemory).length_eq ▸ few
  have nests := tree.nests_pruned encoded
  obtain ⟨again, copy, written, loaded, renames⟩ := nests.decode_encode
    (nests.backward_of_encode prunedValid prunedEncoded) prunedValid prunedFew
    (extracts.shortTags short)
  rw [prunedEncoded] at written
  cases written
  exact ⟨copy, loaded, nests.encode_renamed renames prunedEncoded⟩

def cluttered : List Call :=
  [.addTag "glow" .false, .addPin solution "loose", .addProject "shed", .addContext 3 "bench",
    .addGate 3 .and "spare", .addGate 4 .or "hold", .addPin 4 "plug", .addPin 4 "socket",
    .signalFromPins 4 "lamp" none 15 16, .bindTag 17 1, .addWire 4 10 15 true false]

theorem cluttered_canonical : (∀ call ∈ cluttered, call.isBuilding) ∧
    ∃ circuit bytes, circuit = (empty "yard").afterCalls cluttered ∧ circuit.validate = .ok () ∧
      circuit.entries.length < 2 ^ 32 ∧ circuit.ShortTags ∧ ¬circuit.Shown ∧
        circuit.encode = .ok bytes ∧
          ∃ copy, Netlist.decode bytes = .ok copy ∧ copy.encode = .ok bytes := by
  have building : ∀ call ∈ cluttered, call.isBuilding := by decide
  have valid : ((empty "yard").afterCalls cluttered).validate = .ok () := by decide +kernel
  have few : ((empty "yard").afterCalls cluttered).entries.length < 2 ^ 32 := by decide +kernel
  have hidden : ¬((empty "yard").afterCalls cluttered).Shown := by decide +kernel
  have short : ((empty "yard").afterCalls cluttered).ShortTags := by
    have all : ∀ id ∈ ((empty "yard").afterCalls cluttered).ids,
        ∀ element ∈ ((empty "yard").afterCalls cluttered).get? id,
          (Text.encodeUtf8 element.name).length < 2 ^ 32 := by decide +kernel
    exact fun id element held _ => all id (List.mem_range.mpr (get?_lt held)) element held
  have written : ((empty "yard").afterCalls cluttered).encode.toOption.isSome := by decide +kernel
  cases encoded : ((empty "yard").afterCalls cluttered).encode with
  | error error =>
      rw [encoded] at written
      exact Bool.noConfusion written
  | ok bytes =>
      have canonical := decode_encode_canonical "yard" building valid few short encoded
      exact ⟨building, _, bytes, rfl, valid, few, short, hidden, encoded, canonical⟩

end Circuit

end RelayLogic
