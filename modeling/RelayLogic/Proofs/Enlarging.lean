import RelayLogic.Proofs.Rooting

/-!
Circuits to which something was added. As long as nothing that is added is connected to an element
that was there before, all of these stay what they are, but for their blocks and for what containers
hold.
-/

namespace RelayLogic

structure Element.Kept (element twin : Element) : Prop where
  name : twin.name = element.name
  kind : twin.kind = element.kind
  owner : twin.owner = element.owner
  children : element.kind.isContainer = false → twin.children = element.children

namespace Circuit

variable {part whole made : Circuit} {belongs : Kind → Kind → Prop}

/-- Whether an element is connected to nothing in a circuit, a container that holds it apart. -/
structure Apart (part : Circuit) (element : Element) : Prop where
  targets : ∀ target ∈ element.kind.targets, part.size ≤ target
  owner : ∀ owner, element.owner = some owner → part.size ≤ owner ∨ part.IsContainer owner

/-- Whether a circuit is another one with more elements, none of which is connected to those of the
other one. -/
structure Enlarges (part whole : Circuit) : Prop where
  size : part.size ≤ whole.size
  kept : ∀ id element, part.get? id = some element →
    ∃ twin, whole.get? id = some twin ∧ element.Kept twin
  apart : ∀ id element, part.size ≤ id → whole.get? id = some element → part.Apart element

theorem enlarges_refl (circuit : Circuit) : circuit.Enlarges circuit where
  size := Nat.le_refl _
  kept _ element held := ⟨element, held, rfl, rfl, rfl, fun _ => rfl⟩
  apart _ _ beyond held := absurd (get?_lt held) (Nat.not_lt_of_le beyond)

theorem Tree.lt_of_owner (tree : part.Tree belongs) {id owner : ElementId}
    (owned : part.owner id = some owner) : owner < part.size := by
  have listed := tree.mem_children.mpr owned
  unfold children at listed
  split at listed
  next element held => exact get?_lt held
  next => contradiction

namespace Enlarges

variable (enlarges : part.Enlarges whole)

include enlarges

theorem update {id : ElementId} {change : Element → Element}
    (kept : ∀ element twin, part.get? id = some element → element.Kept twin →
      element.Kept (change twin))
    (apart : part.size ≤ id → ∀ element, part.Apart element → part.Apart (change element)) :
    part.Enlarges (whole.update id change) := by
  constructor
  case size => rw [size_update]; exact enlarges.size
  case kept =>
    intro other element held
    obtain ⟨twin, twinHeld, isKept⟩ := enlarges.kept other element held
    rw [get?_update, twinHeld]
    split
    next same => exact ⟨_, rfl, kept element twin (same ▸ held) isKept⟩
    next => exact ⟨_, rfl, isKept⟩
  case apart =>
    intro other element beyond held
    rw [get?_update] at held
    split at held
    next same =>
      obtain ⟨before, found, rfl⟩ := Option.map_eq_some_iff.mp held
      exact apart (same ▸ beyond) before (enlarges.apart other before beyond found)
    next => exact enlarges.apart other element beyond held

theorem update_new {id : ElementId} {change : Element → Element} (beyond : part.size ≤ id)
    (apart : ∀ element, part.Apart element → part.Apart (change element)) :
    part.Enlarges (whole.update id change) := by
  refine enlarges.update (fun element twin held _ => ?_) fun _ => apart
  exact absurd (get?_lt held) (Nat.not_lt_of_le beyond)

theorem isContainer_or {owner : ElementId} {container : Element}
    (held : whole.get? owner = some container) (contains : container.kind.isContainer) :
    part.size ≤ owner ∨ part.IsContainer owner := by
  rcases Nat.lt_or_ge owner part.size with bound | beyond
  · obtain ⟨element, found⟩ := exists_get? bound
    obtain ⟨twin, twinHeld, kept⟩ := enlarges.kept owner element found
    obtain rfl := Option.some.inj (held.symm.trans twinHeld)
    exact Or.inr ⟨element, found, kept.kind ▸ contains⟩
  · exact Or.inl beyond

theorem update_children {owner : ElementId}
    (holds : part.size ≤ owner ∨ part.IsContainer owner)
    (change : List ElementId → List ElementId) :
    part.Enlarges (whole.update owner fun element =>
      { element with children := change element.children }) := by
  refine enlarges.update (fun element twin held kept => ⟨kept.name, kept.kind, kept.owner, ?_⟩)
    fun _ _ apart => ⟨apart.targets, apart.owner⟩
  intro contains
  rcases holds with beyond | ⟨container, found, isContainer⟩
  · exact absurd (get?_lt held) (Nat.not_lt_of_le beyond)
  · rw [Option.some.inj (held.symm.trans found), isContainer] at contains
    contradiction

theorem plant {owner : Nat} {container : Element} {kind : Kind}
    (held : whole.get? owner = some container) (contains : container.kind.isContainer)
    (links : ∀ target ∈ kind.targets, part.size ≤ target) (pins : List (String × Pin))
    (name : String) : part.Enlarges (whole.plant owner pins name kind) := by
  have holds := enlarges.isContainer_or held contains
  have grown := enlarges.update_children holds (· ++ [whole.size + pins.length])
  have size := enlarges.size
  constructor
  case size => rw [size_plant]; omega
  case kept =>
    intro id element found
    have below : id < whole.size := Nat.lt_of_lt_of_le (get?_lt found) size
    rw [get?_plant, if_pos below]
    exact grown.kept id element found
  case apart =>
    intro id element beyond found
    rw [get?_plant] at found
    split at found
    · exact grown.apart id element beyond found
    · split at found
      · obtain ⟨_, _, rfl⟩ := Option.map_eq_some_iff.mp found
        refine ⟨by simp [sprout, Kind.targets], ?_⟩
        rintro _ ⟨⟩
        exact Or.inl (Nat.le_add_right_of_le size)
      · split at found
        · cases found
          refine ⟨links, ?_⟩
          rintro _ ⟨⟩
          exact holds
        · contradiction

theorem moveChild {owner child : ElementId} (ownerNew : part.size ≤ owner)
    (childNew : part.size ≤ child) : part.Enlarges (whole.moveChild owner child) := by
  have attach : ∀ detached : Circuit, part.Enlarges detached →
      part.Enlarges ((detached.update child fun element => { element with owner := some owner }).update
        owner fun element => { element with children := element.children ++ [child] }) := by
    intro detached enlarges
    have owned : part.Enlarges (detached.update child fun element =>
        { element with owner := some owner }) := by
      refine enlarges.update_new childNew fun element apart => ⟨apart.targets, ?_⟩
      rintro _ ⟨⟩
      exact Or.inl ownerNew
    exact owned.update_children (Or.inl ownerNew) (· ++ [child])
  unfold Circuit.moveChild
  cases owned : whole.owner child with
  | none => exact attach whole enlarges
  | some old =>
      obtain ⟨element, held, isOwner⟩ := Option.bind_eq_some_iff.mp owned
      have holds := (enlarges.apart child element childNew held).owner old isOwner
      exact attach _ (enlarges.update_children holds _)

theorem take {owner : Nat} {container : Element} {kind : Kind}
    (held : whole.get? owner = some container) (contains : container.kind.isContainer)
    (links : ∀ target ∈ kind.targets, part.size ≤ target) (name : String) {pins : List ElementId}
    (free : ∀ pin ∈ pins, part.size ≤ pin) : part.Enlarges (whole.take owner name kind pins) := by
  have pushed : part.Enlarges (whole.push owner name kind) := by
    rw [push_eq_plant (get?_lt held)]
    exact enlarges.plant held contains links [] name
  have size := enlarges.size
  exact List.foldlRecOn _ _ pushed fun taken enlarges pin member =>
    enlarges.moveChild size (free pin member)

theorem fixPin {id : ElementId} (beyond : part.size ≤ id) (direction : Direction) :
    part.Enlarges (whole.fixPin id direction) :=
  enlarges.update_new beyond fun _ apart => ⟨by simp [Kind.targets], apart.owner⟩

theorem alters (alters : whole.Alters (part.size ≤ ·) made) : part.Enlarges made := by
  cases alters with
  | nothing => exact enlarges
  | plant held contains _ _ links => exact enlarges.plant held contains links _ _
  | @logic owner container name kind pins held contains isLogic _ links =>
      refine enlarges.take held contains ?_ _ links
      cases kind <;> simp [Kind.isLogic, Kind.targets] at isLogic ⊢
  | @signal owner container name input output tag held contains _ links =>
      have onto : ∀ target ∈ (Kind.signal tag).targets, part.size ≤ target :=
        fun target member => links target (List.mem_append_left _ member)
      have taken := enlarges.take held contains onto name fun pin member =>
        links pin (List.mem_append_right _ member)
      exact (taken.fixPin (links _ (by simp)) .input).fixPin (links _ (by simp)) .output
  | bind _ _ links =>
      refine enlarges.update_new (links _ (by simp))
        fun _ apart => ⟨fun target member => ?_, apart.owner⟩
      rw [List.mem_singleton.mp member]
      exact links _ (by simp)
  | label =>
      exact enlarges.update (fun _ _ _ kept => ⟨kept.name, kept.kind, kept.owner, kept.children⟩)
        fun _ _ apart => ⟨apart.targets, apart.owner⟩

theorem twin {id : Nat} (bound : id < part.size) : ∃ element twin,
    part.get? id = some element ∧ whole.get? id = some twin ∧ element.Kept twin := by
  obtain ⟨element, held⟩ := exists_get? bound
  obtain ⟨twin, twinHeld, kept⟩ := enlarges.kept id element held
  exact ⟨element, twin, held, twinHeld, kept⟩

theorem bind_get? {view : Element → Option α}
    (same : ∀ element twin : Element, element.Kept twin → view twin = view element) {id : Nat}
    (bound : id < part.size) : (whole.get? id).bind view = (part.get? id).bind view := by
  obtain ⟨element, twin, held, twinHeld, kept⟩ := enlarges.twin bound
  rw [held, twinHeld, Option.bind_some, Option.bind_some, same element twin kept]

theorem owner {id : Nat} (bound : id < part.size) : whole.owner id = part.owner id :=
  enlarges.bind_get? (fun _ _ kept => kept.owner) bound

theorem isPin {id : Nat} (bound : id < part.size) : whole.isPin id = part.isPin id := by
  obtain ⟨element, twin, held, twinHeld, kept⟩ := enlarges.twin bound
  simp only [Circuit.isPin, held, twinHeld, kept.kind]

theorem direction {id : Nat} (bound : id < part.size) :
    whole.direction id = part.direction id := by
  obtain ⟨⟨_, kind, _, _, _, _⟩, ⟨_, twinKind, _, _, _, _⟩, held, twinHeld, kept⟩ :=
    enlarges.twin bound
  have same : twinKind = kind := kept.kind
  subst same
  simp only [Circuit.direction, held, twinHeld]
  cases twinKind <;> rfl

theorem isContainer_iff {id : Nat} (bound : id < part.size) :
    whole.IsContainer id ↔ part.IsContainer id := by
  obtain ⟨element, twin, held, twinHeld, kept⟩ := enlarges.twin bound
  simp only [IsContainer, held, twinHeld, Option.some.injEq, exists_eq_left', kept.kind]

variable (tree : part.Tree belongs)

include tree

theorem isRelay {id : Nat} (bound : id < part.size) : whole.isRelay id = part.isRelay id := by
  rw [Circuit.isRelay, Circuit.isRelay, enlarges.isPin bound, enlarges.owner bound]
  cases owned : part.owner id with
  | none => rfl
  | some owner =>
      obtain ⟨element, twin, held, twinHeld, kept⟩ := enlarges.twin (tree.lt_of_owner owned)
      simp only [Option.bind_some, held, twinHeld, kept.kind]

theorem pinsOf {id : Nat} (bound : id < part.size) (owns : ¬part.IsContainer id) :
    whole.pinsOf id = part.pinsOf id := by
  obtain ⟨element, twin, held, twinHeld, kept⟩ := enlarges.twin bound
  have contains : element.kind.isContainer = false := by
    by_contra contains
    exact owns ⟨element, held, by simpa using contains⟩
  simp only [Circuit.pinsOf, Circuit.children, held, twinHeld, kept.children contains]
  exact List.filter_congr fun child member => enlarges.isPin (tree.fits held child member)

theorem isSignalPin (wholeTree : whole.Tree belongs) {id : Nat} (bound : id < part.size) :
    whole.isSignalPin id = part.isSignalPin id := by
  obtain ⟨element, twin, held, twinHeld, kept⟩ := enlarges.twin bound
  simp only [Circuit.isSignalPin, held, twinHeld, kept.owner, tree.plain id element held,
    wholeTree.plain id twin twinHeld, Option.any_none, Bool.or_false]
  cases owned : element.owner with
  | none => rfl
  | some owner =>
      have isOwner : part.owner id = some owner := by
        rw [Circuit.owner, held, Option.bind_some, owned]
      obtain ⟨_, _, ownerHeld, ownerTwinHeld, ownerKept⟩ :=
        enlarges.twin (tree.lt_of_owner isOwner)
      simp only [Option.any_some, isSignalOrTag, ownerHeld, ownerTwinHeld, ownerKept.kind]

end Enlarges

theorem enlarges_afterCalls {part : Circuit} (sound : part.Sound Rules.any) {calls : List Call}
    (building : ∀ call ∈ calls, call.isBuilding)
    (links : ∀ call ∈ calls, ∀ id ∈ call.targets, part.size ≤ id) :
    part.Enlarges (part.afterCalls calls) :=
  Build.afterBuilding_of_alters (fun _ _ _ alters enlarges => enlarges.alters alters) sound
    part.enlarges_refl building links

end Circuit

end RelayLogic
