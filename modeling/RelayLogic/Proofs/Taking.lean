import RelayLogic.Proofs.Clearing
import RelayLogic.Proofs.Drawing

/-!
Elements that take pins. A signal, a gate, a timer or a memory may be made of pins that stand in a
container, and even of pins that another element has. The circuit stays a tree, in which such an
element may be short of pins.
-/

namespace RelayLogic

namespace Circuit

variable {belongs : Kind → Kind → Prop} {circuit : Circuit}

def kind? (circuit : Circuit) (id : ElementId) : Option Kind :=
  (circuit.get? id).map (·.kind)

theorem kind?_eq_some {id : ElementId} {kind : Kind} :
    circuit.kind? id = some kind ↔ ∃ element, circuit.get? id = some element ∧ element.kind = kind :=
  Option.map_eq_some_iff

theorem isPin_eq (circuit : Circuit) (id : ElementId) :
    circuit.isPin id = (circuit.kind? id).any Kind.isPin := by
  simp only [isPin, kind?]
  cases circuit.get? id <;> rfl

theorem kind?_update (circuit : Circuit) (id other : ElementId) (kind : Kind) :
    (circuit.update id fun element => { element with kind := kind }).kind? other =
      if other = id then (circuit.kind? other).map fun _ => kind else circuit.kind? other := by
  simp only [kind?, get?_update]
  split <;> simp [Function.comp_def]

theorem kind?_update_kept {id other : ElementId} {change : Element → Element}
    (kept : ∀ element, (change element).kind = element.kind) :
    (circuit.update id change).kind? other = circuit.kind? other := by
  simp only [kind?, get?_update]
  split <;> simp [Function.comp_def, kept]

theorem kind?_push (owner : ElementId) (name : String) (kind : Kind) (other : ElementId) :
    (circuit.push owner name kind).kind? other =
      if other = circuit.size then some kind else circuit.kind? other := by
  simp only [push, kind?_update_kept, implies_true]
  by_cases new : other = circuit.size
  · simp [kind?, get?, size, new]
  · rw [if_neg new, kind?, get?, Array.getElem?_push]
    exact congrArg _ (if_neg new)

def rehomed (old owner child id : ElementId) (element : Element) : Element :=
  { element with
    owner := if id = child then some owner else element.owner
    children :=
      (if id = old then element.children.filter (· != child) else element.children) ++
        if id = owner then [child] else [] }

theorem get?_rehomed {old child : ElementId} (owned : circuit.owner child = some old)
    (owner id : ElementId) :
    (circuit.moveChild owner child).get? id =
      (circuit.get? id).map (rehomed old owner child id) := by
  simp only [moveChild, owned, get?_update]
  cases circuit.get? id with
  | none => simp
  | some element =>
      by_cases isOwner : id = owner <;> by_cases isOld : id = old <;>
        by_cases isChild : id = child
      all_goals simp only [isOwner, isOld, isChild, ↓reduceIte, Option.map_some, rehomed]
      all_goals simp_all

theorem kind?_moveChild (circuit : Circuit) (owner child id : ElementId) :
    (circuit.moveChild owner child).kind? id = circuit.kind? id := by
  unfold Circuit.moveChild
  split <;> simp only [kind?_update_kept, implies_true]

def take (circuit : Circuit) (owner : ElementId) (name : String) (kind : Kind)
    (pins : List ElementId) : Circuit :=
  pins.foldl (·.moveChild circuit.size ·) (circuit.push owner name kind)

@[simp] theorem size_take (circuit : Circuit) (owner : ElementId) (name : String) (kind : Kind)
    (pins : List ElementId) : (circuit.take owner name kind pins).size = circuit.size + 1 := by
  have kept : ∀ taken : Circuit,
      (pins.foldl (·.moveChild circuit.size ·) taken).size = taken.size := by
    induction pins with
    | nil => exact fun _ => rfl
    | cons pin pins ih => exact fun taken => (ih _).trans (size_moveChild taken _ pin)
  exact (kept _).trans (size_push circuit owner name kind)

theorem kind?_take (owner : ElementId) (name : String) (kind : Kind) (pins : List ElementId)
    (other : ElementId) : (circuit.take owner name kind pins).kind? other =
      if other = circuit.size then some kind else circuit.kind? other := by
  have kept : ∀ taken : Circuit,
      (pins.foldl (·.moveChild circuit.size ·) taken).kind? other = taken.kind? other := by
    induction pins with
    | nil => exact fun _ => rfl
    | cons pin pins ih => exact fun taken => (ih _).trans (kind?_moveChild taken _ pin other)
  exact (kept _).trans (kind?_push owner name kind other)

namespace Tree

theorem notSolution (tree : Tree belongs circuit) {id : ElementId} {kind : Kind}
    (held : circuit.kind? id = some kind) (other : kind ≠ .solution) : id ≠ solution := by
  rintro rfl
  obtain ⟨root, rootHeld, isSolution, _⟩ := tree.root
  obtain ⟨element, found, rfl⟩ := kind?_eq_some.mp held
  rw [rootHeld] at found
  exact other (Option.some.inj found ▸ isSolution)

theorem moveChild (tree : Tree belongs circuit) {owner child : ElementId}
    {element container : Element} (held : circuit.get? child = some element)
    (notRoot : child ≠ solution) (ownerHeld : circuit.get? owner = some container)
    (belonging : belongs container.kind element.kind) :
    Tree belongs (circuit.moveChild owner child) := by
  obtain ⟨old, _, owned, _, _, _⟩ := tree.owned child element held notRoot
  have owner_eq : circuit.owner child = some old := by
    simp only [Circuit.owner, held, Option.bind_some, owned]
  have after := get?_rehomed owner_eq owner
  have later : ∀ {id found}, circuit.get? id = some found →
      (circuit.moveChild owner child).get? id = some (rehomed old owner child id found) :=
    fun {id found} isFound => by rw [after, isFound, Option.map_some]
  have before : ∀ {id found}, (circuit.moveChild owner child).get? id = some found →
      ∃ source, circuit.get? id = some source ∧ found = rehomed old owner child id source := by
    intro id found isFound
    rw [after] at isFound
    obtain ⟨source, sourceHeld, rfl⟩ := Option.map_eq_some_iff.mp isFound
    exact ⟨source, sourceHeld, rfl⟩
  constructor
  case root =>
    obtain ⟨root, rootHeld, isSolution, noOwner⟩ := tree.root
    refine ⟨_, later rootHeld, isSolution, ?_⟩
    simp only [rehomed, notRoot.symm, ↓reduceIte, noOwner]
  case owned =>
    intro id found isFound idNotRoot
    obtain ⟨source, sourceHeld, rfl⟩ := before isFound
    by_cases isChild : id = child
    · subst isChild
      rw [held] at sourceHeld
      cases sourceHeld
      refine ⟨owner, _, by simp only [rehomed, ↓reduceIte], later ownerHeld, ?_, belonging⟩
      simp [rehomed]
    · obtain ⟨parent, parentElement, ownedBy, parentHeld, member, belongs⟩ :=
        tree.owned id source sourceHeld idNotRoot
      refine ⟨parent, _, by simp only [rehomed, isChild, ↓reduceIte, ownedBy], later parentHeld,
        List.mem_append_left _ ?_, belongs⟩
      split
      · exact List.mem_filter.mpr ⟨member, by simpa using isChild⟩
      · exact member
  case child =>
    intro id found isFound listed member
    obtain ⟨source, sourceHeld, rfl⟩ := before isFound
    rcases List.mem_append.mp member with kept | new
    · have wasListed : listed ∈ source.children ∧ listed ≠ child := by
        split at kept
        next => simpa using kept
        next different =>
          refine ⟨kept, ?_⟩
          rintro rfl
          obtain ⟨other, otherHeld, otherOwned⟩ := tree.child id source sourceHeld _ kept
          rw [held] at otherHeld
          rw [← Option.some.inj otherHeld, owned] at otherOwned
          exact different (Option.some.inj otherOwned).symm
      obtain ⟨other, otherHeld, otherOwned⟩ := tree.child id source sourceHeld listed wasListed.1
      refine ⟨_, later otherHeld, ?_⟩
      simp only [rehomed, wasListed.2, ↓reduceIte, otherOwned]
    · split at new
      next isOwner =>
        rw [List.mem_singleton.mp new]
        refine ⟨_, later held, ?_⟩
        simp only [rehomed, ↓reduceIte, isOwner]
      next => contradiction
  case unique =>
    intro id found isFound
    obtain ⟨source, sourceHeld, rfl⟩ := before isFound
    have unique := tree.unique id source sourceHeld
    have absent : child ∉
        if id = old then source.children.filter (· != child) else source.children := by
      split
      next => simp
      next different =>
        intro member
        obtain ⟨other, otherHeld, otherOwned⟩ := tree.child id source sourceHeld child member
        rw [held] at otherHeld
        rw [← Option.some.inj otherHeld, owned] at otherOwned
        exact different (Option.some.inj otherOwned).symm
    refine List.nodup_append.mpr ⟨?_, ?_, ?_⟩
    · split
      · exact unique.filter _
      · exact unique
    · split
      · exact List.nodup_singleton _
      · exact List.nodup_nil
    · rintro listed kept _ new rfl
      split at new
      · exact absent (List.mem_singleton.mp new ▸ kept)
      · contradiction
  case plain =>
    intro id found isFound
    obtain ⟨source, sourceHeld, rfl⟩ := before isFound
    exact tree.plain id source sourceHeld

theorem moveChildren (tree : Tree belongs circuit) {owner : ElementId} {kind : Kind}
    (held : circuit.kind? owner = some kind) (belonging : ∀ point, belongs kind (.pin point))
    {pins : List ElementId} (arePins : ∀ pin ∈ pins, circuit.isPin pin) :
    Tree belongs (pins.foldl (·.moveChild owner ·) circuit) := by
  induction pins generalizing circuit with
  | nil => exact tree
  | cons pin pins ih =>
      obtain ⟨element, point, pinHeld, isPin⟩ := isPin_held (arePins pin List.mem_cons_self)
      obtain ⟨container, containerHeld, rfl⟩ := kind?_eq_some.mp held
      have notRoot := tree.notSolution (kind?_eq_some.mpr ⟨element, pinHeld, isPin⟩) (by simp)
      have moved := tree.moveChild pinHeld notRoot containerHeld (isPin ▸ belonging point)
      refine ih moved (by rw [kind?_moveChild, held]) fun other member => ?_
      rw [isPin_eq, kind?_moveChild, ← isPin_eq]
      exact arePins other (List.mem_cons_of_mem _ member)

/-- A tree stays one when a new element takes pins that it may own. -/
theorem take (tree : Tree belongs circuit) {owner : ElementId} {container : Element} {kind : Kind}
    (held : circuit.get? owner = some container) (belonging : belongs container.kind kind)
    (owns : ∀ point, belongs kind (.pin point)) (name : String) {pins : List ElementId}
    (arePins : ∀ pin ∈ pins, circuit.isPin pin) :
    Tree belongs (circuit.take owner name kind pins) := by
  have known : owner < circuit.size := get?_lt held
  have pushed : Tree belongs (circuit.push owner name kind) := by
    rw [push_eq_plant known]
    exact tree.plant held belonging (by simp)
  refine pushed.moveChildren (by rw [kind?_push, if_pos rfl]) owns fun pin member => ?_
  have isPin := arePins pin member
  have old : pin ≠ circuit.size := by
    obtain ⟨_, _, pinHeld, _⟩ := isPin_held isPin
    exact Nat.ne_of_lt (get?_lt pinHeld)
  rw [isPin_eq, kind?_push, if_neg old, ← isPin_eq]
  exact isPin

end Tree

end Circuit

end RelayLogic
