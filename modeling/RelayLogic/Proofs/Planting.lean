import RelayLogic.Proofs.Arena
import RelayLogic.Proofs.Keeping
import Mathlib.Data.List.Range

/-!
Elements are added together with their pins. Whether the pins come with the element or were there
before it, the arena is the same afterwards: the pins first, then the element that owns them.
-/

namespace RelayLogic

namespace Circuit

variable {circuit : Circuit}

def sprout (owner : ElementId) (name : String) (kind : Kind) : Element :=
  ⟨name, kind, some owner, [], none, none⟩

/-- The circuit with one more element and the new pins that it owns, which come before it. -/
def plant (circuit : Circuit) (owner : ElementId) (pins : List (String × Pin)) (name : String)
    (kind : Kind) : Circuit :=
  let id := circuit.size + pins.length
  ⟨(circuit.update owner (·.adding id)).elements ++
    (pins.map fun (name, pin) => sprout id name (.pin pin)).toArray ++
    #[{ sprout owner name kind with children := List.range' circuit.size pins.length }]⟩

@[simp] theorem size_plant (circuit : Circuit) (owner : ElementId) (pins : List (String × Pin))
    (name : String) (kind : Kind) :
    (circuit.plant owner pins name kind).size = circuit.size + pins.length + 1 := by
  simp [plant, size, update, Nat.add_assoc]

theorem get?_plant (circuit : Circuit) (owner : ElementId) (pins : List (String × Pin))
    (name : String) (kind : Kind) (other : Nat) :
    (circuit.plant owner pins name kind).get? other =
      if other < circuit.size then
        (circuit.update owner (·.adding (circuit.size + pins.length))).get? other
      else if other < circuit.size + pins.length then
        (pins[other - circuit.size]?).map fun (name, pin) =>
          sprout (circuit.size + pins.length) name (.pin pin)
      else if other = circuit.size + pins.length then
        some { sprout owner name kind with children := List.range' circuit.size pins.length }
      else none := by
  have grown : (circuit.update owner (·.adding (circuit.size + pins.length))).elements.size =
      circuit.size := size_update _ _ _
  simp only [plant, get?, Array.getElem?_append, grown, Array.size_append, List.size_toArray,
    List.length_map, List.getElem?_toArray, List.getElem?_map]
  by_cases below : other < circuit.size
  · have early : other < circuit.size + pins.length := by omega
    simp only [below, early, ↓reduceIte]
  · by_cases early : other < circuit.size + pins.length
    · simp only [below, early, ↓reduceIte]
    · by_cases last : other = circuit.size + pins.length
      · subst last
        simp
      · have far : other - (circuit.size + pins.length) ≠ 0 := by omega
        simp [below, early, last, far]

theorem get?_plant_pin (circuit : Circuit) (owner : ElementId) {pins : List (String × Pin)}
    {index : Nat} {pinName : String} {pin : Pin} (held : pins[index]? = some (pinName, pin))
    (name : String) (kind : Kind) :
    (circuit.plant owner pins name kind).get? (circuit.size + index) =
      some (sprout (circuit.size + pins.length) pinName (.pin pin)) := by
  have bound : index < pins.length := (List.getElem?_eq_some_iff.mp held).1
  have notOld : ¬circuit.size + index < circuit.size := by omega
  have early : circuit.size + index < circuit.size + pins.length := by omega
  simp only [get?_plant, notOld, early, ↓reduceIte, Nat.add_sub_cancel_left, held, Option.map_some]

theorem get?_plant_new (circuit : Circuit) (owner : ElementId) (pins : List (String × Pin))
    (name : String) (kind : Kind) :
    (circuit.plant owner pins name kind).get? (circuit.size + pins.length) =
      some { sprout owner name kind with children := List.range' circuit.size pins.length } := by
  have notOld : ¬circuit.size + pins.length < circuit.size := by omega
  have notPin : ¬circuit.size + pins.length < circuit.size + pins.length := by omega
  simp only [get?_plant, notOld, notPin, ↓reduceIte]

theorem get?_plant_old {id : Nat} {old : Element} (held : circuit.get? id = some old)
    (owner : ElementId) (pins : List (String × Pin)) (name : String) (kind : Kind) :
    (circuit.plant owner pins name kind).get? id =
      some { old with children :=
        if id = owner then old.children ++ [circuit.size + pins.length] else old.children } := by
  have below : id < circuit.size := get?_lt held
  simp only [get?_plant, below, ↓reduceIte, get?_update, held, Option.map_some]
  split <;> rfl

section

variable {owner id : Nat} {container old : Element} (pins : List (String × Pin)) (name : String)
  (kind : Kind)

theorem children_plant_owner (held : circuit.get? owner = some container) :
    (circuit.plant owner pins name kind).children owner =
      circuit.children owner ++ [circuit.size + pins.length] := by
  simp only [children, get?_plant_old held, held, ↓reduceIte]

theorem children_plant_old (held : circuit.get? id = some old) (different : id ≠ owner) :
    (circuit.plant owner pins name kind).children id = circuit.children id := by
  simp only [children, get?_plant_old held, held, different, ↓reduceIte]

theorem children_plant_new (circuit : Circuit) (owner : ElementId) :
    (circuit.plant owner pins name kind).children (circuit.size + pins.length) =
      List.range' circuit.size pins.length := by
  simp only [children, get?_plant_new]

theorem owner_plant_new (circuit : Circuit) (owner : ElementId) :
    (circuit.plant owner pins name kind).owner (circuit.size + pins.length) = some owner := by
  simp only [Circuit.owner, get?_plant_new, Option.bind_some, sprout]

end

theorem get?_plant_cases {owner id : Nat} {pins : List (String × Pin)} {name : String}
    {kind : Kind} {element : Element}
    (held : (circuit.plant owner pins name kind).get? id = some element) :
    (∃ old, circuit.get? id = some old ∧ element = { old with children :=
        if id = owner then old.children ++ [circuit.size + pins.length] else old.children }) ∨
      (∃ index pinName pin, pins[index]? = some (pinName, pin) ∧ id = circuit.size + index ∧
        element = sprout (circuit.size + pins.length) pinName (.pin pin)) ∨
      id = circuit.size + pins.length ∧
        element = { sprout owner name kind with
          children := List.range' circuit.size pins.length } := by
  have bound := get?_lt held
  rw [size_plant] at bound
  by_cases below : id < circuit.size
  · obtain ⟨old, found⟩ := exists_get? below
    rw [get?_plant_old found] at held
    exact Or.inl ⟨old, found, (Option.some.inj held).symm⟩
  · by_cases last : id = circuit.size + pins.length
    · subst last
      rw [get?_plant_new] at held
      exact Or.inr (Or.inr ⟨rfl, (Option.some.inj held).symm⟩)
    · have early : id - circuit.size < pins.length := by omega
      have position : id = circuit.size + (id - circuit.size) := by omega
      have found := List.getElem?_eq_getElem early
      rw [position, get?_plant_pin circuit owner found] at held
      exact Or.inr (Or.inl ⟨_, _, _, found, position, (Option.some.inj held).symm⟩)

theorem update_plant (circuit : Circuit) (owner : ElementId) (before : List (String × Pin))
    (pinName : String) (old new : Pin) (after : List (String × Pin)) (name : String)
    (kind : Kind) :
    (circuit.plant owner (before ++ (pinName, old) :: after) name kind).update
        (circuit.size + before.length) (fun element => { element with kind := .pin new }) =
      circuit.plant owner (before ++ (pinName, new) :: after) name kind := by
  apply ext_get?
  intro (other : Nat)
  rw [get?_update, get?_plant, get?_plant]
  simp only [List.length_append, List.length_cons]
  by_cases same : other = circuit.size + before.length
  · subst same
    have notOld : ¬circuit.size + before.length < circuit.size := by omega
    have bound : circuit.size + before.length <
        circuit.size + (before.length + (after.length + 1)) := by omega
    simp [notOld, bound, sprout]
  · simp only [same, ↓reduceIte]
    by_cases below : other < circuit.size
    · simp only [below, ↓reduceIte]
    · have different : before.length ≠ other - circuit.size := by omega
      simp only [below, ↓reduceIte]
      congr 2
      by_cases early : other - circuit.size < before.length
      · rw [List.getElem?_append_left early, List.getElem?_append_left early]
      · obtain ⟨step, equal⟩ : ∃ step, other - circuit.size - before.length = step + 1 :=
          ⟨other - circuit.size - before.length - 1, by omega⟩
        rw [List.getElem?_append_right (by omega), List.getElem?_append_right (by omega), equal]
        rfl

theorem push_eq_plant {owner : Nat} (known : owner < circuit.size) (name : String)
    (kind : Kind) : circuit.push owner name kind = circuit.plant owner [] name kind := by
  apply ext_get?
  intro other
  have different : owner ≠ circuit.size := Nat.ne_of_lt known
  simp only [get?_push known, get?_plant, get?_update, List.length_nil, Nat.add_zero]
  by_cases last : other = circuit.size
  · subst last
    simp [sprout]
  · by_cases below : (other : Nat) < circuit.size
    · simp only [last, below, ↓reduceIte, eq_comm]
    · have beyond : circuit.get? other = none := by
        simpa [get?, size] using below
      have notOwner : other ≠ owner := by
        rintro rfl
        exact below known
      simp [last, below, notOwner, beyond]

def pushPins (circuit : Circuit) (owner : ElementId) (names : List String) : Circuit :=
  names.foldl (fun grown name => grown.push owner name (.pin .floating)) circuit

theorem size_pushPins (owner : ElementId) (names : List String) (circuit : Circuit) :
    (circuit.pushPins owner names).size = circuit.size + names.length := by
  induction names generalizing circuit with
  | nil => rfl
  | cons name names ih =>
      rw [pushPins, List.foldl_cons, ← pushPins, ih, size_push, List.length_cons]
      omega

theorem get?_pushPins {owner : Nat} (names : List String) {circuit : Circuit}
    (known : owner < circuit.size) (other : Nat) :
    (circuit.pushPins owner names).get? other =
      if other < circuit.size then
        if other = owner then
          (circuit.get? other).map fun element =>
            { element with
              children := element.children ++ List.range' circuit.size names.length }
        else circuit.get? other
      else (names[other - circuit.size]?).map fun name => sprout owner name (.pin .floating) := by
  induction names generalizing circuit with
  | nil =>
      simp only [pushPins, List.foldl_nil, List.length_nil, List.range'_zero, List.append_nil,
        List.getElem?_nil, Option.map_none]
      split
      · split <;> simp
      next beyond => simpa [get?, size] using beyond
  | cons name names ih =>
      have known' : owner < (circuit.push owner name (.pin .floating)).size := by
        rw [size_push]
        omega
      rw [pushPins, List.foldl_cons, ← pushPins, ih known', size_push, get?_push known]
      by_cases below : other < circuit.size
      · have early : other < circuit.size + 1 := by omega
        have different : other ≠ circuit.size := by omega
        simp only [below, early, different, ↓reduceIte]
        split
        next same =>
          rw [Option.map_map]
          congr 1
          funext element
          simp [Element.adding, List.range'_succ]
        next => rfl
      · have notOwner : other ≠ owner := by omega
        by_cases first : other = circuit.size
        · subst first
          simp [sprout, notOwner]
        · have later : ¬other < circuit.size + 1 := by omega
          obtain ⟨step, equal⟩ : ∃ step, other - circuit.size = step + 1 :=
            ⟨other - circuit.size - 1, by omega⟩
          have rest : other - (circuit.size + 1) = step := by omega
          simp [below, later, equal, rest]

def moved (old owner : ElementId) (children : List ElementId) (id : ElementId)
    (element : Element) : Element :=
  { element with
    owner := if id ∈ children then some owner else element.owner
    children :=
      if id = owner then element.children ++ children
      else if id = old then element.children.filter (· ∉ children)
      else element.children }

theorem get?_moveChild {old owner child : ElementId} (owned : circuit.owner child = some old)
    (different : owner ≠ old) (other : ElementId) :
    (circuit.moveChild owner child).get? other =
      (circuit.get? other).map (moved old owner [child] other) := by
  have kept : ∀ list : List ElementId, list.filter (· != child) = list.filter (· ∉ [child]) := by
    intro list
    congr 1
    funext id
    rw [Bool.eq_iff_iff]
    simp
  simp only [moveChild, owned, get?_update, kept]
  cases circuit.get? other with
  | none => simp
  | some element =>
      by_cases isOwner : other = owner <;> by_cases isOld : other = old <;>
        by_cases isChild : other = child
      all_goals try subst isChild
      all_goals simp_all [moved]

theorem moved_cons {old owner : ElementId} (different : owner ≠ old) (child : ElementId)
    (children : List ElementId) (id : ElementId) (element : Element) :
    moved old owner children id (moved old owner [child] id element) =
      moved old owner (child :: children) id element := by
  have kept : ∀ list : List ElementId,
      (list.filter (· ∉ [child])).filter (· ∉ children) = list.filter (· ∉ child :: children) := by
    intro list
    rw [List.filter_filter]
    congr 1
    funext other
    rw [Bool.eq_iff_iff]
    simp [and_comm]
  have owners : (if id ∈ children then some owner else if id ∈ [child] then some owner
      else element.owner) = if id ∈ child :: children then some owner else element.owner := by
    by_cases member : id ∈ children <;> by_cases isChild : id = child <;> simp [member, isChild]
  simp only [moved, owners]
  by_cases isOwner : id = owner
  · simp only [isOwner, ↓reduceIte, List.append_assoc, List.singleton_append]
  · by_cases isOld : id = old
    · simp only [isOld, different.symm, ↓reduceIte, kept]
    · simp only [isOwner, isOld, ↓reduceIte]

theorem get?_moveChildren {old owner : ElementId} (different : owner ≠ old)
    (children : List ElementId) {circuit : Circuit} (unique : children.Nodup)
    (owned : ∀ child ∈ children, circuit.owner child = some old) (other : ElementId) :
    (children.foldl (·.moveChild owner ·) circuit).get? other =
      (circuit.get? other).map (moved old owner children other) := by
  induction children generalizing circuit with
  | nil =>
      have same : moved old owner [] other = id := by
        funext element
        simp [moved]
      simp [same]
  | cons child children ih =>
      obtain ⟨absent, unique⟩ := List.nodup_cons.mp unique
      have first := get?_moveChild (owned child List.mem_cons_self) different
      rw [List.foldl_cons, ih unique, first, Option.map_map]
      · congr 1
        funext element
        exact moved_cons different child children other element
      · intro later member
        have notChild : later ≠ child := by
          rintro rfl
          exact absent member
        have before := owned later (List.mem_cons_of_mem _ member)
        simp only [Circuit.owner, first, Option.bind_map] at before ⊢
        rw [← before]
        congr 1
        funext element
        simp [moved, notChild]

section Adopt

variable {owner : Nat} {container : Element}

theorem filter_new (fits : ∀ child : Nat, child ∈ container.children → child < circuit.size)
    (count : Nat) :
    (container.children ++ List.range' circuit.size count ++ [circuit.size + count]).filter
        (· ∉ List.range' circuit.size count) =
      container.children ++ [circuit.size + count] := by
  have old : container.children.filter (· ∉ List.range' circuit.size count) =
      container.children := by
    rw [List.filter_eq_self]
    intro child member
    have bound := fits child member
    simp only [List.mem_range'_1, decide_eq_true_eq]
    omega
  have gone : (List.range' circuit.size count).filter (· ∉ List.range' circuit.size count) = [] := by
    simp
  have last : circuit.size + count ∉ List.range' circuit.size count := by
    simp
  simp only [List.filter_append, old, gone, List.append_nil, List.filter_cons, last,
    not_false_eq_true, decide_true, ↓reduceIte, List.filter_nil]

variable (held : circuit.get? owner = some container) (names : List String) (name : String)
  (kind : Kind)

include held

theorem get?_pushPins_push (other : Nat) :
    ((circuit.pushPins owner names).push owner name kind).get? other =
      if other = circuit.size + names.length then some (sprout owner name kind)
      else if other = owner then
        some { container with
          children := container.children ++ List.range' circuit.size names.length ++
            [circuit.size + names.length] }
      else if other < circuit.size then circuit.get? other
      else (names[other - circuit.size]?).map fun name => sprout owner name (.pin .floating) := by
  have known : owner < circuit.size := get?_lt held
  have size := size_pushPins owner names circuit
  have known' : owner < (circuit.pushPins owner names).size := by omega
  rw [get?_push known', size, get?_pushPins names known]
  by_cases isOwner : other = owner
  · subst isOwner
    simp only [known, held, ↓reduceIte, Option.map_some]
    rfl
  · simp only [isOwner, ↓reduceIte]
    rfl

theorem owner_pushPins_push {pin : Nat} (member : pin ∈ List.range' circuit.size names.length) :
    ((circuit.pushPins owner names).push owner name kind).owner pin = some owner := by
  have known : owner < circuit.size := get?_lt held
  obtain ⟨lower, upper⟩ := List.mem_range'_1.mp member
  have bound : pin - circuit.size < names.length := by omega
  have notLast : pin ≠ circuit.size + names.length := by omega
  have notOwner : pin ≠ owner := by omega
  have notOld : ¬pin < circuit.size := by omega
  simp [Circuit.owner, get?_pushPins_push held, notLast, notOwner, notOld, bound, sprout]

theorem plant_of_moveChildren
    (fits : ∀ child : Nat, child ∈ container.children → child < circuit.size) :
    (List.range' circuit.size names.length).foldl
        (·.moveChild (circuit.size + names.length) ·)
        ((circuit.pushPins owner names).push owner name kind) =
      circuit.plant owner (names.map (·, .floating)) name kind := by
  have known : owner < circuit.size := get?_lt held
  have moves := get?_moveChildren (Nat.ne_of_gt (Nat.lt_add_right names.length known)) _
    List.nodup_range' fun _ => owner_pushPins_push held names name kind
  apply ext_get?
  intro (other : Nat)
  rw [moves, get?_pushPins_push held, get?_plant, List.length_map]
  by_cases below : other < circuit.size
  · have notNew : other ∉ List.range' circuit.size names.length := by
      rw [List.mem_range'_1]
      omega
    have notLast : other ≠ circuit.size + names.length := by omega
    by_cases isOwner : other = owner
    · subst isOwner
      simp only [below, notLast, ↓reduceIte, Option.map_some, get?_update, held, moved, notNew,
        filter_new fits]
      rfl
    · have same : moved owner (circuit.size + names.length)
          (List.range' circuit.size names.length) other = id := by
        funext element
        simp only [moved, notNew, notLast, isOwner, ↓reduceIte]
        rfl
      simp only [below, notLast, isOwner, same, get?_update, ↓reduceIte, Option.map_id_fun, id]
  · have notOwner : other ≠ owner := by omega
    by_cases early : other < circuit.size + names.length
    · have isNew : other ∈ List.range' circuit.size names.length := by
        rw [List.mem_range'_1]
        omega
      have notLast : other ≠ circuit.size + names.length := by omega
      simp only [below, early, notLast, notOwner, ↓reduceIte, List.getElem?_map, Option.map_map]
      congr 1
      funext name
      simp [moved, isNew, notLast, notOwner, sprout]
    · by_cases isLast : other = circuit.size + names.length
      · subst isLast
        simp [moved, sprout]
      · have beyond : names[other - circuit.size]? = none := by
          rw [List.getElem?_eq_none_iff]
          omega
        simp only [below, early, isLast, notOwner, beyond, ↓reduceIte, Option.map_none]

end Adopt

end Circuit

end RelayLogic
