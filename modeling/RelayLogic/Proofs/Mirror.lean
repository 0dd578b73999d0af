import RelayLogic.Proofs.Adding
import RelayLogic.Proofs.Encoding
import RelayLogic.Proofs.Renaming
import Mathlib.Data.List.Forall2

/-!
Copies of circuits. A copy is built in the order of the original: it holds a twin of each element
that was visited, under the number of its record, and it lists the twins of visited children.
-/

namespace RelayLogic

def Kind.unbound : Kind → Kind
  | .signal _ => .signal none
  | kind => kind

namespace Circuit

variable {circuit copy : Circuit}

/-- A copy of the elements that were visited, in which some signals are mapped onto their tags. -/
structure Mirrors (circuit : Circuit) (bound visited : List ElementId) (copy : Circuit) : Prop where
  size : copy.size = visited.length
  closed : ∀ id ∈ visited, ∀ owner, circuit.owner id = some owner → owner ∈ visited
  each : ∀ id ∈ visited, ∃ element twin, circuit.get? id = some element ∧
    copy.get? (circuit.numberOf id) = some twin ∧
    element.Twin circuit.numberOf (if id ∈ bound then element.kind else element.kind.unbound)
      (visited.filter (circuit.owner · = some id)) twin

namespace Tree

variable (tree : circuit.Tree Kind.Nests)

include tree

theorem order_nodup : circuit.order.Nodup :=
  tree.nodup_order tree.shallow

theorem numberOf_getElem {index : Nat} (bound : index < circuit.order.length) :
    circuit.numberOf circuit.order[index] = index :=
  tree.order_nodup.idxOf_getElem index bound

theorem map_numberOf {before middle after : List ElementId}
    (parts : circuit.order = before ++ (middle ++ after)) :
    middle.map circuit.numberOf = List.range' before.length middle.length := by
  refine List.ext_getElem (by simp) fun index bound _ => ?_
  rw [List.length_map] at bound
  have early : before.length + index < circuit.order.length := by
    rw [parts, List.length_append, List.length_append]
    omega
  have same : circuit.order[before.length + index] = middle[index] := by
    simp [parts, List.getElem_append_right, bound]
  rw [List.getElem_map, ← same, tree.numberOf_getElem early, List.getElem_range', Nat.one_mul]

theorem numberOf_next {before after : List ElementId} {id : ElementId}
    (parts : circuit.order = before ++ id :: after) : circuit.numberOf id = before.length := by
  have alone : circuit.order = before ++ ([id] ++ after) := parts
  simpa using tree.map_numberOf alone

end Tree

theorem numberOf_inj {first second : ElementId} (member : first ∈ circuit.order)
    (same : circuit.numberOf first = circuit.numberOf second) : first = second :=
  (List.idxOf_inj member).mp same

/-- The next elements of an order: one with an owner that was visited, after its own pins. -/
structure Next (circuit : Circuit) (visited pins : List ElementId) (id owner : ElementId)
    (element : Element) : Prop where
  held : circuit.get? id = some element
  owned : circuit.owner id = some owner
  known : owner ∈ visited
  pins : ∀ pin ∈ pins, circuit.owner pin = some id

namespace Mirrors

variable {visited pins after : List ElementId} {id owner : ElementId} {element : Element}

theorem filter_fresh (mirrors : circuit.Mirrors [] visited copy) (fresh : id ∉ visited) :
    visited.filter (circuit.owner · = some id) = [] := by
  refine List.filter_eq_nil_iff.mpr fun other member => ?_
  rw [decide_eq_true_eq]
  exact fun owned => fresh (mirrors.closed other member id owned)

theorem filter_next (mirrors : circuit.Mirrors [] visited copy)
    (next : circuit.Next visited pins id owner element) (fresh : id ∉ visited)
    (other : ElementId) :
    (visited ++ (pins ++ [id])).filter (circuit.owner · = some other) =
      if other = id then pins
      else visited.filter (circuit.owner · = some other) ++ if other = owner then [id] else [] := by
  have notOwner : owner ≠ id := fun same => fresh (same ▸ next.known)
  rw [List.filter_append, List.filter_append]
  by_cases same : other = id
  · subst same
    have all : pins.filter (circuit.owner · = some other) = pins :=
      List.filter_eq_self.mpr fun pin member => by simp [next.pins pin member]
    simp [mirrors.filter_fresh fresh, all, next.owned, notOwner]
  · have none : pins.filter (circuit.owner · = some other) = [] :=
      List.filter_eq_nil_iff.mpr fun pin member => by simp [next.pins pin member, Ne.symm same]
    rw [none, List.nil_append]
    by_cases isOwner : other = owner
    · subst isOwner
      simp [same, next.owned]
    · simp [same, isOwner, next.owned, Ne.symm isOwner]

section Plant

variable {points : List (String × Pin)}

def Twinned (circuit : Circuit) (visited : List ElementId) (copy : Circuit) (id : ElementId) :
    Prop :=
  ∃ element twin, circuit.get? id = some element ∧ copy.get? (circuit.numberOf id) = some twin ∧
    element.Twin circuit.numberOf element.kind.unbound
      (visited.filter (circuit.owner · = some id)) twin

theorem plant_old (mirrors : circuit.Mirrors [] visited copy)
    (next : circuit.Next visited pins id owner element) (fresh : id ∉ visited)
    (number : circuit.numberOf id = copy.size + points.length) {other : ElementId}
    (old : other ∈ visited) (known : other ∈ circuit.order) (name : String) (kind : Kind) :
    Twinned circuit (visited ++ (pins ++ [id]))
      (copy.plant (circuit.numberOf owner) points name kind) other := by
  obtain ⟨found, twin, held, twinHeld, isTwin⟩ := mirrors.each other old
  have notId : other ≠ id := fun equal => fresh (equal ▸ old)
  have isOwner : circuit.numberOf other = circuit.numberOf owner ↔ other = owner :=
    ⟨numberOf_inj known, congrArg _⟩
  refine ⟨found, _, held, get?_plant_old twinHeld _ points name _, isTwin.kind, isTwin.owner, ?_,
    isTwin.name⟩
  rw [mirrors.filter_next next fresh]
  by_cases equal : other = owner
  · subst equal
    simp only [notId, ↓reduceIte, isTwin.children, List.map_append, List.map_cons, List.map_nil,
      number]
  · simp only [notId, equal, isOwner, ↓reduceIte, isTwin.children, List.append_nil]

theorem plant_pin (mirrors : circuit.Mirrors [] visited copy)
    (next : circuit.Next visited pins id owner element)
    (apart : (visited ++ (pins ++ [id])).Nodup)
    (number : circuit.numberOf id = copy.size + points.length)
    (numbers : pins.map circuit.numberOf = List.range' copy.size points.length)
    (twins : List.Forall₂ (fun pin (point : String × Pin) => ∃ element,
      circuit.get? pin = some element ∧ element.kind = .pin point.2) pins points)
    {pin : ElementId} (member : pin ∈ pins) (name : String) (kind : Kind) :
    Twinned circuit (visited ++ (pins ++ [id]))
      (copy.plant (circuit.numberOf owner) points name kind) pin := by
  obtain ⟨index, bound, rfl⟩ := List.getElem_of_mem member
  have boundPoint : index < points.length := twins.length_eq ▸ bound
  obtain ⟨found, held, isPin⟩ := twins.get bound boundPoint
  rw [List.get_eq_getElem] at held
  have place : circuit.numberOf pins[index] = copy.size + index := by
    have entry := congrArg (·[index]?) numbers
    simpa [bound, boundPoint] using entry
  have pointHeld : points[index]? = some (points[index].1, points[index].2) :=
    List.getElem?_eq_getElem boundPoint
  have twinHeld := get?_plant_pin copy (circuit.numberOf owner) pointHeld name kind
  rw [← place] at twinHeld
  obtain ⟨_, lastApart, earlyApart⟩ := List.nodup_append.mp apart
  have fresh : ∀ other ∈ pins ++ [id], other ∉ visited := fun other member old =>
    earlyApart other old other member rfl
  have freshPin := fresh _ (List.mem_append_left _ member)
  have notId : pins[index] ≠ id := (List.nodup_append.mp lastApart).2.2 _ member id (by simp)
  have notOwner : pins[index] ≠ owner := fun equal => freshPin (equal ▸ next.known)
  have owned := next.pins _ member
  simp only [Circuit.owner, held, Option.bind_some] at owned
  refine ⟨found, _, held, twinHeld, ?_, ?_, ?_, ?_⟩
  · rw [isPin]
    rfl
  · simp only [sprout, owned, Option.map_some, number]
  · rw [mirrors.filter_next next (fresh id (by simp))]
    simp only [sprout, notId, notOwner, ↓reduceIte, mirrors.filter_fresh freshPin,
      List.append_nil, List.map_nil]
  · rw [isPin]
    exact fun isTag => absurd isTag (by simp [Kind.isTag])

theorem plant_new (mirrors : circuit.Mirrors [] visited copy)
    (next : circuit.Next visited pins id owner element) (fresh : id ∉ visited)
    (number : circuit.numberOf id = copy.size + points.length)
    (numbers : pins.map circuit.numberOf = List.range' copy.size points.length) {name : String}
    (named : element.kind.isTag → name = element.name) :
    Twinned circuit (visited ++ (pins ++ [id])) (copy.plant (circuit.numberOf owner) points name
      (element.kind.unbound.renamed circuit.numberOf)) id := by
  have twinHeld := get?_plant_new copy (circuit.numberOf owner) points name
    (element.kind.unbound.renamed circuit.numberOf)
  rw [← number] at twinHeld
  have owned := next.owned
  simp only [Circuit.owner, next.held, Option.bind_some] at owned
  refine ⟨element, _, next.held, twinHeld, rfl, ?_, ?_, named⟩
  · simp only [sprout, owned, Option.map_some]
  · rw [mirrors.filter_next next fresh]
    simp only [↓reduceIte, numbers]

theorem plant (tree : circuit.Tree Kind.Nests) (mirrors : circuit.Mirrors [] visited copy)
    (next : circuit.Next visited pins id owner element)
    (parts : circuit.order = visited ++ (pins ++ [id] ++ after))
    (twins : List.Forall₂ (fun pin (point : String × Pin) => ∃ element,
      circuit.get? pin = some element ∧ element.kind = .pin point.2) pins points)
    {name : String} (named : element.kind.isTag → name = element.name) :
    circuit.Mirrors [] (visited ++ (pins ++ [id])) (copy.plant (circuit.numberOf owner) points name
      (element.kind.unbound.renamed circuit.numberOf)) := by
  have same : points.length = pins.length := twins.length_eq.symm
  have apart : (visited ++ (pins ++ [id])).Nodup := by
    have whole := tree.order_nodup
    rw [parts, ← List.append_assoc] at whole
    exact (List.nodup_append.mp whole).1
  have fresh : id ∉ visited := fun old =>
    (List.nodup_append.mp apart).2.2 id old id (by simp) rfl
  have number : circuit.numberOf id = copy.size + points.length := by
    have split : circuit.order = (visited ++ pins) ++ id :: after := by simp [parts]
    rw [tree.numberOf_next split, List.length_append, mirrors.size, same]
  have numbers : pins.map circuit.numberOf = List.range' copy.size points.length := by
    have split : circuit.order = visited ++ (pins ++ ([id] ++ after)) := by simp [parts]
    rw [tree.map_numberOf split, mirrors.size, same]
  constructor
  case size =>
    rw [size_plant, mirrors.size, same]
    simp
    omega
  case closed =>
    intro other member parent owned
    rcases List.mem_append.mp member with old | new
    · exact List.mem_append_left _ (mirrors.closed other old parent owned)
    · rcases List.mem_append.mp new with pin | last
      · rw [next.pins other pin] at owned
        cases owned
        simp
      · rw [List.mem_singleton.mp last, next.owned] at owned
        cases owned
        exact List.mem_append_left _ next.known
  case each =>
    intro other member
    rcases List.mem_append.mp member with old | new
    · have known : other ∈ circuit.order := by
        rw [parts]
        exact List.mem_append_left _ old
      exact mirrors.plant_old next fresh number old known name _
    · rcases List.mem_append.mp new with pin | last
      · exact mirrors.plant_pin next apart number numbers twins pin name _
      · rw [List.mem_singleton.mp last]
        exact mirrors.plant_new next fresh number numbers named

end Plant

theorem plant_alone (tree : circuit.Tree Kind.Nests) (mirrors : circuit.Mirrors [] visited copy)
    (next : circuit.Next visited [] id owner element)
    (parts : circuit.order = visited ++ id :: after) (name : String)
    (named : element.kind.isTag → name = element.name) :
    circuit.Mirrors [] (visited ++ [id]) (copy.plant (circuit.numberOf owner) [] name
      (element.kind.unbound.renamed circuit.numberOf)) :=
  mirrors.plant tree next parts .nil named

end Mirrors

end Circuit

end RelayLogic
