import RelayLogic.Proofs.Enlarging
import RelayLogic.Proofs.Joining

/-!
What wires join in a circuit to which something was added. No wire leads from what was there before
to what was added or back, so every walk finds what it found before, in the same order.
-/

namespace RelayLogic

/-- Whether a list is another one and, after it, items that are all new. -/
def Prolongs (isNew : α → Prop) (list whole : List α) : Prop :=
  ∃ later, whole = list ++ later ∧ ∀ item ∈ later, isNew item

namespace Prolongs

variable {isNew : α → Prop} {isLate : β → Prop} {list whole : List α}
  (prolongs : Prolongs isNew list whole)

include prolongs

theorem length_le : list.length ≤ whole.length := by
  obtain ⟨later, rfl, _⟩ := prolongs
  rw [List.length_append]
  exact Nat.le_add_right _ _

theorem map {view : α → β} (new : ∀ item ∈ whole, isNew item → isLate (view item)) :
    Prolongs isLate (list.map view) (whole.map view) := by
  obtain ⟨later, rfl, beyond⟩ := prolongs
  refine ⟨later.map view, List.map_append, fun made member => ?_⟩
  obtain ⟨item, listed, rfl⟩ := List.mem_map.mp member
  exact new item (List.mem_append_right _ listed) (beyond item listed)

theorem flatMap {view other : α → List β} (same : ∀ item ∈ list, other item = view item)
    (new : ∀ item ∈ whole, isNew item → ∀ made ∈ other item, isLate made) :
    Prolongs isLate (list.flatMap view) (whole.flatMap other) := by
  obtain ⟨later, rfl, beyond⟩ := prolongs
  refine ⟨later.flatMap other, by rw [List.flatMap_append, List.flatMap_congr same], ?_⟩
  intro made member
  obtain ⟨item, listed, isMade⟩ := List.mem_flatMap.mp member
  exact new item (List.mem_append_right _ listed) (beyond item listed) made isMade

theorem filterMap {view other : α → Option β} (same : ∀ item ∈ list, other item = view item)
    (new : ∀ item ∈ whole, isNew item → ∀ made ∈ other item, isLate made) :
    Prolongs isLate (list.filterMap view) (whole.filterMap other) := by
  rw [List.filterMap_eq_flatMap_toList, List.filterMap_eq_flatMap_toList]
  refine prolongs.flatMap (fun item member => by rw [same item member]) ?_
  exact fun item member away made isMade => new item member away made (Option.mem_toList.mp isMade)

theorem flatMap_eq {view other : α → List β} (same : ∀ item ∈ list, other item = view item)
    (idle : ∀ item ∈ whole, isNew item → other item = []) :
    whole.flatMap other = list.flatMap view := by
  obtain ⟨later, rfl, beyond⟩ := prolongs
  have none : later.flatMap other = [] := by
    rw [List.flatMap_eq_nil_iff]
    exact fun item member => idle item (List.mem_append_right _ member) (beyond item member)
  rw [List.flatMap_append, none, List.append_nil, List.flatMap_congr same]

theorem filter_eq {view other : α → Bool} (same : ∀ item ∈ list, other item = view item)
    (skips : ∀ item ∈ whole, isNew item → other item = false) :
    whole.filter other = list.filter view := by
  obtain ⟨later, rfl, beyond⟩ := prolongs
  have none : later.filter other = [] := by
    rw [List.filter_eq_nil_iff]
    intro item member
    rw [skips item (List.mem_append_right _ member) (beyond item member)]
    exact Bool.false_ne_true
  rw [List.filter_append, none, List.append_nil, List.filter_congr same]

theorem filter_old {asked : α → Bool} (old : ∀ item ∈ list, asked item)
    (skips : ∀ item ∈ whole, isNew item → asked item = false) : whole.filter asked = list := by
  rw [prolongs.filter_eq (fun _ _ => rfl) skips, List.filter_eq_self.mpr old]

end Prolongs

namespace Adjacency

variable {inside : ElementId → Prop} {root : ElementId}

theorem Way.confined {adjacency : Adjacency} {passes : ElementId → Bool}
    (closed : ∀ here next, (here, next) ∈ adjacency.links → inside here → inside next.pin)
    (start : inside root) {pin : ElementId} {inverted : Bool}
    (way : adjacency.Way passes root pin inverted) : inside pin := by
  induction way with
  | first link => exact closed _ _ link start
  | onward _ _ link ih => exact closed _ _ link ih

/-- Whether some pins have the same neighbours in both adjacencies, all of them among these pins. -/
structure Confines (inside : ElementId → Prop) (small large : Adjacency) : Prop where
  neighbours : ∀ pin, inside pin → large.neighbours pin = small.neighbours pin
  closed : ∀ here next, (here, next) ∈ small.links → inside here → inside next.pin
  fewer : small.links.length ≤ large.links.length

namespace Confines

variable {small large : Adjacency} (confines : Confines inside small large)
  {passes otherPasses : ElementId → Bool}
  (agree : ∀ pin, inside pin → otherPasses pin = passes pin)

include confines agree

theorem walkFrom (root : ElementId) {done : List ElementId} {stack found : List Connection}
    {fuel : Nat} (walking : Walking small passes root done stack found)
    (enough : small.links.length + 1 ≤ done.length + fuel)
    (within : ∀ here ∈ stack, inside here.pin) (more : Nat) :
    large.walkFrom otherPasses root (fuel + more) stack found =
      small.walkFrom passes root fuel stack found := by
  -- Each round uses up fuel and a pin of the stack, of which there are no more than links.
  induction fuel generalizing done stack found with
  | zero =>
      have bound := walking.length_le
      obtain rfl : stack = [] := List.length_eq_zero_iff.mp (by omega)
      cases more <;> rfl
  | succ fuel ih =>
      rw [Nat.add_right_comm]
      cases stack with
      | nil => rfl
      | cons here stack =>
          obtain ⟨first, rest⟩ := List.forall_mem_cons.mp within
          have fresh : large.fresh root found here = small.fresh root found here := by
            rw [Adjacency.fresh, Adjacency.fresh, confines.neighbours here.pin first]
          have freshWithin : ∀ next ∈ small.fresh root found here, inside next.pin := by
            intro next member
            obtain ⟨link, linked, rfl⟩ := (fresh_spec small root found here).linked next member
            exact confines.closed here.pin link (mem_neighbours.mp linked) first
          have onward : (small.fresh root found here).filter (otherPasses ·.pin) =
              (small.fresh root found here).filter (passes ·.pin) :=
            List.filter_congr fun next member => agree next.pin (freshWithin next member)
          simp only [Adjacency.walkFrom, fresh, onward]
          refine ih walking.round ?_ fun next member => ?_
          · rw [List.length_append, List.length_singleton]
            omega
          · rcases List.mem_append.mp member with new | old
            · exact freshWithin next (List.mem_filter.mp (List.mem_reverse.mp new)).1
            · exact rest next old

theorem walk (start : inside root) :
    large.walk otherPasses root = small.walk passes root := by
  obtain ⟨more, same⟩ := Nat.exists_eq_add_of_le confines.fewer
  rw [Adjacency.walk, Adjacency.walk, same, Nat.add_right_comm]
  exact confines.walkFrom agree root (walking_start small passes root) (by simp)
    (by simpa using start) more

end Confines

end Adjacency

namespace Circuit

variable {part whole : Circuit}

theorem Wired.link (wired : part.Wired) {here : ElementId} {next : Connection}
    (link : (here, next) ∈ part.adjacency.links) : part.isPin here ∧ part.isPin next.pin := by
  obtain ⟨id, element, wire, held, same, member⟩ := mem_links.mp link
  obtain ⟨start, stop, _⟩ := wired id wire (kind?_eq_some.mpr ⟨element, held, same⟩)
  simp only [Wire.links, List.mem_cons, Prod.mk.injEq, List.not_mem_nil, or_false] at member
  rcases member with ⟨rfl, rfl⟩ | ⟨rfl, rfl⟩
  · exact ⟨start, stop⟩
  · exact ⟨stop, start⟩

theorem Wired.way (wired : part.Wired) {passes : ElementId → Bool} {root pin : ElementId}
    {inverted : Bool} (way : part.adjacency.Way passes root pin inverted) : part.isPin pin := by
  cases way with
  | first link => exact (wired.link link).2
  | onward _ _ link => exact (wired.link link).2

theorem lt_size_of_isPin {pin : Nat} (isPin : part.isPin pin) : pin < part.size := by
  obtain ⟨_, _, held, _⟩ := isPin_held isPin
  exact get?_lt held

namespace Enlarges

variable (enlarges : part.Enlarges whole)

include enlarges

theorem ids : Prolongs (part.size ≤ ·) part.ids whole.ids := by
  obtain ⟨more, same⟩ := Nat.exists_eq_add_of_le enlarges.size
  refine ⟨(List.range more).map (part.size + ·), ?_, fun id member => ?_⟩
  · rw [Circuit.ids, same, List.range_add, Circuit.ids]
  · obtain ⟨index, _, rfl⟩ := List.mem_map.mp member
    exact Nat.le_add_right _ _

theorem collect {view : Element → Option α}
    (same : ∀ element twin : Element, element.Kept twin → view twin = view element) :
    Prolongs (part.size ≤ ·.1) (part.collect view) (whole.collect view) := by
  refine enlarges.ids.filterMap (fun id member => ?_) fun id _ beyond entry made => ?_
  · rw [enlarges.bind_get? same (List.mem_range.mp member)]
  · obtain ⟨_, _, rfl⟩ := Option.map_eq_some_iff.mp made
    exact beyond

theorem links : Prolongs (fun link => part.size ≤ link.1 ∧ part.size ≤ link.2.pin)
    part.adjacency.links whole.adjacency.links := by
  have wires : Prolongs (part.size ≤ ·.1) part.wires whole.wires :=
    enlarges.collect fun _ _ kept => by rw [kept.kind]
  refine wires.flatMap (fun _ _ => rfl) ?_
  rintro ⟨id, wire⟩ isWire beyond link isLink
  obtain ⟨element, held, same⟩ := mem_wires.mp isWire
  have targets := (enlarges.apart id element beyond held).targets
  rw [same] at targets
  have start := targets wire.start (by simp [Kind.targets])
  have stop := targets wire.stop (by simp [Kind.targets])
  simp only [Wire.links, List.mem_cons, List.not_mem_nil, or_false] at isLink
  rcases isLink with rfl | rfl
  · exact ⟨start, stop⟩
  · exact ⟨stop, start⟩

theorem filter_links {pin : ElementId} (bound : pin < part.size) :
    whole.adjacency.links.filter (·.1 == pin) = part.adjacency.links.filter (·.1 == pin) :=
  enlarges.links.filter_eq (fun _ _ => rfl) fun link _ away => by
    simpa using (Nat.lt_of_lt_of_le bound away.1).ne'

theorem touches {pin : ElementId} (bound : pin < part.size) :
    whole.adjacency.touches pin = part.adjacency.touches pin := by
  have each : ∀ adjacency : Adjacency, adjacency.touches pin =
      (adjacency.links.filter (·.1 == pin)).any fun _ => true := by
    intro adjacency
    simp [Adjacency.touches]
  rw [each, each, enlarges.filter_links bound]

variable (wired : part.Wired)

include wired

theorem confines : Adjacency.Confines (· < part.size) part.adjacency whole.adjacency := by
  constructor
  case neighbours =>
    intro pin bound
    rw [Adjacency.neighbours, enlarges.filter_links bound, Adjacency.neighbours]
  case closed => exact fun _ _ link _ => lt_size_of_isPin (wired.link link).2
  case fewer => exact enlarges.links.length_le

theorem confined {passes : ElementId → Bool} {root pin : ElementId} {inverted : Bool}
    (beyond : part.size ≤ root) (way : whole.adjacency.Way passes root pin inverted) :
    part.size ≤ pin := by
  obtain ⟨later, links, away⟩ := enlarges.links
  refine Adjacency.Way.confined (fun here next link outside => ?_) beyond way
  rw [links] at link
  rcases List.mem_append.mp link with old | new
  · exact absurd (lt_size_of_isPin (wired.link old).1) (Nat.not_lt_of_le outside)
  · exact (away _ new).2

end Enlarges

/-- A circuit that calls built, and what further calls made of it without connecting anything to
it. -/
structure Annexed (part whole : Circuit) : Prop extends Enlarges part whole where
  sound : part.Sound Rules.any
  wholeSound : whole.Sound Rules.any
  wired : part.Wired
  wholeWired : whole.Wired
  valid : part.validate = .ok ()

theorem Annexed.endpoints (annexed : part.Annexed whole) {root : Nat} (bound : root < part.size) :
    whole.endpoints whole.adjacency root = part.endpoints part.adjacency root := by
  have relays : ∀ pin, pin < part.size → whole.isRelay pin = part.isRelay pin := fun _ inside =>
    annexed.isRelay annexed.sound.tree inside
  have walks := (annexed.confines annexed.wired).walk relays bound
  rw [Circuit.endpoints, Circuit.endpoints, walks]
  refine List.filter_congr fun pin member => ?_
  obtain ⟨_, _, way⟩ := Adjacency.mem_walk_iff.mp member
  rw [relays pin (lt_size_of_isPin (annexed.wired.way way))]

end Circuit

end RelayLogic
