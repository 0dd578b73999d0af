import RelayLogic.Proofs.Clearing
import RelayLogic.Proofs.Directing
import RelayLogic.Proofs.Grouping
import RelayLogic.Proofs.Joining
import RelayLogic.Proofs.Mirror
import Mathlib.Order.Interval.Set.Nat

/-!
Circuits under other handles that keep the order of what stands in one container. Wires join pins
of one container, so walks along them go the same way in both circuits.
-/

namespace RelayLogic

def Connection.renamed (rename : Nat → Nat) (connection : Connection) : Connection :=
  { connection with pin := rename connection.pin }

theorem injective_of_fixed {rename : Nat → Nat} {bound : Nat}
    (inside : ∀ id < bound, rename id < bound) (outside : ∀ id, ¬id < bound → rename id = id)
    (apart : ∀ first < bound, ∀ second < bound, rename first = rename second → first = second) :
    Function.Injective rename := by
  intro first second same
  by_cases firstBound : first < bound
  · by_cases secondBound : second < bound
    · exact apart first firstBound second secondBound same
    · have low := inside first firstBound
      rw [same, outside second secondBound] at low
      exact absurd low secondBound
  · by_cases secondBound : second < bound
    · have low := inside second secondBound
      rw [← same, outside first firstBound] at low
      exact absurd low firstBound
    · rwa [outside first firstBound, outside second secondBound] at same

theorem flatMap_filter_nonempty (list : List α) (view : α → List β) :
    (list.filter fun item => !(view item).isEmpty).flatMap view = list.flatMap view := by
  induction list with
  | nil => rfl
  | cons first rest ih =>
      rw [List.filter_cons, List.flatMap_cons]
      split
      next => rw [List.flatMap_cons, ih]
      next empty =>
        simp only [Bool.not_eq_true', Bool.not_eq_false, List.isEmpty_iff] at empty
        rw [ih, empty, List.nil_append]

theorem eq_of_sorted {first second : List Nat} (firstSorted : first.Pairwise (· < ·))
    (secondSorted : second.Pairwise (· < ·)) (same : ∀ id, id ∈ first ↔ id ∈ second) :
    first = second := by
  have firstUnique : first.Nodup := firstSorted.imp Nat.ne_of_lt
  have secondUnique : second.Nodup := secondSorted.imp Nat.ne_of_lt
  refine List.Perm.eq_of_pairwise ?_ firstSorted secondSorted
    ((List.perm_ext_iff_of_nodup firstUnique secondUnique).mpr same)
  exact fun _ _ _ _ less greater => absurd less (Nat.lt_asymm greater)

namespace Circuit

def linksOf (circuit : Circuit) (id : ElementId) : List (ElementId × Connection) :=
  match circuit.get? id with
  | some { kind := .wire wire, .. } => wire.links
  | _ => []

/-- Whether one circuit is another one under handles that keep the order in each container, tags
come first in both, and wires stay in their containers. -/
structure Regroups (circuit : Circuit) (rename : Nat → Nat) (copy : Circuit) : Prop
    extends circuit.Renames rename copy where
  tree : circuit.Tree Kind.Owns
  copyTree : copy.Tree Kind.Owns
  settled : circuit.Every Element.Settled
  copySettled : copy.Every Element.Settled
  size : copy.size = circuit.size
  injective : Function.Injective rename
  ordered : ∀ first second, second < circuit.size → circuit.zone first = circuit.zone second →
    first < second → rename first < rename second
  tagsFirst : ∀ tag other, circuit.IsTag tag → other < circuit.size → other ≠ solution →
    ¬circuit.IsTag other → tag < other
  tagsOrdered : ∀ tag other, circuit.IsTag tag → other < circuit.size → tag < other →
    rename tag < rename other
  inside : ∀ id element wire, circuit.get? id = some element → element.kind = .wire wire →
    circuit.zone wire.start = circuit.zone id ∧ circuit.zone wire.stop = circuit.zone id

variable {circuit copy : Circuit} {rename : Nat → Nat}

theorem links_eq (circuit : Circuit) :
    circuit.adjacency.links = circuit.ids.flatMap circuit.linksOf := by
  simp only [adjacency, wires, collect, List.filterMap_eq_flatMap_toList, List.flatMap_assoc]
  refine List.flatMap_congr fun id _ => ?_
  unfold linksOf
  cases circuit.get? id with
  | none => rfl
  | some element =>
      obtain ⟨name, kind, owner, children, evaluator, block⟩ := element
      cases kind <;> simp

theorem neighbours_eq (circuit : Circuit) (pin : ElementId) :
    circuit.adjacency.neighbours pin =
      circuit.ids.flatMap fun id => ((circuit.linksOf id).filter (·.1 == pin)).map (·.2) := by
  rw [Adjacency.neighbours, links_eq, List.filter_flatMap, List.map_flatMap]

theorem touches_eq (adjacency : Adjacency) (pin : ElementId) :
    adjacency.touches pin = !(adjacency.neighbours pin).isEmpty := by
  rw [Adjacency.touches, Adjacency.neighbours, List.isEmpty_map, Bool.eq_iff_iff]
  simp

theorem Joined.zone_eq (inside : ∀ here next, (here, next) ∈ circuit.adjacency.links →
      circuit.zone next.pin = circuit.zone here) {root pin : ElementId}
    (joined : circuit.Joined root pin) : circuit.zone pin = circuit.zone root := by
  obtain ⟨-, -, inverted, way⟩ := joined
  induction way with
  | first link => exact inside _ _ link
  | onward _ _ link ih => exact (inside _ _ link).trans ih

namespace Regroups

variable (regroups : circuit.Regroups rename copy)

include regroups

theorem extracts :
    circuit.Extracts (fun id => decide (id < circuit.size)) rename copy :=
  regroups.toRenames.extracts fun _ _ held _ member =>
    regroups.tree.mem_children.mp (by simpa only [children, held] using member)

theorem get?_rename_none {id : Nat} (absent : circuit.get? id = none) :
    copy.get? (rename id) = none := by
  cases held : copy.get? (rename id) with
  | none => rfl
  | some twin =>
      obtain ⟨other, bound, same⟩ := regroups.bijective.surjOn (get?_lt held)
      obtain ⟨element, found⟩ := exists_get? bound
      rw [← regroups.injective same, found] at absent
      contradiction

theorem owner_rename (id : Nat) : copy.owner (rename id) = (circuit.owner id).map rename := by
  cases held : circuit.get? id with
  | none => simp only [Circuit.owner, held, regroups.get?_rename_none held, Option.bind_none,
      Option.map_none]
  | some element => exact regroups.extracts.owner (decide_eq_true (get?_lt held))

theorem any_kind (asks : Kind → Bool) (same : ∀ kind, asks (kind.renamed rename) = asks kind)
    (id : Nat) : (copy.get? (rename id)).any (asks ·.kind) = (circuit.get? id).any (asks ·.kind) := by
  cases held : circuit.get? id with
  | none => rw [regroups.get?_rename_none held]
  | some element =>
      obtain ⟨twin, twinHeld, isTwin⟩ := regroups.each id element held
      rw [twinHeld, Option.any_some, Option.any_some, isTwin.kind, same]

theorem isPin_rename (id : Nat) : copy.isPin (rename id) = circuit.isPin id := by
  cases held : circuit.get? id with
  | none => simp only [Circuit.isPin, held, regroups.get?_rename_none held]
  | some element => exact regroups.extracts.isPin (decide_eq_true (get?_lt held))

theorem direction_rename (id : Nat) : copy.direction (rename id) = circuit.direction id := by
  by_cases isPin : circuit.isPin id
  · obtain ⟨_, _, held, _⟩ := isPin_held isPin
    exact regroups.extracts.direction (decide_eq_true (get?_lt held)) isPin
  · have same := regroups.isPin_rename id
    have undirected : ∀ {circuit : Circuit} {id : Nat}, ¬circuit.isPin id →
        circuit.direction id = .undefined := by
      intro circuit id notPin
      by_contra directed
      exact notPin (isPin_of_direction directed)
    rw [undirected isPin, undirected (by rwa [same])]

theorem pinsOf_rename (id : Nat) : copy.pinsOf (rename id) = (circuit.pinsOf id).map rename := by
  cases held : circuit.get? id with
  | none =>
      simp only [Circuit.pinsOf, children, held, regroups.get?_rename_none held, List.filter_nil,
        List.map_nil]
  | some element =>
      refine regroups.extracts.pinsOf (decide_eq_true (get?_lt held)) fun pin member => ?_
      obtain ⟨_, _, pinHeld, _⟩ := isPin_held (List.mem_filter.mp member).2
      exact decide_eq_true (get?_lt pinHeld)

theorem zone_rename (id : Nat) : copy.zone (rename id) = (circuit.zone id).map rename := by
  rw [zone, zone, regroups.owner_rename]
  cases circuit.owner id with
  | none => rfl
  | some owner =>
      have contains := regroups.any_kind Kind.isContainer (fun kind => by cases kind <;> rfl) owner
      simp only [Option.map_some, Option.bind_some, contains, regroups.owner_rename]
      split <;> rfl

theorem zone_eq_iff {first second : Nat} :
    copy.zone (rename first) = copy.zone (rename second) ↔
      circuit.zone first = circuit.zone second := by
  rw [regroups.zone_rename, regroups.zone_rename]
  exact (Option.map_injective regroups.injective).eq_iff

theorem isRelay_rename (id : Nat) : copy.isRelay (rename id) = circuit.isRelay id := by
  rw [isRelay, isRelay, regroups.isPin_rename, regroups.owner_rename]
  cases circuit.owner id with
  | none => rfl
  | some owner =>
      rw [Option.map_some, Option.bind_some, Option.bind_some]
      cases held : circuit.get? owner with
      | none => rw [regroups.get?_rename_none held]
      | some element =>
          obtain ⟨twin, twinHeld, isTwin⟩ := regroups.each owner element held
          simp only [twinHeld, isTwin.kind]
          cases element.kind <;> rfl

theorem isSignalOrTag_rename (id : Nat) :
    copy.isSignalOrTag (rename id) = circuit.isSignalOrTag id := by
  cases held : circuit.get? id with
  | none => simp only [isSignalOrTag, held, regroups.get?_rename_none held]
  | some element =>
      obtain ⟨twin, twinHeld, isTwin⟩ := regroups.each id element held
      simp only [isSignalOrTag, held, twinHeld, isTwin.kind]
      cases element.kind <;> rfl

theorem isSignalPin_rename (id : Nat) : copy.isSignalPin (rename id) = circuit.isSignalPin id := by
  cases held : circuit.get? id with
  | none => simp only [isSignalPin, held, regroups.get?_rename_none held]
  | some element =>
      obtain ⟨twin, twinHeld, isTwin⟩ := regroups.each id element held
      simp only [isSignalPin, held, twinHeld, regroups.tree.plain id element held,
        regroups.copyTree.plain _ twin twinHeld, isTwin.owner, Option.any_none, Bool.or_false]
      cases element.owner with
      | none => rfl
      | some owner => exact regroups.isSignalOrTag_rename owner

theorem tagOf_rename (id : Nat) : copy.tagOf (rename id) = (circuit.tagOf id).map rename := by
  cases held : circuit.get? id with
  | none => simp only [tagOf, held, regroups.get?_rename_none held, Option.map_none]
  | some element =>
      obtain ⟨twin, twinHeld, isTwin⟩ := regroups.each id element held
      obtain ⟨name, kind, owner, children, evaluator, block⟩ := element
      obtain ⟨twinName, twinKind, twinOwner, twinChildren, twinEvaluator, twinBlock⟩ := twin
      obtain rfl := isTwin.kind
      simp only [tagOf, held, twinHeld]
      cases kind <;> rfl

theorem beq_rename (first second : Nat) :
    (rename first == rename second) = (first == second) := by
  rw [Bool.eq_iff_iff, beq_iff_eq, beq_iff_eq]
  exact regroups.injective.eq_iff

theorem perm_ids : copy.ids.Perm (circuit.ids.map rename) := by
  have unique : (circuit.ids.map rename).Nodup := List.nodup_range.map regroups.injective
  refine (List.perm_ext_iff_of_nodup List.nodup_range unique).mpr fun (id : Nat) => ?_
  rw [List.mem_range, List.mem_map]
  constructor
  · intro bound
    obtain ⟨other, below, same⟩ := regroups.bijective.surjOn bound
    exact ⟨other, List.mem_range.mpr below, same⟩
  · rintro ⟨other, member, rfl⟩
    exact regroups.bijective.mapsTo (List.mem_range.mp member)

theorem perm_flatMap {view : Nat → List α} {twin : Nat → List β} {change : α → β}
    (same : ∀ id, twin (rename id) = (view id).map change) :
    (copy.ids.flatMap twin).Perm ((circuit.ids.flatMap view).map change) := by
  refine (regroups.perm_ids.flatMap_right twin).trans (List.Perm.of_eq ?_)
  rw [List.flatMap_map, List.map_flatMap]
  exact List.flatMap_congr fun id _ => same id

theorem filter_ids {view twin : Nat → Bool} (same : ∀ id, twin (rename id) = view id)
    (ordered : ∀ first second, second < circuit.size → first < second → view first → view second →
      rename first < rename second) :
    copy.ids.filter twin = (circuit.ids.filter view).map rename := by
  have sorted : ((circuit.ids.filter view).map rename).Pairwise (· < ·) := by
    refine List.pairwise_map.mpr (List.Pairwise.imp_of_mem ?_
      ((List.pairwise_lt_range : circuit.ids.Pairwise (· < ·)).filter view))
    intro first second firstMember secondMember less
    obtain ⟨_, firstSeen⟩ := List.mem_filter.mp firstMember
    obtain ⟨bound, secondSeen⟩ := List.mem_filter.mp secondMember
    exact ordered first second (List.mem_range.mp bound) less firstSeen secondSeen
  refine eq_of_sorted (List.pairwise_lt_range.filter _) sorted fun (id : Nat) => ?_
  rw [List.mem_filter, regroups.perm_ids.mem_iff, List.mem_map, List.mem_map]
  constructor
  · rintro ⟨⟨other, member, rfl⟩, seen⟩
    exact ⟨other, List.mem_filter.mpr ⟨member, by rwa [same] at seen⟩, rfl⟩
  · rintro ⟨other, member, rfl⟩
    obtain ⟨known, seen⟩ := List.mem_filter.mp member
    exact ⟨⟨other, known, rfl⟩, by rwa [same]⟩

theorem flatMap_ids {view : Nat → List α} {twin : Nat → List β} {change : α → β}
    (same : ∀ id, twin (rename id) = (view id).map change)
    (ordered : ∀ first second, second < circuit.size → first < second → view first ≠ [] →
      view second ≠ [] → rename first < rename second) :
    copy.ids.flatMap twin = (circuit.ids.flatMap view).map change := by
  have shown : copy.ids.filter (fun id => !(twin id).isEmpty) =
      (circuit.ids.filter fun id => !(view id).isEmpty).map rename := by
    refine regroups.filter_ids (fun id => by rw [same, List.isEmpty_map]) ?_
    intro first second bound less firstSeen secondSeen
    exact ordered first second bound less (by simpa using firstSeen) (by simpa using secondSeen)
  rw [← flatMap_filter_nonempty, shown, List.flatMap_map, ← flatMap_filter_nonempty _ view,
    List.map_flatMap]
  exact List.flatMap_congr fun id _ => same id

theorem linksOf_rename (id : Nat) : copy.linksOf (rename id) =
    (circuit.linksOf id).map fun link => (rename link.1, link.2.renamed rename) := by
  cases held : circuit.get? id with
  | none => simp only [linksOf, held, regroups.get?_rename_none held, List.map_nil]
  | some element =>
      obtain ⟨twin, twinHeld, isTwin⟩ := regroups.each id element held
      obtain ⟨name, kind, owner, children, evaluator, block⟩ := element
      obtain ⟨twinName, twinKind, twinOwner, twinChildren, twinEvaluator, twinBlock⟩ := twin
      obtain rfl := isTwin.kind
      simp only [linksOf, held, twinHeld]
      cases kind <;> rfl

theorem zone_of_linksOf {id here : Nat} {next : Connection}
    (link : (here, next) ∈ circuit.linksOf id) :
    circuit.zone here = circuit.zone id ∧ circuit.zone next.pin = circuit.zone id := by
  unfold linksOf at link
  split at link
  next name wire owner children evaluator block held =>
    obtain ⟨start, stop⟩ := regroups.inside id _ wire held rfl
    simp only [Wire.links, List.mem_cons, Prod.mk.injEq, List.not_mem_nil, or_false] at link
    rcases link with ⟨rfl, rfl⟩ | ⟨rfl, rfl⟩
    · exact ⟨start, stop⟩
    · exact ⟨stop, start⟩
  next => contradiction

theorem zone_of_link {here : Nat} {next : Connection}
    (link : (here, next) ∈ circuit.adjacency.links) : circuit.zone next.pin = circuit.zone here := by
  rw [links_eq] at link
  obtain ⟨id, _, member⟩ := List.mem_flatMap.mp link
  obtain ⟨first, second⟩ := regroups.zone_of_linksOf member
  rw [first, second]

theorem length_links : copy.adjacency.links.length = circuit.adjacency.links.length := by
  rw [links_eq, links_eq, (regroups.perm_flatMap regroups.linksOf_rename).length_eq,
    List.length_map]

theorem neighbours_rename (pin : Nat) : copy.adjacency.neighbours (rename pin) =
    (circuit.adjacency.neighbours pin).map (Connection.renamed rename) := by
  rw [neighbours_eq, neighbours_eq]
  refine regroups.flatMap_ids (fun id => ?_) fun first second bound less firstShown secondShown => ?_
  · rw [regroups.linksOf_rename, List.filter_map, List.map_map, List.map_map]
    congr 1
    exact List.filter_congr fun link _ => regroups.beq_rename link.1 pin
  · have zoned : ∀ id, (((circuit.linksOf id).filter (·.1 == pin)).map (·.2)) ≠ [] →
        circuit.zone id = circuit.zone pin := by
      intro id shown
      obtain ⟨connection, member⟩ := List.exists_mem_of_ne_nil _ shown
      obtain ⟨⟨here, next⟩, listed, _⟩ := List.mem_map.mp member
      obtain ⟨link, ends⟩ := List.mem_filter.mp listed
      rw [← (regroups.zone_of_linksOf link).1, show here = pin from beq_iff_eq.mp ends]
    exact regroups.ordered first second bound
      ((zoned first firstShown).trans (zoned second secondShown).symm) less

theorem touches_rename (pin : Nat) :
    copy.adjacency.touches (rename pin) = circuit.adjacency.touches pin := by
  rw [touches_eq, touches_eq, regroups.neighbours_rename, List.isEmpty_map]

theorem fresh_rename (root : Nat) (found : List Connection) (here : Connection) :
    copy.adjacency.fresh (rename root) (found.map (Connection.renamed rename))
        (here.renamed rename) =
      (circuit.adjacency.fresh root found here).map (Connection.renamed rename) := by
  unfold Adjacency.fresh
  rw [show (here.renamed rename).pin = rename here.pin from rfl, regroups.neighbours_rename]
  generalize circuit.adjacency.neighbours here.pin = links
  induction links using List.reverseRecOn with
  | nil => rfl
  | append_singleton links next ih =>
      rw [List.map_append, List.map_singleton, List.foldl_append, List.foldl_append, ih]
      generalize links.foldl _ _ = fresh
      have known : (found.map (Connection.renamed rename) ++
          fresh.map (Connection.renamed rename)).any (·.pin == rename next.pin) =
            (found ++ fresh).any (·.pin == next.pin) := by
        rw [← List.map_append, List.any_map]
        congr 1
        funext connection
        exact regroups.beq_rename connection.pin next.pin
      simp only [List.foldl_cons, List.foldl_nil, Connection.renamed, known,
        regroups.injective.eq_iff]
      split
      · rfl
      · rw [List.map_append]
        rfl

theorem walkFrom_rename {passes copyPasses : Nat → Bool}
    (same : ∀ pin, copyPasses (rename pin) = passes pin) (root fuel : Nat)
    (stack found : List Connection) :
    copy.adjacency.walkFrom copyPasses (rename root) fuel
        (stack.map (Connection.renamed rename)) (found.map (Connection.renamed rename)) =
      (circuit.adjacency.walkFrom passes root fuel stack found).map
        (Connection.renamed rename) := by
  induction fuel generalizing stack found with
  | zero => rfl
  | succ fuel ih =>
      cases stack with
      | nil => rfl
      | cons here stack =>
          have onward : ((circuit.adjacency.fresh root found here).map
              (Connection.renamed rename)).filter (copyPasses ·.pin) =
                ((circuit.adjacency.fresh root found here).filter (passes ·.pin)).map
                  (Connection.renamed rename) := by
            rw [List.filter_map]
            exact congrArg _ (List.filter_congr fun connection _ => same connection.pin)
          rw [List.map_cons, Adjacency.walkFrom, Adjacency.walkFrom, regroups.fresh_rename, onward,
            ← List.map_reverse, ← List.map_append, ← List.map_append, ih]

/-- Walks find the copies of what they find, in the same order. -/
theorem walk_rename {passes copyPasses : Nat → Bool}
    (same : ∀ pin, copyPasses (rename pin) = passes pin) (root : Nat) :
    copy.adjacency.walk copyPasses (rename root) =
      (circuit.adjacency.walk passes root).map (Connection.renamed rename) := by
  unfold Adjacency.walk
  rw [regroups.length_links]
  exact regroups.walkFrom_rename same root _ [⟨root, false⟩] []

theorem endpoints_rename (root : Nat) : copy.endpoints copy.adjacency (rename root) =
    (circuit.endpoints circuit.adjacency root).map rename := by
  have pins : ((circuit.adjacency.walk circuit.isRelay root).map (Connection.renamed rename)).map
      (·.pin) = ((circuit.adjacency.walk circuit.isRelay root).map (·.pin)).map rename := by
    rw [List.map_map, List.map_map]
    rfl
  rw [endpoints, endpoints, regroups.walk_rename regroups.isRelay_rename, pins, List.filter_map]
  refine congrArg _ (List.filter_congr fun pin _ => ?_)
  rw [Function.comp_apply, regroups.isRelay_rename]

theorem copy_zone_of_link {here : Nat} {next : Connection}
    (link : (here, next) ∈ copy.adjacency.links) : copy.zone next.pin = copy.zone here := by
  rw [links_eq] at link
  obtain ⟨id, member, link⟩ := List.mem_flatMap.mp link
  obtain ⟨other, _, rfl⟩ := List.mem_map.mp (regroups.perm_ids.mem_iff.mp member)
  rw [regroups.linksOf_rename] at link
  obtain ⟨⟨start, stop⟩, listed, same⟩ := List.mem_map.mp link
  cases same
  obtain ⟨first, second⟩ := regroups.zone_of_linksOf listed
  exact regroups.zone_eq_iff.mpr (second.trans first.symm)

end Regroups

theorem Tree.settled (tree : circuit.Tree Kind.Nests) : circuit.Every Element.Settled := by
  have points : ∀ id element pin, circuit.get? id = some element → element.kind = .pin pin →
      pin = .fixed .input ∨ pin = .fixed .output ∨ pin = .floating := by
    intro id element pin held isPin
    obtain ⟨_, _, _, _, nests⟩ := tree.owner_nests held (by simp [isPin])
    rw [isPin] at nests
    rcases nests with ⟨_, input | output⟩ | ⟨_, floating⟩
    · exact Or.inl input
    · exact Or.inr (Or.inl output)
    · exact Or.inr (Or.inr floating)
  intro id element held
  refine ⟨tree.plain id element held, fun pin isPin keeps => ?_, fun pin isPin resets => ?_⟩
  · rcases points id element pin held isPin with rfl | rfl | rfl
    · exact Direction.noConfusion
    · exact Direction.noConfusion
    · contradiction
  · rcases points id element pin held isPin with rfl | rfl | rfl
    · contradiction
    · contradiction
    · rfl

def place (circuit : Circuit) (id : Nat) : Nat :=
  if id < circuit.size then circuit.numberOf id else id

theorem place_of_lt {id : Nat} (bound : id < circuit.size) :
    circuit.place id = circuit.numberOf id := if_pos bound

namespace Laid

variable (laid : circuit.Laid) (valid : circuit.validate = .ok ())

include laid

theorem wire_inside {id : Nat} {element : Element} {wire : Wire}
    (held : circuit.get? id = some element) (isWire : element.kind = .wire wire) :
    circuit.zone wire.start = circuit.zone id ∧ circuit.zone wire.stop = circuit.zone id := by
  have tree := laid.tree
  have near : ∀ pin, circuit.Near id pin → circuit.zone pin = circuit.zone id := by
    rintro pin ⟨member, _, sibling, rfl | owned⟩
    · exact zone_congr sibling
    · obtain ⟨context, container, wireOwned, contextHeld, nests⟩ :=
        tree.owner_nests held (by simp [isWire])
      rw [isWire] at nests
      have isContext : container.kind = .context := nests
      rw [wireOwned] at sibling
      obtain ⟨other, memberHeld, memberNests⟩ :=
        tree.nested contextHeld isContext (tree.mem_children.mpr sibling)
      have contains : container.kind.isContainer := by rw [isContext]; rfl
      simp [zone, owned, memberHeld, memberNests.not_isContainer, sibling, wireOwned, contextHeld,
        contains]
  obtain ⟨start, stop⟩ := laid.near id element wire held isWire
  exact ⟨near _ start, near _ stop⟩

include valid

theorem renames_place (renames : circuit.Renames circuit.numberOf copy) :
    circuit.Renames circuit.place copy := by
  have tree := laid.tree
  constructor
  case fixed => exact (place_of_lt tree.size_pos).trans renames.fixed
  case bijective => exact renames.bijective.congr fun id bound => (place_of_lt bound).symm
  case each =>
    intro id element held
    obtain ⟨twin, twinHeld, isTwin⟩ := renames.each id element held
    refine ⟨twin, by rwa [place_of_lt (get?_lt held)], ?_, ?_, ?_, isTwin.name⟩
    · rw [isTwin.kind]
      have parts := (validate_ok_iff.mp valid id element held).2
      cases kind : element.kind with
      | wire wire =>
          rw [kind] at parts
          obtain ⟨_, _, startHeld, _⟩ := isPin_held parts.1
          obtain ⟨_, _, stopHeld, _⟩ := isPin_held parts.2.1
          rw [Kind.renamed, Kind.renamed, place_of_lt (get?_lt startHeld),
            place_of_lt (get?_lt stopHeld)]
      | signal tag =>
          rw [kind] at parts
          refine congrArg Kind.signal (Option.map_congr fun mapped isMapped => ?_)
          obtain ⟨_, tagHeld, _⟩ := parts.2 mapped isMapped
          exact (place_of_lt (get?_lt tagHeld)).symm
      | _ => rfl
    · rw [isTwin.owner]
      refine Option.map_congr fun owner owned => (place_of_lt ?_).symm
      have notRoot : id ≠ solution := by
        rintro rfl
        obtain ⟨root, rootHeld, _, noOwner⟩ := tree.root
        rw [held] at rootHeld
        rw [Option.some.inj rootHeld, noOwner] at owned
        contradiction
      obtain ⟨parent, container, parentOwns, parentHeld, _⟩ := tree.owned id element held notRoot
      rw [parentOwns] at owned
      cases owned
      exact get?_lt parentHeld
    · rw [isTwin.children]
      refine List.map_congr_left fun child member => (place_of_lt ?_).symm
      exact tree.fits held child member

theorem regroups (renames : circuit.Renames circuit.numberOf copy)
    (copyTree : copy.Tree Kind.Nests) : circuit.Regroups circuit.place copy := by
  have tree := laid.tree
  have size : copy.size = circuit.size := by
    simpa only [Set.ncard_Iio_nat] using renames.bijective.ncard_eq.symm
  constructor
  case toRenames => exact laid.renames_place valid renames
  case size => exact size
  case copyTree => exact copyTree.owns
  case tree => exact tree.owns
  case settled => exact tree.settled
  case copySettled => exact copyTree.settled
  case tagsFirst =>
    rintro tag other ⟨element, held, isTag⟩ bound notRoot notTag
    rcases Nat.lt_trichotomy tag other with less | rfl | greater
    · exact less
    · exact absurd ⟨element, held, isTag⟩ notTag
    · exact absurd (laid.early tag element held isTag other greater notRoot) notTag
  case tagsOrdered =>
    intro tag other isTag bound less
    rw [place_of_lt bound, place_of_lt (Nat.lt_trans less bound)]
    by_cases both : circuit.IsTag other
    · refine laid.numberOf_lt (zone_congr ?_) bound less
      rw [tree.owner_tag isTag, tree.owner_tag both]
    · exact laid.numberOf_tag_lt isTag bound (Nat.ne_of_gt (Nat.zero_lt_of_lt less)) both
  case inside => exact fun id element wire held isWire => laid.wire_inside held isWire
  case injective =>
    refine injective_of_fixed (fun id bound => ?_)
      (fun id beyond => if_neg beyond) fun first firstBound second secondBound same => ?_
    · rw [place_of_lt bound, ← size]
      exact renames.bijective.mapsTo bound
    · rw [place_of_lt firstBound, place_of_lt secondBound] at same
      exact numberOf_inj (tree.mem_order_lt.mpr firstBound) same
  case ordered =>
    intro first second bound same less
    rw [place_of_lt bound, place_of_lt (Nat.lt_trans less bound)]
    exact laid.numberOf_lt same bound less

end Laid

end Circuit

end RelayLogic
