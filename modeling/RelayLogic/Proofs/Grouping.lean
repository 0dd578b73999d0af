import RelayLogic.Proofs.Encoding

/-!
What keeps its order in a netlist: whatever stands in one container, with the pins that belong to
it. Tags come first. Only contexts of different projects change places, where a project is taken up
again.
-/

namespace RelayLogic

theorem Kind.Nests.not_isContainer {kind : Kind} (nests : Kind.context.Nests kind) :
    kind.isContainer = false := by
  cases kind <;> simp [Kind.Nests, isSignal, isLogic, isContainer] at nests ⊢

namespace Circuit

variable {circuit : Circuit}

/-- The container that an element stands in, by itself or as a pin of what stands there. -/
def zone (circuit : Circuit) (id : ElementId) : Option ElementId :=
  (circuit.owner id).bind fun owner =>
    if (circuit.get? owner).any (·.kind.isContainer) then some owner else circuit.owner owner

theorem zone_congr {first second : ElementId} (same : circuit.owner first = circuit.owner second) :
    circuit.zone first = circuit.zone second := by
  rw [zone, zone, same]

theorem idxOf_lt_of_sublist {sub list : List Nat} (among : sub.Sublist list) (unique : list.Nodup)
    (sorted : sub.Pairwise (· < ·)) {first second : Nat} (firstMember : first ∈ sub)
    (secondMember : second ∈ sub) (less : first < second) :
    list.idxOf first < list.idxOf second := by
  have placed : list.Pairwise fun one other => list.idxOf one < list.idxOf other := by
    refine List.pairwise_iff_getElem.mpr fun low high lowBound highBound below => ?_
    rwa [unique.idxOf_getElem, unique.idxOf_getElem]
  obtain ⟨before, after, rfl⟩ := List.append_of_mem firstMember
  obtain ⟨-, -, apart⟩ := List.pairwise_append.mp sorted
  rcases List.mem_append.mp secondMember with early | late
  · exact absurd less (Nat.not_lt_of_lt (apart second early first List.mem_cons_self))
  · have later := (List.mem_cons.mp late).resolve_left (Nat.ne_of_gt less)
    have rest := (List.pairwise_append.mp (placed.sublist among)).2.1
    exact (List.pairwise_cons.mp rest).1 second later

theorem idxOf_lt_of_append {front back : List Nat} (unique : (front ++ back).Nodup)
    {first second : Nat} (firstMember : first ∈ front) (secondMember : second ∈ back) :
    (front ++ back).idxOf first < (front ++ back).idxOf second := by
  have absent : second ∉ front := fun member =>
    (List.nodup_append.mp unique).2.2 second member second secondMember rfl
  rw [List.idxOf_append_of_mem firstMember, List.idxOf_append_of_notMem absent]
  exact Nat.lt_add_right _ (List.idxOf_lt_length_of_mem firstMember)

namespace Tree

variable (tree : circuit.Tree Kind.Nests)

include tree

theorem zone_cases {id : ElementId} {element : Element} (held : circuit.get? id = some element)
    (notSolution : element.kind ≠ .solution) :
    ∃ container other, circuit.zone id = some container ∧ circuit.get? container = some other ∧
      other.kind.isContainer ∧ (circuit.owner id = some container ∨
        other.kind = .context ∧ ∃ member, circuit.owner id = some member ∧
          circuit.owner member = some container) := by
  obtain ⟨owner, container, owned, ownerHeld, nests⟩ := tree.owner_nests held notSolution
  by_cases contains : container.kind.isContainer
  · refine ⟨owner, container, ?_, ownerHeld, contains, Or.inl owned⟩
    simp [zone, owned, ownerHeld, contains]
  · have ownerNot : container.kind ≠ .solution := by
      intro isSolution
      rw [isSolution] at contains
      contradiction
    obtain ⟨above, other, ownedAbove, aboveHeld, nestsAbove⟩ := tree.owner_nests ownerHeld ownerNot
    have isContext : other.kind = .context := by
      cases kind : container.kind with
      | signal _ | gate _ | timer _ _ =>
          rw [kind] at nestsAbove
          exact nestsAbove
      | memory _ =>
          rw [kind] at nestsAbove
          exact nestsAbove.elim
      | pin _ | wire _ | tag _ _ =>
          rw [kind] at nests
          exact absurd nests (Kind.not_nests rfl _)
      | _ => simp [kind, Kind.isContainer] at contains
    refine ⟨above, other, ?_, aboveHeld, by rw [isContext]; rfl,
      Or.inr ⟨isContext, owner, owned, ownedAbove⟩⟩
    simp [zone, owned, ownerHeld, contains, ownedAbove]

theorem owner_tag {tag : ElementId} (isTag : circuit.IsTag tag) :
    circuit.owner tag = some solution := by
  obtain ⟨element, held, isTag⟩ := isTag
  refine tree.owner_top held ?_
  cases kind : element.kind <;> simp [kind, Kind.isTag, Kind.rank] at isTag ⊢

theorem mem_order_lt {id : Nat} : id ∈ circuit.order ↔ id < circuit.size :=
  tree.mem_order_iff tree.shallow fun _ _ => tree.reach

end Tree

namespace Laid

variable (laid : circuit.Laid)

include laid

theorem sorted_children (id : ElementId) : (circuit.children id).Pairwise (· < ·) := by
  unfold children
  split
  next element held => exact laid.sorted id element held
  next => exact List.Pairwise.nil

theorem sorted_members {context : ElementId} {element : Element}
    (held : circuit.get? context = some element) (isContext : element.kind = .context) :
    ((circuit.children context).flatMap (circuit.inOrder 0)).Pairwise (· < ·) := by
  have parts : ∀ member ∈ circuit.children context, ∀ pin ∈ circuit.children member,
      pin < member ∧ ∀ other < member, circuit.owner other = some context → other < pin := by
    intro member listed pin owned
    obtain ⟨other, memberHeld, nests⟩ := laid.tree.nested held isContext listed
    have notContainer : other.kind.isContainer = false := nests.not_isContainer
    simp only [children, memberHeld] at owned
    have memberOwned := laid.tree.mem_children.mp listed
    rw [owner, memberHeld, Option.bind_some] at memberOwned
    rw [← memberOwned]
    exact laid.packed member other memberHeld notContainer pin owned
  rw [List.pairwise_flatMap]
  constructor
  · intro member listed
    refine List.pairwise_append.mpr ⟨laid.sorted_children member, List.pairwise_singleton _ _, ?_⟩
    intro pin owned last isLast
    rw [List.mem_singleton.mp isLast]
    exact (parts member listed pin owned).1
  · refine List.Pairwise.imp_of_mem ?_ (laid.sorted_children context)
    intro first second firstListed secondListed less one oneMember other otherMember
    have low : one ≤ first := by
      rcases List.mem_append.mp oneMember with owned | same
      · exact Nat.le_of_lt (parts first firstListed one owned).1
      · exact Nat.le_of_eq (List.mem_singleton.mp same)
    have high : first < other := by
      rcases List.mem_append.mp otherMember with owned | same
      · exact (parts second secondListed other owned).2 first less
          (laid.tree.mem_children.mp firstListed)
      · rwa [List.mem_singleton.mp same]
    exact Nat.lt_of_le_of_lt low high

/-- What stands in one container keeps its order. -/
theorem numberOf_lt {first second : Nat} (same : circuit.zone first = circuit.zone second)
    (bound : second < circuit.size) (less : first < second) :
    circuit.numberOf first < circuit.numberOf second := by
  have tree := laid.tree
  have unique : circuit.order.Nodup := tree.nodup_order tree.shallow
  obtain ⟨element, held⟩ := exists_get? bound
  obtain ⟨other, otherHeld⟩ := exists_get? (Nat.lt_trans less bound)
  have notSolution : element.kind ≠ .solution := by
    intro isSolution
    rw [tree.solution_of_kind held isSolution] at less
    exact Nat.not_lt_zero _ less
  obtain ⟨container, above, zoned, containerHeld, _, place⟩ := tree.zone_cases held notSolution
  have otherNot : other.kind ≠ .solution := by
    intro isSolution
    rw [tree.solution_of_kind otherHeld isSolution, zoned, zone, tree.owner_solution] at same
    contradiction
  obtain ⟨_, found, otherZoned, foundHeld, _, otherPlace⟩ := tree.zone_cases otherHeld otherNot
  rw [same, zoned] at otherZoned
  cases otherZoned
  rw [containerHeld] at foundHeld
  cases foundHeld
  by_cases isContext : above.kind = .context
  · have listed : ∀ {id}, circuit.owner id = some container ∨ (above.kind = .context ∧
        ∃ member, circuit.owner id = some member ∧ circuit.owner member = some container) →
          id ∈ (circuit.children container).flatMap (circuit.inOrder 0) := by
      rintro id (owned | ⟨_, member, owned, within⟩)
      · exact List.mem_flatMap.mpr ⟨id, tree.mem_children.mpr owned, by simp [inOrder]⟩
      · exact List.mem_flatMap.mpr ⟨member, tree.mem_children.mpr within,
          List.mem_append_left _ (tree.mem_children.mpr owned)⟩
    obtain ⟨front, back, parts⟩ := tree.order_members containerHeld isContext
    have among : ((circuit.children container).flatMap (circuit.inOrder 0)).Sublist
        circuit.order := by
      rw [parts]
      exact (List.sublist_append_left _ _).trans (List.sublist_append_right _ _)
    exact idxOf_lt_of_sublist among unique (laid.sorted_members containerHeld isContext)
      (listed otherPlace) (listed place) less
  · have owned := place.resolve_right fun inContext => isContext inContext.1
    have otherOwned := otherPlace.resolve_right fun inContext => isContext inContext.1
    have among : (circuit.children container).Sublist circuit.order := by
      rw [← tree.children_in_order tree.shallow (tree.mem_order_lt.mpr (get?_lt containerHeld))]
      exact List.filter_sublist
    exact idxOf_lt_of_sublist among unique (laid.sorted_children container)
      (tree.mem_children.mpr otherOwned) (tree.mem_children.mpr owned) less

theorem numberOf_tag_lt {tag other : Nat} (isTag : circuit.IsTag tag) (bound : other < circuit.size)
    (notRoot : other ≠ solution) (notTag : ¬circuit.IsTag other) :
    circuit.numberOf tag < circuit.numberOf other := by
  have tree := laid.tree
  have unique : circuit.order.Nodup := tree.nodup_order tree.shallow
  have owned := tree.owner_tag isTag
  obtain ⟨element, held, tagKind⟩ := isTag
  have listed := tree.mem_order_lt.mpr bound
  rw [order, inOrder] at listed
  obtain ⟨top, topMember, under⟩ :=
    List.mem_flatMap.mp ((List.mem_cons.mp listed).resolve_left notRoot)
  have topNot : ¬circuit.IsTag top := by
    rintro ⟨found, topHeld, topKind⟩
    rw [inOrder, tree.children_eq_nil topHeld, List.flatMap_nil, List.mem_singleton] at under
    · exact notTag ⟨found, under ▸ topHeld, topKind⟩
    · cases kind : found.kind <;> simp [kind, Kind.isTag, Kind.isLeaf] at topKind ⊢
  have less : tag < top := by
    rcases Nat.lt_trichotomy tag top with less | rfl | greater
    · exact less
    · exact absurd ⟨element, held, tagKind⟩ topNot
    · refine absurd (laid.early tag element held tagKind top greater ?_) topNot
      rintro rfl
      have rooted := tree.mem_children.mp topMember
      rw [tree.owner_solution] at rooted
      contradiction
  obtain ⟨before, after, parts⟩ := List.append_of_mem topMember
  have early : tag ∈ before := laid.mem_before parts owned less
  have whole : circuit.order = (solution :: before.flatMap (circuit.inOrder 2)) ++
      (circuit.inOrder 2 top ++ after.flatMap (circuit.inOrder 2)) := by
    rw [order, inOrder, parts, List.flatMap_append, List.flatMap_cons]
    rfl
  unfold numberOf
  rw [whole] at unique ⊢
  refine idxOf_lt_of_append unique (List.mem_cons_of_mem _ ?_) (List.mem_append_left _ under)
  exact List.mem_flatMap.mpr ⟨tag, early, List.mem_cons_self⟩

end Laid

end Circuit

end RelayLogic
