import RelayLogic.Proofs.Drawing

/-!
The order of a tree: an element that has no children's children comes after its children, any other
before what is below it. Every element comes once, and the children of each come in their order.
-/

namespace RelayLogic.Circuit

variable {circuit : Circuit} {belongs : Kind → Kind → Prop}

/-- An element of a given height with all that is below it. -/
def inOrder (circuit : Circuit) : Nat → ElementId → List ElementId
  | 0, id => circuit.children id ++ [id]
  | height + 1, id => id :: (circuit.children id).flatMap (circuit.inOrder height)

def Shallow (circuit : Circuit) : Nat → ElementId → Prop
  | 0, id => ∀ child ∈ circuit.children id, circuit.children child = []
  | height + 1, id => ∀ child ∈ circuit.children id, circuit.Shallow height child

def above (circuit : Circuit) : Nat → ElementId → Option ElementId
  | 0, id => some id
  | levels + 1, id => (circuit.owner id).bind (circuit.above levels)

theorem above_add {first second : Nat} {id middle : ElementId}
    (reached : circuit.above first id = some middle) :
    circuit.above (first + second) id = circuit.above second middle := by
  induction first generalizing id with
  | zero =>
      cases reached
      rw [Nat.zero_add]
  | succ first ih =>
      obtain ⟨owner, owned, onward⟩ := Option.bind_eq_some_iff.mp reached
      rw [Nat.add_right_comm, above, owned, Option.bind_some]
      exact ih onward

theorem above_split {first second : Nat} {id top : ElementId}
    (reached : circuit.above (first + second) id = some top) :
    ∃ middle, circuit.above first id = some middle ∧ circuit.above second middle = some top := by
  induction first generalizing id with
  | zero =>
      rw [Nat.zero_add] at reached
      exact ⟨id, rfl, reached⟩
  | succ first ih =>
      rw [Nat.add_right_comm, above] at reached
      obtain ⟨owner, owned, onward⟩ := Option.bind_eq_some_iff.mp reached
      obtain ⟨middle, below, rest⟩ := ih onward
      exact ⟨middle, by rw [above, owned, Option.bind_some, below], rest⟩

theorem levels_unique (top : circuit.owner solution = none) {first second : Nat} {id : ElementId}
    (one : circuit.above first id = some solution)
    (other : circuit.above second id = some solution) : first = second := by
  have shorter : ∀ first second, circuit.above first id = some solution →
      circuit.above second id = some solution → second ≤ first := by
    intro first second one other
    refine Nat.le_of_not_lt fun less => ?_
    obtain ⟨step, rfl⟩ := Nat.exists_eq_add_of_lt less
    rw [Nat.add_assoc, above_add one, above, top] at other
    contradiction
  exact Nat.le_antisymm (shorter second first other one) (shorter first second one other)

theorem flatMap_of_only {items : List α} {item : α} {view : α → List β} (unique : items.Nodup)
    (member : item ∈ items) (others : ∀ other ∈ items, other ≠ item → view other = []) :
    items.flatMap view = view item := by
  obtain ⟨before, after, rfl⟩ := List.append_of_mem member
  obtain ⟨_, uniqueAfter, apart⟩ := List.nodup_append.mp unique
  have first : before.flatMap view = [] := List.flatMap_eq_nil_iff.mpr fun other listed =>
    others other (List.mem_append_left _ listed) (apart other listed item List.mem_cons_self)
  have last : after.flatMap view = [] := List.flatMap_eq_nil_iff.mpr fun other listed =>
    others other (List.mem_append_right _ (List.mem_cons_of_mem _ listed)) fun same =>
      (List.nodup_cons.mp uniqueAfter).1 (same ▸ listed)
  rw [List.flatMap_append, List.flatMap_cons, first, last, List.nil_append, List.append_nil]

namespace Tree

variable (tree : circuit.Tree belongs)

include tree

theorem above_unique {first second : Nat} {id : ElementId}
    (one : circuit.above first id = some solution)
    (other : circuit.above second id = some solution) : first = second :=
  levels_unique tree.owner_solution one other

theorem above_of_mem {height : Nat} {root id : ElementId}
    (member : id ∈ circuit.inOrder height root) :
    ∃ levels, circuit.above levels id = some root := by
  induction height generalizing root with
  | zero =>
      rcases List.mem_append.mp member with below | same
      · exact ⟨1, by rw [above, tree.mem_children.mp below]; rfl⟩
      · exact ⟨0, by rw [List.mem_singleton.mp same]; rfl⟩
  | succ height ih =>
      rcases List.mem_cons.mp member with rfl | below
      · exact ⟨0, rfl⟩
      · obtain ⟨child, childMember, under⟩ := List.mem_flatMap.mp below
        obtain ⟨levels, reached⟩ := ih under
        refine ⟨levels + 1, ?_⟩
        rw [above_add reached, above, tree.mem_children.mp childMember]
        rfl

variable {depth height : Nat} {root : ElementId}

theorem above_child (rooted : circuit.above depth root = some solution) {child : ElementId}
    (member : child ∈ circuit.children root) :
    circuit.above (1 + depth) child = some solution := by
  have first : circuit.above 1 child = some root := by
    rw [above, tree.mem_children.mp member]
    rfl
  rw [above_add first, rooted]

theorem not_above (rooted : circuit.above depth root = some solution) {id : ElementId}
    (member : id ∈ circuit.inOrder height root) : circuit.owner root ≠ some id := by
  intro owned
  obtain ⟨levels, reached⟩ := tree.above_of_mem member
  have longer : circuit.above (1 + (levels + depth)) root = some solution := by
    have first : circuit.above 1 root = some id := by
      rw [above, owned]
      rfl
    rw [above_add first, above_add reached, rooted]
  have same := tree.above_unique rooted longer
  omega

theorem apart (rooted : circuit.above depth root = some solution) {first second id : ElementId}
    (firstMember : first ∈ circuit.children root) (secondMember : second ∈ circuit.children root)
    (under : id ∈ circuit.inOrder height first) (other : id ∈ circuit.inOrder height second) :
    first = second := by
  obtain ⟨levels, reached⟩ := tree.above_of_mem under
  obtain ⟨more, reachedOther⟩ := tree.above_of_mem other
  have one := (above_add reached).trans (tree.above_child rooted firstMember)
  have two := (above_add reachedOther).trans (tree.above_child rooted secondMember)
  have same := tree.above_unique one two
  have equal : levels = more := by omega
  rw [equal, reachedOther] at reached
  exact (Option.some.inj reached).symm

theorem root_not_below (rooted : circuit.above depth root = some solution) {child : ElementId}
    (member : child ∈ circuit.children root) : root ∉ circuit.inOrder height child := by
  intro under
  exact tree.not_above (tree.above_child rooted member) under (tree.mem_children.mp member)

theorem filter_children (id other : ElementId) :
    (circuit.children id).filter (circuit.owner · = some other) =
      if id = other then circuit.children id else [] := by
  split
  next same =>
    refine List.filter_eq_self.mpr fun child member => ?_
    simp [tree.mem_children.mp member, same]
  next different =>
    refine List.filter_eq_nil_iff.mpr fun child member => ?_
    simp [tree.mem_children.mp member, different]

theorem filter_below (rooted : circuit.above depth root = some solution) (id : ElementId)
    (each : ∀ child ∈ circuit.children root,
      (circuit.inOrder height child).filter (circuit.owner · = some id) =
        if id ∈ circuit.inOrder height child then circuit.children id
        else if root = id then [child] else []) :
    ((circuit.children root).flatMap (circuit.inOrder height)).filter (circuit.owner · = some id) =
      if id ∈ circuit.inOrder (height + 1) root then circuit.children id else [] := by
  rw [List.filter_flatMap, List.flatMap_congr each]
  by_cases same : root = id
  · subst same
    have single : ∀ child ∈ circuit.children root,
        (if root ∈ circuit.inOrder height child then circuit.children root
          else if root = root then [child] else []) = [child] := by
      intro child member
      simp [tree.root_not_below rooted member]
    rw [List.flatMap_congr single, List.flatMap_singleton']
    simp [inOrder]
  · simp only [same, ↓reduceIte]
    by_cases below : ∃ child ∈ circuit.children root, id ∈ circuit.inOrder height child
    · obtain ⟨child, member, under⟩ := below
      have whole : id ∈ circuit.inOrder (height + 1) root :=
        List.mem_cons_of_mem _ (List.mem_flatMap.mpr ⟨child, member, under⟩)
      rw [flatMap_of_only (tree.nodup_children root) member]
      · simp only [under, whole, ↓reduceIte]
      · intro other otherMember different
        have outside : id ∉ circuit.inOrder height other := fun otherUnder =>
          different (tree.apart rooted otherMember member otherUnder under)
        simp only [outside, ↓reduceIte]
    · have outside : id ∉ circuit.inOrder (height + 1) root := by
        intro member
        rcases List.mem_cons.mp member with equal | under
        · exact same equal.symm
        · exact below (List.mem_flatMap.mp under)
      simp only [outside, ↓reduceIte, List.flatMap_eq_nil_iff]
      intro child member
      have notUnder : id ∉ circuit.inOrder height child := fun under =>
        below ⟨child, member, under⟩
      simp only [notUnder, ↓reduceIte]

theorem filter_inOrder (rooted : circuit.above depth root = some solution)
    (shallow : circuit.Shallow height root) (id : ElementId) :
    (circuit.inOrder height root).filter (circuit.owner · = some id) =
      if id ∈ circuit.inOrder height root then circuit.children id
      else if circuit.owner root = some id then [root] else [] := by
  induction height generalizing depth root with
  | zero =>
      rw [inOrder, List.filter_append, tree.filter_children, ← inOrder.eq_1]
      by_cases member : id ∈ circuit.inOrder 0 root
      · have notOwner := tree.not_above rooted member
        simp only [member, notOwner, ↓reduceIte, decide_false, Bool.false_eq_true,
          not_false_eq_true, List.filter_cons_of_neg, List.filter_nil, List.append_nil]
        split
        next same => rw [same]
        next different =>
          have below : id ∈ circuit.children root := by
            rcases List.mem_append.mp member with below | same
            · exact below
            · exact absurd (List.mem_singleton.mp same).symm different
          exact (shallow id below).symm
      · have different : root ≠ id := by
          rintro rfl
          exact member (List.mem_append_right _ List.mem_cons_self)
        by_cases owned : circuit.owner root = some id <;>
          simp [member, different, owned]
  | succ height ih =>
      have rest := tree.filter_below rooted id fun child member => by
        rw [ih (tree.above_child rooted member) (shallow child member), tree.mem_children.mp member]
        simp only [Option.some.injEq]
      rw [inOrder, List.filter_cons, rest, ← inOrder.eq_2]
      by_cases member : id ∈ circuit.inOrder (height + 1) root
      · have notOwner := tree.not_above rooted member
        simp [member, notOwner]
      · by_cases owned : circuit.owner root = some id <;> simp [member, owned]

section Whole

variable (shallow : circuit.Shallow height solution)
  (reach : ∀ id element, circuit.get? id = some element →
    ∃ levels, circuit.above levels id = some solution)

include shallow

theorem children_in_order {id : ElementId} (member : id ∈ circuit.inOrder height solution) :
    (circuit.inOrder height solution).filter (circuit.owner · = some id) = circuit.children id := by
  have rooted : circuit.above 0 solution = some solution := rfl
  rw [tree.filter_inOrder rooted shallow, if_pos member]

theorem mem_order {levels : Nat} {id : ElementId}
    (reached : circuit.above levels id = some solution) : id ∈ circuit.inOrder height solution := by
  induction levels generalizing id with
  | zero =>
      cases reached
      cases height with
      | zero => exact List.mem_append_right _ List.mem_cons_self
      | succ height => exact List.mem_cons_self
  | succ levels ih =>
      obtain ⟨owner, owned, onward⟩ := Option.bind_eq_some_iff.mp reached
      have member := tree.mem_children.mpr owned
      rw [← tree.children_in_order shallow (ih onward)] at member
      exact (List.mem_filter.mp member).1

theorem nodup_order : (circuit.inOrder height solution).Nodup := by
  rw [List.nodup_iff_count_le_one]
  intro id
  by_cases member : id ∈ circuit.inOrder height solution
  · cases owned : circuit.owner id with
    | none =>
        have first : id = solution := by
          obtain ⟨levels, reached⟩ := tree.above_of_mem member
          cases levels with
          | zero => exact Option.some.inj reached
          | succ levels =>
              rw [above, owned] at reached
              contradiction
        subst first
        cases height with
        | zero =>
            have notChild : solution ∉ circuit.children solution := by
              rw [tree.mem_children, owned]
              simp
            simp [inOrder, List.count_append, List.count_eq_zero_of_not_mem notChild]
        | succ height =>
            have notBelow : solution ∉
                (circuit.children solution).flatMap (circuit.inOrder height) := by
              intro below
              obtain ⟨child, childMember, under⟩ := List.mem_flatMap.mp below
              exact tree.root_not_below (show circuit.above 0 solution = _ from rfl) childMember under
            simp [inOrder, List.count_eq_zero_of_not_mem notBelow]
    | some owner =>
        have listed := tree.mem_children.mpr owned
        have ownerMember : owner ∈ circuit.inOrder height solution := by
          obtain ⟨levels, reached⟩ := tree.above_of_mem member
          cases levels with
          | zero =>
              cases reached
              rw [tree.owner_solution] at owned
              contradiction
          | succ levels =>
              rw [above, owned, Option.bind_some] at reached
              exact tree.mem_order shallow reached
        have among : decide (circuit.owner id = some owner) = true := decide_eq_true owned
        rw [← List.count_filter (p := fun other => decide (circuit.owner other = some owner)) among,
          tree.children_in_order shallow ownerMember]
        exact List.nodup_iff_count_le_one.mp (tree.nodup_children owner) id
  · rw [List.count_eq_zero_of_not_mem member]
    exact Nat.zero_le 1

include reach

theorem mem_order_iff {id : Nat} : id ∈ circuit.inOrder height solution ↔ id < circuit.size := by
  constructor
  · intro member
    obtain ⟨levels, reached⟩ := tree.above_of_mem member
    cases levels with
    | zero =>
        cases reached
        exact tree.size_pos
    | succ levels =>
        obtain ⟨owner, owned, _⟩ := Option.bind_eq_some_iff.mp reached
        obtain ⟨element, held, _⟩ := Option.bind_eq_some_iff.mp owned
        exact get?_lt held
  · intro bound
    obtain ⟨element, held⟩ := exists_get? bound
    obtain ⟨levels, reached⟩ := reach id element held
    exact tree.mem_order shallow reached

end Whole

end Tree

end RelayLogic.Circuit
