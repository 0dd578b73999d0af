import RelayLogic.Proofs.Order

/-!
The edge of a tree: the last of all elements at each level. What is added there comes last in the
order of the tree.
-/

namespace RelayLogic.Circuit

variable {circuit grown : Circuit} {belongs : Kind → Kind → Prop}

theorem inOrder_congr {height : Nat} {root : ElementId}
    (same : ∀ id ∈ circuit.inOrder height root, grown.children id = circuit.children id) :
    grown.inOrder height root = circuit.inOrder height root := by
  induction height generalizing root with
  | zero => rw [inOrder, inOrder, same root (List.mem_append_right _ List.mem_cons_self)]
  | succ height ih =>
      rw [inOrder, inOrder, same root List.mem_cons_self]
      refine congrArg _ (List.flatMap_congr fun child member => ih fun id under => ?_)
      exact same id (List.mem_cons_of_mem _ (List.mem_flatMap.mpr ⟨child, member, under⟩))

theorem inOrder_outside {height : Nat} {root owner child : ElementId}
    (others : ∀ other ∈ circuit.inOrder (height + 1) root, other ≠ owner →
      grown.children other = circuit.children other)
    (member : child ∈ circuit.children root) (outside : owner ∉ circuit.inOrder height child) :
    grown.inOrder height child = circuit.inOrder height child := by
  refine inOrder_congr fun id under => others id ?_ fun same => outside (same ▸ under)
  exact List.mem_cons_of_mem _ (List.mem_flatMap.mpr ⟨child, member, under⟩)

/-- Whether an element, at a given height of its own, is last among those at its level that are
below a root. -/
inductive Edge (circuit : Circuit) : Nat → Nat → Nat → Nat → Prop
  | here {height root} : Edge circuit height root height root
  | last {height root before child level id} (listed : circuit.children root = before ++ [child])
      (rest : Edge circuit height child level id) : Edge circuit (height + 1) root level id

namespace Edge

variable {height root level id owner new : Nat} {before : List ElementId}

theorem level_le (edge : circuit.Edge height root level id) : level ≤ height := by
  induction edge with
  | here => exact Nat.le_refl _
  | last _ _ ih => exact Nat.le_succ_of_le ih

theorem mem (edge : circuit.Edge height root level id) : id ∈ circuit.inOrder height root := by
  induction edge with
  | @here height root =>
      cases height with
      | zero => exact List.mem_append_right _ List.mem_cons_self
      | succ height => exact List.mem_cons_self
  | @last height root before child level id listed _ ih =>
      refine List.mem_cons_of_mem _ (List.mem_flatMap.mpr ⟨child, ?_, ih⟩)
      rw [listed]
      exact List.mem_append_right _ List.mem_cons_self

theorem under (edge : circuit.Edge height root (level + 1) owner)
    (listed : circuit.children owner = before ++ [id]) : circuit.Edge height root level id := by
  generalize upper : level + 1 = above at edge
  induction edge with
  | here =>
      subst upper
      exact .last listed .here
  | last other _ ih => exact .last other (ih listed upper)

variable (tree : circuit.Tree belongs)

include tree

theorem up (edge : circuit.Edge height root level id) (less : level < height)
    (owned : circuit.owner id = some owner) : circuit.Edge height root (level + 1) owner := by
  induction edge with
  | here => exact absurd less (Nat.lt_irrefl _)
  | @last height root before child level id listed rest ih =>
      cases rest with
      | here =>
          have member : child ∈ circuit.children root := by
            rw [listed]
            exact List.mem_append_right _ List.mem_cons_self
          rw [tree.mem_children.mp member] at owned
          cases owned
          exact .here
      | last other onward =>
          have lower := onward.level_le
          exact .last listed (ih (by omega) owned)

variable {depth : Nat} (rooted : circuit.above depth root = some solution)

include rooted

theorem keep (edge : circuit.Edge height root level owner)
    (others : ∀ other ∈ circuit.inOrder height root, other ≠ owner →
      grown.children other = circuit.children other) :
    grown.Edge height root level owner := by
  induction edge generalizing depth with
  | here => exact .here
  | @last height root before child level owner listed rest ih =>
      have member : child ∈ circuit.children root := by
        rw [listed]
        exact List.mem_append_right _ List.mem_cons_self
      have notOwner : root ≠ owner := fun same =>
        tree.root_not_below rooted member (same ▸ rest.mem)
      refine .last (by rw [others root List.mem_cons_self notOwner, listed]) ?_
      refine ih (tree.above_child rooted member) fun other under different => ?_
      exact others other (List.mem_cons_of_mem _ (List.mem_flatMap.mpr ⟨child, member, under⟩))
        different

theorem grow (edge : circuit.Edge height root (level + 1) owner)
    (adds : grown.children owner = circuit.children owner ++ [new])
    (others : ∀ other ∈ circuit.inOrder height root, other ≠ owner →
      grown.children other = circuit.children other) :
    grown.inOrder height root = circuit.inOrder height root ++ grown.inOrder level new := by
  -- Along the edge only the last child of each element has something new below it.
  generalize upper : level + 1 = above at edge
  induction edge generalizing depth with
  | @here height root =>
      subst upper
      rw [inOrder, adds, List.flatMap_append, List.flatMap_singleton, inOrder, List.cons_append]
      refine congrArg _ (congrArg (· ++ _) (List.flatMap_congr fun child member => ?_))
      exact inOrder_outside others member (tree.root_not_below rooted member)
  | @last height root before child above owner listed rest ih =>
      have member : child ∈ circuit.children root := by
        rw [listed]
        exact List.mem_append_right _ List.mem_cons_self
      have notOwner : root ≠ owner := fun same =>
        tree.root_not_below rooted member (same ▸ rest.mem)
      have unique := tree.nodup_children root
      rw [listed] at unique
      have first : ∀ other ∈ before, grown.inOrder height other = circuit.inOrder height other := by
        intro other early
        have otherMember : other ∈ circuit.children root := by
          rw [listed]
          exact List.mem_append_left _ early
        refine inOrder_outside others otherMember fun under => ?_
        exact (List.nodup_append.mp unique).2.2 other early child List.mem_cons_self
          (tree.apart rooted otherMember member under rest.mem)
      have last := ih (tree.above_child rooted member) adds (fun other under different =>
        others other (List.mem_cons_of_mem _ (List.mem_flatMap.mpr ⟨child, member, under⟩))
          different) upper
      rw [inOrder, others root List.mem_cons_self notOwner, listed, List.flatMap_append,
        List.flatMap_singleton, last, List.flatMap_congr first, inOrder, listed,
        List.flatMap_append, List.flatMap_singleton]
      simp only [List.append_assoc, List.cons_append]

end Edge

end RelayLogic.Circuit
