import RelayLogic.Proofs.Order
import Mathlib.Data.Finset.Card

/-!
What lies below the elements of a tree. Where owners and children agree and the solution is above
every element, the descent from the solution meets each other element once.
-/

namespace RelayLogic.Circuit

variable {circuit : Circuit}

/-- Owners and children agree, no child is listed twice, and the solution is above everything. -/
structure Spanning (circuit : Circuit) : Prop where
  root : solution < circuit.size
  top : circuit.owner solution = none
  listed : ∀ owner child, (circuit.children owner).count child =
    if circuit.owner child = some owner then 1 else 0
  reaches : ∀ id, id < circuit.size → ∃ levels, circuit.above levels id = some solution

theorem owner_lt {id owner : Nat} (owned : circuit.owner id = some owner) : id < circuit.size := by
  obtain ⟨element, held, _⟩ := Option.bind_eq_some_iff.mp owned
  exact get?_lt held

namespace Spanning

variable (spanning : circuit.Spanning)

include spanning

theorem mem_children {owner child : ElementId} :
    child ∈ circuit.children owner ↔ circuit.owner child = some owner := by
  rw [← List.count_pos_iff, spanning.listed]
  split <;> simp [*]

theorem nodup_children (owner : ElementId) : (circuit.children owner).Nodup := by
  rw [List.nodup_iff_count_le_one]
  intro child
  rw [spanning.listed]
  split <;> simp

theorem above_one {owner child : ElementId} (member : child ∈ circuit.children owner) :
    circuit.above 1 child = some owner := by
  rw [above, spanning.mem_children.mp member]
  rfl

theorem lt_of_above {levels id : Nat} (reached : circuit.above levels id = some solution) :
    id < circuit.size := by
  cases levels with
  | zero =>
      cases reached
      exact spanning.root
  | succ levels =>
      obtain ⟨owner, owned, _⟩ := Option.bind_eq_some_iff.mp reached
      exact owner_lt owned

theorem levels_lt {levels id : Nat} (reached : circuit.above levels id = some solution) :
    levels < circuit.size := by
  have each : ∀ level, ∃ stop, level ≤ levels → circuit.above level id = some stop ∧
      circuit.above (levels - level) stop = some solution := by
    intro level
    by_cases within : level ≤ levels
    · have whole : level + (levels - level) = levels := by omega
      obtain ⟨stop, first, rest⟩ := above_split (whole.symm ▸ reached)
      exact ⟨stop, fun _ => ⟨first, rest⟩⟩
    · exact ⟨id, fun le => absurd le within⟩
  choose stop stops using each
  have injective : Set.InjOn stop (Finset.range (levels + 1)) := by
    intro first firstMember second secondMember same
    simp only [Finset.coe_range, Set.mem_Iio] at firstMember secondMember
    have one := (stops first (by omega)).2
    have two := (stops second (by omega)).2
    rw [same] at one
    have equal := levels_unique spanning.top one two
    omega
  have inside : ∀ level ∈ Finset.range (levels + 1), stop level ∈ Finset.range circuit.size := by
    intro level member
    have within : level ≤ levels := by simpa [Nat.lt_succ_iff] using member
    exact Finset.mem_range.mpr (spanning.lt_of_above (stops level within).2)
  have few := Finset.card_le_card_of_injOn stop inside injective
  rw [Finset.card_range, Finset.card_range] at few
  omega

theorem mem_below {depth : Nat} {root id : ElementId} : id ∈ circuit.below depth root ↔
    ∃ levels, levels < depth ∧ circuit.above (levels + 1) id = some root := by
  induction depth generalizing root with
  | zero => simp [below]
  | succ depth ih =>
      simp only [below, List.mem_flatMap, List.mem_cons, ih]
      constructor
      · rintro ⟨child, member, rfl | ⟨levels, less, reached⟩⟩
        · exact ⟨0, by omega, spanning.above_one member⟩
        · exact ⟨levels + 1, by omega, by rw [above_add reached, spanning.above_one member]⟩
      · rintro ⟨levels, less, reached⟩
        obtain ⟨child, first, last⟩ := above_split reached
        obtain ⟨owner, owned, same⟩ := Option.bind_eq_some_iff.mp last
        cases same
        refine ⟨child, spanning.mem_children.mpr owned, ?_⟩
        cases levels with
        | zero => exact Or.inl (Option.some.inj first)
        | succ levels => exact Or.inr ⟨levels, by omega, first⟩

theorem nodup_below (depth : Nat) {levels : Nat} {root : ElementId}
    (rooted : circuit.above levels root = some solution) : (circuit.below depth root).Nodup := by
  induction depth generalizing levels root with
  | zero => exact List.nodup_nil
  | succ depth ih =>
      have under : ∀ child ∈ circuit.children root,
          circuit.above (1 + levels) child = some solution := by
        intro child member
        rw [above_add (spanning.above_one member), rooted]
      have reach : ∀ {child id : ElementId}, id ∈ child :: circuit.below depth child →
          ∃ more, circuit.above more id = some child := by
        intro child id member
        rcases List.mem_cons.mp member with rfl | member
        · exact ⟨0, rfl⟩
        · obtain ⟨more, _, reached⟩ := spanning.mem_below.mp member
          exact ⟨more + 1, reached⟩
      refine List.nodup_flatMap.mpr ⟨fun child member => List.nodup_cons.mpr ⟨?_, ?_⟩, ?_⟩
      · intro inside
        obtain ⟨more, _, reached⟩ := spanning.mem_below.mp inside
        have longer := (above_add reached).trans (under child member)
        have same := levels_unique spanning.top longer (under child member)
        omega
      · exact ih (under child member)
      · refine (spanning.nodup_children root).imp_of_mem ?_
        intro first second firstMember secondMember different
        refine List.disjoint_left.mpr fun id inFirst inSecond => different ?_
        obtain ⟨one, firstReached⟩ := reach inFirst
        obtain ⟨two, secondReached⟩ := reach inSecond
        have firstLong := (above_add firstReached).trans (under first firstMember)
        have secondLong := (above_add secondReached).trans (under second secondMember)
        have same := levels_unique spanning.top firstLong secondLong
        have equal : one = two := by omega
        rw [equal, secondReached] at firstReached
        exact (Option.some.inj firstReached).symm

/-- The descent from the solution meets every other element once. -/
theorem descendants_perm : (circuit.descendants solution).Perm (circuit.ids.erase solution) := by
  have ids : circuit.ids.Nodup := List.nodup_range
  have rooted : circuit.above 0 solution = some solution := rfl
  have unique : (circuit.descendants solution).Nodup := spanning.nodup_below circuit.size rooted
  refine (List.perm_ext_iff_of_nodup unique (ids.erase solution)).mpr fun id => ?_
  rw [ids.mem_erase_iff, descendants, spanning.mem_below, Circuit.ids, List.mem_range]
  constructor
  · rintro ⟨levels, _, reached⟩
    refine ⟨?_, spanning.lt_of_above reached⟩
    rintro rfl
    have same := levels_unique spanning.top reached rooted
    omega
  · rintro ⟨notRoot, bound⟩
    obtain ⟨levels, reached⟩ := spanning.reaches id bound
    have less := spanning.levels_lt reached
    cases levels with
    | zero => exact absurd (Option.some.inj reached) notRoot
    | succ levels => exact ⟨levels, by omega, reached⟩

end Spanning

theorem Tree.spanning {belongs : Kind → Kind → Prop} (tree : circuit.Tree belongs)
    (reaches : ∀ id, id < circuit.size → ∃ levels, circuit.above levels id = some solution) :
    circuit.Spanning where
  root := tree.size_pos
  top := tree.owner_solution
  listed owner child := by
    rw [(tree.nodup_children owner).count]
    simp only [tree.mem_children]
  reaches := reaches

end RelayLogic.Circuit
