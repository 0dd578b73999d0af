import RelayLogic.Proofs.Adopting
import RelayLogic.Proofs.Rooting

/-!
Adoptions that succeed. Nothing looks at what is above the new owner, so an adoption can give it
what it hangs from and tie the tree into a loop; all others keep the tree.
-/

namespace RelayLogic

namespace Circuit

variable {circuit : Circuit}

theorem Descends.mem_of_stack {stack listed : List ElementId}
    (descends : circuit.Descends stack listed) : stack ⊆ listed := by
  induction descends with
  | done => exact List.Subset.refl []
  | step _ ih =>
      refine List.cons_subset_cons _ fun other member => ?_
      exact ih (List.mem_append_right _ member)

theorem Descends.closed {stack listed : List ElementId}
    (descends : circuit.Descends stack listed) :
    ∀ id ∈ listed, circuit.children id ⊆ listed := by
  induction descends with
  | done => exact fun _ member => absurd member List.not_mem_nil
  | step onward ih =>
      intro other member child below
      refine List.mem_cons_of_mem _ ?_
      rcases List.mem_cons.mp member with rfl | later
      · exact onward.mem_of_stack (List.mem_append_left _ below)
      · exact ih other later below

theorem Descends.induct {property : ElementId → Prop}
    (inherited : ∀ owner child, property owner → child ∈ circuit.children owner → property child)
    {stack listed : List ElementId} (descends : circuit.Descends stack listed)
    (start : ∀ id ∈ stack, property id) : ∀ id ∈ listed, property id := by
  induction descends with
  | done => exact fun _ member => absurd member List.not_mem_nil
  | @step id stack listed _ ih =>
      have top := start id List.mem_cons_self
      refine List.forall_mem_cons.mpr ⟨top, ih fun other member => ?_⟩
      rcases List.mem_append.mp member with below | later
      · exact inherited id other top below
      · exact start other (List.mem_cons_of_mem id later)

theorem Coupled.spanning_iff (coupled : circuit.Coupled) (root : solution < circuit.size) :
    circuit.Spanning ↔ ∃ listed, circuit.Descends (circuit.children solution) listed ∧
      listed.Perm (circuit.ids.erase solution) := by
  constructor
  · exact fun spanning => ⟨_, spanning.descends, spanning.descendants_perm⟩
  · rintro ⟨listed, descends, all⟩
    have notListed : solution ∉ listed := by
      rw [all.mem_iff]
      exact List.nodup_range.not_mem_erase
    have met : ∀ id, id < circuit.size → id ≠ solution → id ∈ listed := by
      intro id bound other
      exact all.mem_iff.mpr ((List.mem_erase_of_ne other).mpr (List.mem_range.mpr bound))
    have top : circuit.owner solution = none := by
      by_contra owned
      obtain ⟨owner, owned⟩ := Option.ne_none_iff_exists'.mp owned
      have below := coupled.mem_children.mpr owned
      refine notListed ?_
      by_cases same : owner = solution
      · exact descends.mem_of_stack (same ▸ below)
      · have bound : owner < circuit.size := by
          by_contra unknown
          rw [children_of_size_le (Nat.le_of_not_lt unknown)] at below
          contradiction
        exact descends.closed owner (met owner bound same) below
    have up : ∀ owner child, (∃ levels, circuit.above levels owner = some solution) →
        child ∈ circuit.children owner → ∃ levels, circuit.above levels child = some solution := by
      rintro owner child ⟨levels, reached⟩ member
      refine ⟨levels + 1, ?_⟩
      rw [above, coupled.mem_children.mp member, Option.bind_some, reached]
    refine ⟨root, top, coupled, fun id bound => ?_⟩
    by_cases same : id = solution
    · exact ⟨0, congrArg some same⟩
    · refine descends.induct up (fun child member => ?_) id (met id bound same)
      exact up solution child ⟨0, rfl⟩ member

/-- Whether none of the children is the owner or above it. -/
def Outside (circuit : Circuit) (owner : ElementId) (children : List ElementId) : Prop :=
  ∀ child ∈ children, ∀ levels, circuit.above levels owner ≠ some child

section

variable {owner : Nat} {children : List Nat} (exist : ∀ child ∈ children, child < circuit.size)

include exist

theorem above_moveChildren {levels : Nat} {id : ElementId}
    (stays : ∀ level < levels, ∀ passed ∈ circuit.above level id, passed ∉ children) :
    (circuit.moveChildren owner children).above levels id = circuit.above levels id := by
  induction levels generalizing id with
  | zero => rfl
  | succ levels ih =>
      have here : id ∉ children := stays 0 (Nat.succ_pos levels) id rfl
      rw [above, above, owner_moveChildren exist, if_neg here]
      cases owned : circuit.owner id with
      | none => rfl
      | some parent =>
          refine ih fun level less passed member => stays (level + 1) (by omega) passed ?_
          rw [above, owned]
          exact member

theorem Spanning.moveChildren (spanning : circuit.Spanning) (known : owner < circuit.size)
    (outside : circuit.Outside owner children) :
    (circuit.moveChildren owner children).Spanning := by
  obtain ⟨height, reached⟩ := spanning.reaches owner known
  have upper : (circuit.moveChildren owner children).above height owner = some solution := by
    rw [above_moveChildren exist, reached]
    exact fun level _ passed member inside => outside passed inside level member
  have notMoved : solution ∉ children := fun inside => outside solution inside height reached
  refine ⟨?_, ?_, spanning.coupled.moveChildren known exist, ?_⟩
  · rw [size_moveChildren]
    exact spanning.root
  · rw [owner_moveChildren exist, if_neg notMoved, spanning.top]
  · intro id bound
    rw [size_moveChildren] at bound
    obtain ⟨levels, onward⟩ := spanning.reaches id bound
    clear bound
    induction levels generalizing id with
    | zero => exact ⟨0, onward⟩
    | succ levels ih =>
        by_cases moved : id ∈ children
        · refine ⟨height + 1, ?_⟩
          rw [above, owner_moveChildren exist, if_pos moved, Option.bind_some, upper]
        · obtain ⟨parent, owned, rest⟩ := Option.bind_eq_some_iff.mp onward
          obtain ⟨more, reachedLater⟩ := ih parent rest
          refine ⟨more + 1, ?_⟩
          rw [above, owner_moveChildren exist, if_neg moved, owned, Option.bind_some, reachedLater]

theorem exists_loop_of_moveChildren (inside : ¬circuit.Outside owner children) :
    ∃ levels, (circuit.moveChildren owner children).above (levels + 1) owner = some owner := by
  have found : ∃ level, ∃ child ∈ children, circuit.above level owner = some child := by
    unfold Outside at inside
    push Not at inside
    obtain ⟨child, member, level, reached⟩ := inside
    exact ⟨level, child, member, reached⟩
  classical
  -- The lowest of them: nothing below it is moved.
  obtain ⟨child, member, reached⟩ := Nat.find_spec found
  refine ⟨Nat.find found, ?_⟩
  have lower : (circuit.moveChildren owner children).above (Nat.find found) owner = some child := by
    rw [above_moveChildren exist, reached]
    exact fun level less passed held moved => Nat.find_min found less ⟨passed, moved, held⟩
  rw [above_add lower, above, owner_moveChildren exist, if_pos member]
  rfl

end

theorem Spanning.no_loop (spanning : circuit.Spanning) {levels id : Nat} :
    circuit.above (levels + 1) id ≠ some id := by
  intro around
  have bound : id < circuit.size := by
    obtain ⟨_, owned, _⟩ := Option.bind_eq_some_iff.mp around
    exact owner_lt owned
  obtain ⟨height, reached⟩ := spanning.reaches id bound
  have longer := (above_add around).trans reached
  have same := levels_unique spanning.top longer reached
  omega

end Circuit

namespace Build

variable {circuit made : Circuit} {owner : ElementId} {children : List ElementId}

/-- An adoption keeps the tree just in case none of the children is the new owner or above it. In
any other case the descent from the solution does not end, or does not meet every element once. -/
theorem adopt_spanning_iff (spanning : circuit.Spanning)
    (done : adopt owner children circuit = .ok () made) :
    (made.Spanning ↔ circuit.Outside owner children) ∧
      ((∃ listed, made.Descends (made.children Circuit.solution) listed ∧
          listed.Perm (made.ids.erase Circuit.solution)) ↔ circuit.Outside owner children) := by
  rcases adopt_cases circuit owner children with ⟨_, stopped⟩ | ⟨known, moved | stopped⟩
  · rw [stopped] at done
    contradiction
  · obtain ⟨exist, adopted⟩ := moved
    rw [adopted] at done
    cases done
    have root : Circuit.solution < (circuit.moveChildren owner children).size := by
      rw [Circuit.size_moveChildren]
      exact spanning.root
    have coupled := spanning.coupled.moveChildren known exist
    have kept : (circuit.moveChildren owner children).Spanning ↔
        circuit.Outside owner children := by
      refine ⟨fun later => ?_, spanning.moveChildren exist known⟩
      by_contra inside
      obtain ⟨levels, around⟩ := Circuit.exists_loop_of_moveChildren exist inside
      exact later.no_loop around
    exact ⟨kept, (coupled.spanning_iff root).symm.trans kept⟩
  · obtain ⟨missing, stopped⟩ := stopped
    rw [stopped] at done
    contradiction

theorem rehomed_spanning : ∃ circuit made, (Circuit.empty "plant").afterCalls halls = circuit ∧
    circuit.Spanning ∧ adopt 2 [3] circuit = .ok () made ∧ made.Spanning ∧
    ∃ listed, made.Descends (made.children Circuit.solution) listed ∧
      listed.Perm (made.ids.erase Circuit.solution) := by
  have building : ∀ call ∈ halls, call.isBuilding := by decide
  have spanning := (sound_afterBuilding "plant" building).spanning
  obtain ⟨made, done⟩ : ∃ made, adopt 2 [3] ((Circuit.empty "plant").afterCalls halls) =
      .ok () made := ⟨_, rfl⟩
  have told := adopt_spanning_iff spanning done
  have outside : ((Circuit.empty "plant").afterCalls halls).Outside 2 [3] := by
    intro child member levels reached
    rw [List.mem_singleton.mp member] at reached
    match levels with
    | 0 => cases reached
    | 1 => cases reached
    | levels + 2 => cases reached
  exact ⟨_, made, rfl, spanning, done, told.1.mpr outside, told.2.mpr outside⟩

theorem selfish_not_spanning : ∃ circuit made,
    (Circuit.empty "plant").afterCalls [.addProject "cell"] = circuit ∧ circuit.Spanning ∧
    adopt 1 [1] circuit = .ok () made ∧ made.descendants Circuit.solution = [] ∧
    ¬made.Spanning := by
  have building : ∀ call ∈ [Call.addProject "cell"], call.isBuilding := by decide
  refine ⟨_, _, rfl, (sound_afterBuilding "plant" building).spanning, rfl, rfl, fun later => ?_⟩
  have around : Circuit.above _ (0 + 1) 1 ≠ some 1 := later.no_loop
  exact around rfl

end Build

end RelayLogic
