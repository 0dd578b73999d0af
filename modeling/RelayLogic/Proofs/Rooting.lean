import RelayLogic.Proofs.Altering
import RelayLogic.Proofs.Descending
import RelayLogic.Proofs.Layout

/-!
The tree of elements under building calls. Pins may be taken from their owners, be given twice and
be refused; the elements stay a tree below the solution, and a descent through it ends.
-/

namespace RelayLogic

theorem Kind.Carries.rank_lt {owner kind : Kind} (carries : owner.Carries Rules.any kind) :
    owner.rank < kind.rank := by
  have container : owner.isContainer → owner.rank ≤ 2 := by
    cases owner <;> simp [isContainer, rank]
  cases kind with
  | solution => exact carries.elim
  | project | tag _ _ =>
      rw [show owner = .solution from carries]
      exact Nat.lt_add_one _
  | context =>
      rw [show owner = .project from carries]
      exact Nat.lt_add_one _
  | pin _ =>
      rcases carries with isSignal | isLogic | contains
      · cases owner <;> first | contradiction | exact Nat.lt_add_one _
      · cases owner <;> first | contradiction | exact Nat.lt_add_one _
      · exact Nat.lt_of_le_of_lt (container contains) (Nat.lt_of_sub_eq_succ rfl)
  | memory _ => exact Nat.lt_succ_of_le (container carries.1)
  | _ => exact Nat.lt_succ_of_le (container carries)

namespace Circuit

variable {circuit : Circuit}

/-- What a descent lists that takes an element from its stack and puts the children there, until
the stack is empty. -/
inductive Descends (circuit : Circuit) : List ElementId → List ElementId → Prop
  | done : Descends circuit [] []
  | step {id stack listed} (onward : Descends circuit (circuit.children id ++ stack) listed) :
      Descends circuit (id :: stack) (id :: listed)

theorem Descends.unique {stack first second : List ElementId}
    (one : circuit.Descends stack first) (other : circuit.Descends stack second) :
    first = second := by
  induction one generalizing second with
  | done =>
      cases other
      rfl
  | step _ ih =>
      cases other with
      | step onward => rw [ih onward]

theorem descends_below {depth : Nat} {stack later listed : List ElementId}
    (few : ∀ top ∈ stack, ∀ id levels, circuit.above levels id = some top → levels ≤ depth)
    (children : ∀ owner child, child ∈ circuit.children owner → circuit.above 1 child = some owner)
    (onward : circuit.Descends later listed) :
    circuit.Descends (stack ++ later)
      (stack.flatMap (fun top => top :: circuit.below depth top) ++ listed) := by
  -- The stack inside, so that what is below its first element comes before the rest of it.
  induction depth generalizing stack later listed with
  | zero =>
      induction stack with
      | nil => exact onward
      | cons top stack ih =>
          have none : circuit.children top = [] := by
            refine List.eq_nil_iff_forall_not_mem.mpr fun child member => ?_
            have le := few top List.mem_cons_self child 1 (children top child member)
            omega
          rw [List.flatMap_cons, below, List.cons_append, List.cons_append]
          refine .step ?_
          rw [none]
          exact ih fun other member => few other (List.mem_cons_of_mem _ member)
  | succ depth deeper =>
      induction stack with
      | nil => exact onward
      | cons top stack ih =>
          have rest := ih fun other member => few other (List.mem_cons_of_mem _ member)
          have under : ∀ child ∈ circuit.children top, ∀ id levels,
              circuit.above levels id = some child → levels ≤ depth := by
            intro child member id levels reached
            have longer := (above_add reached).trans (children top child member)
            have le := few top List.mem_cons_self id (levels + 1) longer
            omega
          rw [List.flatMap_cons, below, List.cons_append, List.cons_append, List.cons_append,
            List.append_assoc]
          exact .step (deeper under rest)

theorem Spanning.descends (spanning : circuit.Spanning) :
    circuit.Descends (circuit.children solution) (circuit.descendants solution) := by
  obtain ⟨depth, size⟩ := Nat.exists_eq_succ_of_ne_zero (Nat.ne_of_gt spanning.root)
  have few : ∀ top ∈ circuit.children solution, ∀ id levels,
      circuit.above levels id = some top → levels ≤ depth := by
    intro top member id levels reached
    have longer := (above_add reached).trans (spanning.above_one member)
    have less := spanning.levels_lt longer
    omega
  have all := descends_below few (fun _ _ member => spanning.above_one member) .done
  rw [List.append_nil, List.append_nil] at all
  rw [descendants, size]
  exact all

def Wired (circuit : Circuit) : Prop :=
  ∀ id wire, circuit.kind? id = some (.wire wire) →
    circuit.isPin wire.start ∧ circuit.isPin wire.stop ∧ wire.start ≠ wire.stop

theorem Wired.change {made : Circuit} (wired : circuit.Wired)
    (pins : ∀ pin, circuit.isPin pin → made.isPin pin)
    (wires : ∀ id wire, made.kind? id = some (.wire wire) → circuit.kind? id = some (.wire wire) ∨
      circuit.isPin wire.start ∧ circuit.isPin wire.stop ∧ wire.start ≠ wire.stop) :
    made.Wired := by
  intro id wire isWire
  have ends : circuit.isPin wire.start ∧ circuit.isPin wire.stop ∧ wire.start ≠ wire.stop :=
    (wires id wire isWire).elim (wired id wire) fun ends => ends
  exact ⟨pins _ ends.1, pins _ ends.2.1, ends.2.2⟩

theorem Wired.congr {made : Circuit} (wired : circuit.Wired)
    (kinds : ∀ id, made.kind? id = circuit.kind? id) : made.Wired := by
  refine wired.change (fun pin isPin => ?_) fun id wire isWire => Or.inl (kinds id ▸ isWire)
  rwa [isPin_eq, kinds, ← isPin_eq]

theorem Wired.update {id : ElementId} {kind : Kind} (wired : circuit.Wired)
    (notWire : ∀ wire, kind ≠ .wire wire) (pins : ∀ pin, circuit.isPin pin →
      (circuit.update id fun element => { element with kind := kind }).isPin pin) :
    (circuit.update id fun element => { element with kind := kind }).Wired := by
  refine wired.change pins fun other wire isWire => ?_
  rw [kind?_update] at isWire
  split at isWire
  · obtain ⟨_, _, same⟩ := Option.map_eq_some_iff.mp isWire
    exact absurd same (notWire wire)
  · exact Or.inl isWire

theorem wired_guarded : Build.Guarded Wired where
  push circuit owner name kind _ _ joins wired := by
    refine wired.change (fun pin isPin => ?_) fun id wire isWire => ?_
    · obtain ⟨_, _, held, _⟩ := isPin_held isPin
      rwa [isPin_eq, kind?_push, if_neg (Nat.ne_of_lt (get?_lt held)), ← isPin_eq]
    · rw [kind?_push] at isWire
      split at isWire
      · exact Or.inr (joins wire (Option.some.inj isWire))
      · exact Or.inl isWire
  move circuit owner child _ _ wired := wired.congr (kind?_moveChild circuit owner child)
  fix circuit id direction _ _ wired :=
    wired.update nofun fun _ isPin => isPin_fixPin isPin id direction
  retag circuit signal tag isSignal wired :=
    wired.update nofun fun _ isPin => isPin_retag isSignal isPin tag
  label circuit id block wired := wired.congr fun other => kind?_label circuit id other block

theorem wired_empty (name : String) : (empty name).Wired := by
  intro id wire isWire
  obtain ⟨element, held, same⟩ := kind?_eq_some.mp isWire
  have first : id = 0 := Nat.lt_one_iff.mp (get?_lt held)
  subst first
  cases held
  contradiction

structure Rooted (circuit : Circuit) : Prop where
  arena : ∀ id, id ∈ circuit.ids ↔ ∃ element, circuit.get? id = some element
  top : circuit.owner solution = none
  owned : ∀ id ∈ circuit.ids, id ≠ solution → ∃ owner ∈ circuit.ids,
    circuit.owner id = some owner ∧ (circuit.children owner).count id = 1 ∧
      ∀ other, other ≠ owner → id ∉ circuit.children other
  reaches : ∀ id ∈ circuit.ids, ∃ levels, circuit.above levels id = some solution
  wires : circuit.Wired
  descends : circuit.Descends (circuit.children solution) (circuit.descendants solution)
  descendants : (circuit.descendants solution).Perm (circuit.ids.erase solution)

theorem mem_ids_iff {id : ElementId} :
    id ∈ circuit.ids ↔ ∃ element, circuit.get? id = some element :=
  List.mem_range.trans ⟨exists_get?, fun ⟨_, held⟩ => get?_lt held⟩

theorem Spanning.rooted (spanning : circuit.Spanning) (wired : circuit.Wired) :
    circuit.Rooted where
  arena _ := mem_ids_iff
  top := spanning.top
  owned id member notRoot := by
    obtain ⟨levels, reached⟩ := spanning.reaches id (List.mem_range.mp member)
    cases levels with
    | zero => exact absurd (Option.some.inj reached) notRoot
    | succ levels =>
        obtain ⟨owner, owned, onward⟩ := Option.bind_eq_some_iff.mp reached
        refine ⟨owner, List.mem_range.mpr (spanning.lt_of_above onward), owned, ?_, ?_⟩
        · rw [spanning.listed, if_pos owned]
        · intro other different listed
          rw [spanning.mem_children, owned] at listed
          exact different (Option.some.inj listed).symm
  reaches id member := spanning.reaches id (List.mem_range.mp member)
  wires := wired
  descends := spanning.descends
  descendants := spanning.descendants_perm

theorem Sound.spanning (sound : circuit.Sound Rules.any) : circuit.Spanning :=
  sound.tree.spanning fun _ bound => by
    obtain ⟨element, held⟩ := exists_get? bound
    exact sound.tree.reach_of_rank (fun _ _ carries => carries.rank_lt) held

theorem wired_afterCalls (name : String) (calls : List Call) :
    ((empty name).afterCalls calls).Wired :=
  wired_guarded.afterCalls (wired_empty name) calls

/-- Whatever building calls are made, with whatever arguments, the elements stay a tree below the
solution. -/
theorem rooted_afterCalls (name : String) {calls : List Call}
    (building : ∀ call ∈ calls, call.isBuilding) : ((empty name).afterCalls calls).Rooted :=
  (Build.sound_afterBuilding name building).spanning.rooted (wired_afterCalls name calls)

def poached : List Call :=
  [.addProject "cell", .addContext 1 "line", .addGate 2 .and "hold", .addTag "lamp" .unknown,
    .signalFromPins 2 "lamp" (some 8) 3 3, .addContext 7 "no project",
    .logicFromPins 2 (.gate .or) "poacher" 4 5 4 6, .addWire 2 3 3 false false,
    .addSignal 2 "no tag" (some 2), .addWire 2 3 6 true false, .bindTag 9 8, .setBlock 20 ⟨"no", 1⟩]

theorem poached_rooted :
    (∀ call ∈ poached, call.isBuilding) ∧ ((empty "bench").afterCalls poached).Rooted := by
  have building : ∀ call ∈ poached, call.isBuilding := by decide
  exact ⟨building, rooted_afterCalls "bench" building⟩

end Circuit

end RelayLogic
