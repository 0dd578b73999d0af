import RelayLogic.Wiring.Reach
import Mathlib.Data.List.Induction
import Mathlib.Data.List.Nodup
import Mathlib.Data.List.Perm.Subperm

/-!
Walks find what they should: each pin that a way through passing pins leads to, and each once. The
rounds of a walk are as many as the pins that it takes off its stack, all of which but the root are
at the end of some link.
-/

namespace RelayLogic.Adjacency

/-- A way along links from a root through pins that let it pass, with its parity of inversions. -/
inductive Way (adjacency : Adjacency) (passes : ElementId → Bool) (root : ElementId) :
    ElementId → Bool → Prop
  | first {next} (link : (root, next) ∈ adjacency.links) :
      Way adjacency passes root next.pin next.inverted
  | onward {here inverted next} (way : Way adjacency passes root here inverted)
      (through : passes here) (link : (here, next) ∈ adjacency.links) :
      Way adjacency passes root next.pin (inverted ^^ next.inverted)

variable {adjacency : Adjacency} {passes : ElementId → Bool} {root : ElementId}

theorem mem_neighbours {here : ElementId} {next : Connection} :
    next ∈ adjacency.neighbours here ↔ (here, next) ∈ adjacency.links := by
  simp only [neighbours, List.mem_map, List.mem_filter, beq_iff_eq, Prod.exists]
  constructor
  · rintro ⟨_, _, ⟨link, rfl⟩, rfl⟩
    exact link
  · intro link
    exact ⟨here, next, ⟨link, rfl⟩, rfl⟩

structure Fresh (root : ElementId) (found : List Connection) (here : Connection)
    (links : List Connection) (fresh : List Connection) : Prop where
  unique : (fresh.map (·.pin)).Nodup
  new : ∀ connection ∈ fresh, connection.pin ≠ root ∧ connection.pin ∉ found.map (·.pin)
  linked : ∀ connection ∈ fresh, ∃ next ∈ links,
    connection = ⟨next.pin, here.inverted ^^ next.inverted⟩
  covers : ∀ next ∈ links, next.pin = root ∨ next.pin ∈ (found ++ fresh).map (·.pin)

theorem fresh_spec (adjacency : Adjacency) (root : ElementId) (found : List Connection)
    (here : Connection) :
    Fresh root found here (adjacency.neighbours here.pin) (adjacency.fresh root found here) := by
  unfold fresh
  generalize adjacency.neighbours here.pin = links
  induction links using List.reverseRecOn with
  | nil => exact ⟨by simp, by simp, by simp, by simp⟩
  | append_singleton links next ih =>
      rw [List.foldl_append]
      generalize links.foldl _ _ = fresh at ih
      simp only [List.foldl_cons, List.foldl_nil]
      split
      next known =>
        simp only [Bool.or_eq_true, decide_eq_true_eq, List.any_eq_true, beq_iff_eq] at known
        refine ⟨ih.unique, ih.new, ?_, ?_⟩
        · intro connection member
          obtain ⟨link, linked, equal⟩ := ih.linked connection member
          exact ⟨link, List.mem_append_left _ linked, equal⟩
        · intro link member
          rcases List.mem_append.mp member with before | last
          · exact ih.covers link before
          · rw [List.mem_singleton.mp last]
            rcases known with isRoot | ⟨connection, member, equal⟩
            · exact Or.inl isRoot
            · exact Or.inr (List.mem_map.mpr ⟨connection, member, equal⟩)
      next unknown =>
        simp only [Bool.or_eq_true, decide_eq_true_eq, List.any_eq_true, beq_iff_eq, not_or,
          not_exists, not_and] at unknown
        obtain ⟨notRoot, absent⟩ := unknown
        refine ⟨?_, ?_, ?_, ?_⟩
        · rw [List.map_append, List.map_singleton]
          refine List.nodup_append.mpr ⟨ih.unique, List.nodup_singleton _, ?_⟩
          rintro pin old other last rfl
          obtain ⟨connection, member, equal⟩ := List.mem_map.mp old
          exact absent connection (List.mem_append_right _ member)
            (equal.trans (List.mem_singleton.mp last))
        · intro connection member
          rcases List.mem_append.mp member with old | last
          · exact ih.new connection old
          · rw [List.mem_singleton.mp last]
            refine ⟨notRoot, fun old => ?_⟩
            obtain ⟨connection, member, equal⟩ := List.mem_map.mp old
            exact absent connection (List.mem_append_left _ member) equal
        · intro connection member
          rcases List.mem_append.mp member with old | last
          · obtain ⟨link, linked, equal⟩ := ih.linked connection old
            exact ⟨link, List.mem_append_left _ linked, equal⟩
          · exact ⟨next, by simp, List.mem_singleton.mp last⟩
        · intro link member
          rw [← List.append_assoc, List.map_append, List.mem_append]
          rcases List.mem_append.mp member with before | last
          · exact (ih.covers link before).imp_right Or.inl
          · rw [List.mem_singleton.mp last]
            exact Or.inr (Or.inr (by simp))

/-- A walk with the pins that it took off its stack. -/
structure Walking (adjacency : Adjacency) (passes : ElementId → Bool) (root : ElementId)
    (done : List ElementId) (stack found : List Connection) : Prop where
  sound : ∀ connection ∈ found, Way adjacency passes root connection.pin connection.inverted
  unique : (found.map (·.pin)).Nodup
  notRoot : root ∉ found.map (·.pin)
  linked : ∀ connection ∈ found, connection.pin ∈ adjacency.links.map (·.2.pin)
  once : (done ++ stack.map (·.pin)).Nodup
  pending : ∀ here ∈ stack, here = ⟨root, false⟩ ∨ here ∈ found ∧ passes here.pin
  taken : ∀ pin ∈ done, pin = root ∨ pin ∈ found.map (·.pin)
  closed : ∀ pin ∈ done, ∀ next, (pin, next) ∈ adjacency.links →
    next.pin = root ∨ next.pin ∈ found.map (·.pin)
  start : root ∈ done ++ stack.map (·.pin)
  covers : ∀ connection ∈ found, passes connection.pin →
    connection.pin ∈ done ++ stack.map (·.pin)

theorem walking_start (adjacency : Adjacency) (passes : ElementId → Bool) (root : ElementId) :
    Walking adjacency passes root [] [⟨root, false⟩] [] :=
  ⟨by simp, by simp, by simp, by simp, by simp, by simp, by simp, by simp, by simp, by simp⟩

namespace Walking

variable {done : List ElementId} {here : Connection} {stack found : List Connection}

theorem known (walking : Walking adjacency passes root done stack found) {pin : ElementId}
    (member : pin ∈ done ++ stack.map (·.pin)) : pin = root ∨ pin ∈ found.map (·.pin) := by
  rcases List.mem_append.mp member with old | waiting
  · exact walking.taken pin old
  · obtain ⟨here, onStack, rfl⟩ := List.mem_map.mp waiting
    rcases walking.pending here onStack with equal | ⟨inFound, _⟩
    · exact Or.inl (congrArg Connection.pin equal)
    · exact Or.inr (List.mem_map_of_mem inFound)

theorem round (walking : Walking adjacency passes root done (here :: stack) found) :
    Walking adjacency passes root (done ++ [here.pin])
      (((adjacency.fresh root found here).filter (passes ·.pin)).reverse ++ stack)
      (found ++ adjacency.fresh root found here) := by
  have spec := fresh_spec adjacency root found here
  generalize adjacency.fresh root found here = fresh at spec
  have order : (done ++ [here.pin] ++
      ((fresh.filter (passes ·.pin)).reverse ++ stack).map (·.pin)).Perm
      ((fresh.filter (passes ·.pin)).map (·.pin) ++ (done ++ (here :: stack).map (·.pin))) := by
    rw [List.perm_iff_count]
    intro pin
    simp only [List.count_append, List.map_append, List.map_reverse, List.count_reverse,
      List.map_cons, List.count_cons, List.count_nil]
    omega
  constructor
  case sound =>
    intro connection member
    rcases List.mem_append.mp member with old | new
    · exact walking.sound connection old
    · obtain ⟨next, link, rfl⟩ := spec.linked connection new
      rw [mem_neighbours] at link
      rcases walking.pending here List.mem_cons_self with rfl | ⟨inFound, through⟩
      · simpa using Way.first link
      · exact (walking.sound here inFound).onward through link
  case unique =>
    rw [List.map_append]
    refine List.nodup_append.mpr ⟨walking.unique, spec.unique, ?_⟩
    rintro pin old _ new rfl
    obtain ⟨connection, member, rfl⟩ := List.mem_map.mp new
    exact (spec.new connection member).2 old
  case notRoot =>
    rw [List.map_append, List.mem_append, not_or]
    refine ⟨walking.notRoot, fun new => ?_⟩
    obtain ⟨connection, member, equal⟩ := List.mem_map.mp new
    exact (spec.new connection member).1 equal
  case linked =>
    intro connection member
    rcases List.mem_append.mp member with old | new
    · exact walking.linked connection old
    · obtain ⟨next, link, rfl⟩ := spec.linked connection new
      exact List.mem_map.mpr ⟨_, mem_neighbours.mp link, rfl⟩
  case once =>
    refine order.nodup_iff.mpr (List.nodup_append.mpr
      ⟨(spec.unique.sublist (List.filter_sublist.map _)), walking.once, ?_⟩)
    rintro pin new _ old rfl
    obtain ⟨connection, member, rfl⟩ := List.mem_map.mp new
    have isNew := spec.new connection (List.mem_filter.mp member).1
    rcases walking.known old with isRoot | inFound
    · exact isNew.1 isRoot
    · exact isNew.2 inFound
  case pending =>
    intro other member
    rcases List.mem_append.mp member with new | old
    · obtain ⟨inFresh, through⟩ := List.mem_filter.mp (List.mem_reverse.mp new)
      exact Or.inr ⟨List.mem_append_right _ inFresh, through⟩
    · exact (walking.pending other (List.mem_cons_of_mem _ old)).imp_right
        fun ⟨inFound, through⟩ => ⟨List.mem_append_left _ inFound, through⟩
  case taken =>
    intro pin member
    rw [List.map_append, List.mem_append, ← or_assoc]
    left
    apply walking.known
    rcases List.mem_append.mp member with old | last
    · exact List.mem_append_left _ old
    · rw [List.mem_singleton.mp last]
      exact List.mem_append_right _ List.mem_cons_self
  case closed =>
    intro pin member next link
    rcases List.mem_append.mp member with old | last
    · rw [List.map_append, List.mem_append, ← or_assoc]
      exact Or.inl (walking.closed pin old next link)
    · rw [List.mem_singleton.mp last] at link
      exact spec.covers next (mem_neighbours.mpr link)
  case start => exact order.mem_iff.mpr (List.mem_append_right _ walking.start)
  case covers =>
    intro connection member through
    rw [order.mem_iff]
    rcases List.mem_append.mp member with old | new
    · exact List.mem_append_right _ (walking.covers connection old through)
    · exact List.mem_append_left _
        (List.mem_map_of_mem (List.mem_filter.mpr ⟨new, through⟩))

theorem length_le (walking : Walking adjacency passes root done stack found) :
    done.length + stack.length ≤ adjacency.links.length + 1 := by
  have within : done ++ stack.map (·.pin) ⊆ root :: found.map (·.pin) := by
    intro pin member
    exact List.mem_cons.mpr (walking.known member)
  have linked : found.map (·.pin) ⊆ adjacency.links.map (·.2.pin) := by
    intro pin member
    obtain ⟨connection, inFound, rfl⟩ := List.mem_map.mp member
    exact walking.linked connection inFound
  have first := (walking.once.subperm within).length_le
  have second := (walking.unique.subperm linked).length_le
  simp only [List.length_append, List.length_map, List.length_cons] at first second
  omega

end Walking

theorem walkFrom_walking {done : List ElementId} {stack found : List Connection} {fuel : Nat}
    (walking : Walking adjacency passes root done stack found)
    (enough : adjacency.links.length + 1 ≤ done.length + fuel) :
    ∃ done, Walking adjacency passes root done []
      (adjacency.walkFrom passes root fuel stack found) := by
  induction fuel generalizing done stack found with
  | zero =>
      have bound := walking.length_le
      have empty : stack = [] := List.length_eq_zero_iff.mp (by omega)
      subst empty
      exact ⟨done, walking⟩
  | succ fuel ih =>
      cases stack with
      | nil => exact ⟨done, walking⟩
      | cons here stack =>
          apply ih walking.round
          simp only [List.length_append, List.length_cons, List.length_nil]
          omega

theorem walk_walking (adjacency : Adjacency) (passes : ElementId → Bool) (root : ElementId) :
    ∃ done, Walking adjacency passes root done [] (adjacency.walk passes root) :=
  walkFrom_walking (walking_start adjacency passes root) (by simp)

theorem walkFrom_more {done : List ElementId} {stack found : List Connection} {fuel : Nat}
    (walking : Walking adjacency passes root done stack found)
    (enough : adjacency.links.length + 1 ≤ done.length + fuel) (more : Nat) :
    adjacency.walkFrom passes root (fuel + more) stack found =
      adjacency.walkFrom passes root fuel stack found := by
  induction fuel generalizing done stack found with
  | zero =>
      have bound := walking.length_le
      have empty : stack = [] := List.length_eq_zero_iff.mp (by omega)
      subst empty
      cases 0 + more <;> rfl
  | succ fuel ih =>
      rw [Nat.add_right_comm]
      cases stack with
      | nil => rfl
      | cons here stack =>
          apply ih walking.round
          simp only [List.length_append, List.length_cons, List.length_nil]
          omega

theorem walk_more (adjacency : Adjacency) (passes : ElementId → Bool) (root : ElementId)
    (more : Nat) : adjacency.walkFrom passes root (adjacency.links.length + 1 + more)
      [⟨root, false⟩] [] = adjacency.walk passes root :=
  walkFrom_more (walking_start adjacency passes root) (by simp) more

theorem nodup_walk (adjacency : Adjacency) (passes : ElementId → Bool) (root : ElementId) :
    ((adjacency.walk passes root).map (·.pin)).Nodup := by
  obtain ⟨_, walking⟩ := walk_walking adjacency passes root
  exact walking.unique

theorem walk_sound {connection : Connection} (member : connection ∈ adjacency.walk passes root) :
    connection.pin ≠ root ∧ Way adjacency passes root connection.pin connection.inverted := by
  obtain ⟨_, walking⟩ := walk_walking adjacency passes root
  refine ⟨fun isRoot => walking.notRoot ?_, walking.sound connection member⟩
  exact List.mem_map.mpr ⟨connection, member, isRoot⟩

theorem walk_complete {pin : ElementId} {inverted : Bool}
    (way : Way adjacency passes root pin inverted) (different : pin ≠ root) :
    pin ∈ (adjacency.walk passes root).map (·.pin) := by
  obtain ⟨done, walking⟩ := walk_walking adjacency passes root
  have started : root ∈ done := by simpa using walking.start
  have found : pin = root ∨ pin ∈ (adjacency.walk passes root).map (·.pin) := by
    induction way with
    | first link => exact walking.closed root started _ link
    | @onward here _ next _ through link ih =>
        apply walking.closed here _ next link
        by_cases isRoot : here = root
        · exact isRoot ▸ started
        · obtain ⟨connection, member, rfl⟩ := List.mem_map.mp ((ih isRoot).resolve_left isRoot)
          simpa using walking.covers connection member through
  exact found.resolve_left different

theorem mem_walk_iff {pin : ElementId} :
    pin ∈ (adjacency.walk passes root).map (·.pin) ↔
      pin ≠ root ∧ ∃ inverted, Way adjacency passes root pin inverted := by
  constructor
  · intro member
    obtain ⟨connection, found, rfl⟩ := List.mem_map.mp member
    exact ⟨(walk_sound found).1, _, (walk_sound found).2⟩
  · rintro ⟨different, _, way⟩
    exact walk_complete way different

end RelayLogic.Adjacency
