import RelayLogic.Proofs.Interleaving
import Mathlib.Data.Set.Finite.Basic

/-!
Schedules are exact. The depth-first search, made in single steps with a stack and a mark for each
node, ends with the schedule, which puts every included node in order once. The dependencies that
it counts are those that it cannot place before the node that names them, and there are none of
these just in case no node needs itself.
-/

namespace RelayLogic.Dependencies

inductive Mark
  | new
  | active
  | done
  deriving DecidableEq, Repr

structure Search where
  roots : List Nat
  /-- The nodes that were entered and not left, the last one first, each with the index of the next
  of its dependencies. -/
  stack : List (Nat × Nat)
  marks : Array Mark
  schedule : Schedule
  deriving DecidableEq, Repr

variable {dependencies : Dependencies}

def next (dependencies : Dependencies) : Search → Option Search
  | ⟨[], [], _, _⟩ => none
  | ⟨root :: roots, [], marks, schedule⟩ =>
    if dependencies.includes root && marks[root]? == some .new then
      some ⟨roots, [(root, 0)], marks.setIfInBounds root .active, schedule⟩
    else some ⟨roots, [], marks, schedule⟩
  | ⟨roots, (node, index) :: stack, marks, schedule⟩ =>
    match (dependencies.table.getD node [])[index]? with
    | none =>
      let order := schedule.order ++ [node]
      some ⟨roots, stack, marks.setIfInBounds node .done, { schedule with order := order }⟩
    | some dependency =>
      let stack := (node, index + 1) :: stack
      if dependencies.includes dependency then
        match marks[dependency]? with
        | some .new =>
          some ⟨roots, (dependency, 0) :: stack, marks.setIfInBounds dependency .active, schedule⟩
        | some .active =>
          some ⟨roots, stack, marks, { schedule with cycles := schedule.cycles + 1 }⟩
        | _ => some ⟨roots, stack, marks, schedule⟩
      else some ⟨roots, stack, marks, schedule⟩

def start (dependencies : Dependencies) : Search :=
  ⟨List.range dependencies.table.size, [], Array.replicate dependencies.table.size .new, ⟨[], 0⟩⟩

inductive Ends (dependencies : Dependencies) : Search → Schedule → Prop
  | done {search} (none : dependencies.next search = none) : Ends dependencies search search.schedule
  | step {search later final} (one : dependencies.next search = some later)
      (rest : Ends dependencies later final) : Ends dependencies search final

def entries (dependencies : Dependencies) : List (Nat × Nat) :=
  ((List.range dependencies.table.size).filter dependencies.includes).flatMap fun node =>
    (dependencies.of node).map (node, ·)

/-- Whether an included node needs another one, through other included nodes or not. -/
def Needs (dependencies : Dependencies) : Nat → Nat → Prop :=
  Relation.TransGen fun node dependency => (node, dependency) ∈ dependencies.entries

def Acyclic (dependencies : Dependencies) : Prop :=
  ∀ node, ¬dependencies.Needs node node

structure Exact (dependencies : Dependencies) (schedule : Schedule) : Prop where
  ends : dependencies.Ends dependencies.start schedule
  once : ∀ node, schedule.order.count node = if dependencies.includes node then 1 else 0
  counted : schedule.cycles = dependencies.entries.countP fun (node, dependency) =>
    ¬schedule.order.idxOf dependency < schedule.order.idxOf node
  acyclic : schedule.cycles = 0 ↔ dependencies.Acyclic
  sorted : dependencies.Acyclic → ∀ node dependency, (node, dependency) ∈ dependencies.entries →
    schedule.order.idxOf dependency < schedule.order.idxOf node

def markOf (path order : List Nat) (node : Nat) : Mark :=
  if node ∈ order then .done else if node ∈ path then .active else .new

def marksOf (dependencies : Dependencies) (path order : List Nat) : Array Mark :=
  (Array.range dependencies.table.size).map (markOf path order)

theorem getElem?_marksOf {node : Nat} (included : dependencies.includes node)
    (path order : List Nat) :
    (dependencies.marksOf path order)[node]? = some (markOf path order node) := by
  simp [marksOf, includes_lt included]

theorem marksOf_nil (dependencies : Dependencies) :
    dependencies.marksOf [] [] = Array.replicate dependencies.table.size .new := by
  apply Array.ext <;> simp [marksOf, markOf]

theorem setIfInBounds_marksOf {node : Nat} {mark : Mark} {path more order whole : List Nat}
    (self : markOf more whole node = mark)
    (others : ∀ other, other ≠ node → markOf more whole other = markOf path order other) :
    (dependencies.marksOf path order).setIfInBounds node mark =
      dependencies.marksOf more whole := by
  apply Array.ext
  · simp [marksOf]
  · intro other bound _
    by_cases same : node = other
    · subst same
      simp [marksOf, self]
    · rw [Array.getElem_setIfInBounds_ne (by simpa using bound) same]
      simp [marksOf, others other (Ne.symm same)]

theorem marksOf_enter {path order : List Nat} {node : Nat} (fresh : node ∉ order) :
    (dependencies.marksOf path order).setIfInBounds node .active =
      dependencies.marksOf (node :: path) order := by
  refine setIfInBounds_marksOf (by simp [markOf, fresh]) fun other different => ?_
  simp only [markOf, List.mem_cons, different, false_or]

theorem marksOf_leave {path order : List Nat} {node : Nat} :
    (dependencies.marksOf (node :: path) order).setIfInBounds node .done =
      dependencies.marksOf path (order ++ [node]) := by
  refine setIfInBounds_marksOf (by simp [markOf]) fun other different => ?_
  simp only [markOf, List.mem_append, List.mem_cons, different, false_or, List.not_mem_nil,
    or_false]

/-- What single steps make of a node that was entered, with given fuel for the visit of it. -/
def VisitEnds (dependencies : Dependencies) (fuel : Nat) : Prop :=
  ∀ (path : List Nat) (schedule : Schedule) (node pending : Nat),
    dependencies.table.size ≤ fuel + path.length →
    (node :: path).Nodup → (∀ other ∈ node :: path, dependencies.includes other) →
    (∀ other ∈ node :: path, other ∉ schedule.order) → dependencies.Placed pending schedule →
    ∀ (roots : List Nat) (stack : List (Nat × Nat)) (final : Schedule),
      let visited := dependencies.visit fuel path schedule node
      dependencies.Ends ⟨roots, stack, dependencies.marksOf path visited.order, visited⟩ final →
        dependencies.Ends ⟨roots, (node, 0) :: stack,
          dependencies.marksOf (node :: path) schedule.order, schedule⟩ final

theorem ends_follow {fuel node : Nat} {path : List Nat} (ends : dependencies.VisitEnds fuel)
    (enough : dependencies.table.size ≤ fuel + (node :: path).length)
    (unique : (node :: path).Nodup) (inside : ∀ other ∈ node :: path, dependencies.includes other)
    {roots : List Nat} {stack : List (Nat × Nat)} {visited final : Schedule}
    (later : dependencies.Ends ⟨roots, stack, dependencies.marksOf path (visited.order ++ [node]),
      { visited with order := visited.order ++ [node] }⟩ final) :
    ∀ (list : List Nat) (index : Nat) (schedule : Schedule) (pending : Nat),
      (dependencies.table.getD node []).drop index = list →
      (∀ other ∈ node :: path, other ∉ schedule.order) → dependencies.Placed pending schedule →
      (list.filter dependencies.includes).foldl (dependencies.follow fuel (node :: path)) schedule =
        visited →
      dependencies.Ends ⟨roots, (node, index) :: stack,
        dependencies.marksOf (node :: path) schedule.order, schedule⟩ final := by
  intro list
  induction list with
  | nil =>
      intro index schedule pending rest waiting placed followed
      subst followed
      have none : (dependencies.table.getD node [])[index]? = none :=
        List.getElem?_eq_none (List.drop_eq_nil_iff.mp rest)
      refine .step ?_ later
      simp only [next, none, marksOf_leave]
      rfl
  | cons dependency list ih =>
      intro index schedule pending rest waiting placed followed
      have one : (dependencies.table.getD node [])[index]? = some dependency := by
        rw [← List.head?_drop, rest, List.head?_cons]
      have more : (dependencies.table.getD node []).drop (index + 1) = list := by
        rw [← List.tail_drop, rest, List.tail_cons]
      by_cases included : dependencies.includes dependency
      · rw [List.filter_cons_of_pos included, List.foldl_cons] at followed
        obtain ⟨step, _⟩ := follow_extends (visit_extends fuel) enough unique inside included
          waiting placed
        have onward := ih (index + 1) _ _ more step.waiting step.placed followed
        have mark := getElem?_marksOf included (node :: path) schedule.order
        by_cases onPath : dependency ∈ node :: path
        · have isActive : markOf (node :: path) schedule.order dependency = .active := by
            simp only [markOf, waiting dependency onPath, onPath, ↓reduceIte]
          rw [isActive] at mark
          rw [follow, if_pos onPath] at onward
          exact .step (by simp only [next, one, included, mark, ↓reduceIte]) onward
        · rw [follow, if_neg onPath] at onward
          by_cases isDone : dependency ∈ schedule.order
          · have isMarked : markOf (node :: path) schedule.order dependency = .done := by
              simp only [markOf, isDone, ↓reduceIte]
            rw [isMarked] at mark
            rw [if_pos isDone] at onward
            exact .step (by simp only [next, one, included, mark, ↓reduceIte]) onward
          · have isNew : markOf (node :: path) schedule.order dependency = .new := by
              simp only [markOf, isDone, onPath, ↓reduceIte]
            rw [isNew] at mark
            rw [if_neg isDone] at onward
            have entered := ends (node :: path) schedule dependency pending enough
              (List.nodup_cons.mpr ⟨onPath, unique⟩) (List.forall_mem_cons.mpr ⟨included, inside⟩)
              (List.forall_mem_cons.mpr ⟨isDone, waiting⟩) placed roots _ final onward
            rw [← marksOf_enter isDone] at entered
            exact .step (by simp only [next, one, included, mark, ↓reduceIte]) entered
      · rw [List.filter_cons_of_neg included] at followed
        refine .step ?_ (ih (index + 1) schedule pending more waiting placed followed)
        simp only [next, one, included, Bool.false_eq_true, ↓reduceIte]

theorem visit_ends (fuel : Nat) : dependencies.VisitEnds fuel := by
  induction fuel with
  | zero =>
      intro path schedule node pending enough unique inside
      have bounded := length_le_of_included unique inside
      simp only [List.length_cons] at bounded
      omega
  | succ fuel ih =>
      intro path schedule node pending enough unique inside waiting placed roots stack final
        visited later
      have enough : dependencies.table.size ≤ fuel + (node :: path).length := by
        simp only [List.length_cons]
        omega
      exact ends_follow ih enough unique inside later _ 0 schedule pending rfl waiting placed rfl

theorem ends_place (roots : List Nat) (schedule : Schedule)
    (placed : dependencies.Placed 0 schedule) :
    dependencies.Ends ⟨roots, [], dependencies.marksOf [] schedule.order, schedule⟩
      ((roots.filter dependencies.includes).foldl dependencies.place schedule) := by
  induction roots generalizing schedule with
  | nil => exact .done rfl
  | cons root roots ih =>
      by_cases included : dependencies.includes root
      · rw [List.filter_cons_of_pos included, List.foldl_cons]
        have mark := getElem?_marksOf included [] schedule.order
        obtain ⟨step, _⟩ := foldl_visit_placed [root] (by simpa using included) schedule placed
        have onward := ih (dependencies.place schedule root) step.placed
        by_cases isDone : root ∈ schedule.order
        · have isMarked : markOf [] schedule.order root = .done := by
            simp only [markOf, isDone, ↓reduceIte]
          rw [isMarked] at mark
          rw [place, if_pos isDone] at onward ⊢
          exact .step (by simp [next, mark]) onward
        · have isNew : markOf [] schedule.order root = .new := by
            simp only [markOf, isDone, List.not_mem_nil, ↓reduceIte]
          rw [isNew] at mark
          rw [place, if_neg isDone] at onward ⊢
          have entered := visit_ends _ [] schedule root 0 (by simp) (by simp)
            (by simpa using included) (by simpa using isDone) placed roots [] _ onward
          rw [← marksOf_enter isDone] at entered
          exact .step (by simp [next, included, mark]) entered
      · rw [List.filter_cons_of_neg included]
        refine .step ?_ (ih schedule placed)
        simp only [next, included, Bool.false_and, Bool.false_eq_true, ↓reduceIte]

theorem ends_schedule (dependencies : Dependencies) :
    dependencies.Ends dependencies.start dependencies.schedule := by
  rw [start, ← marksOf_nil]
  exact ends_place _ ⟨[], 0⟩ (placed_nil dependencies)

theorem mem_entries {node dependency : Nat} : (node, dependency) ∈ dependencies.entries ↔
    dependencies.includes node ∧ dependency ∈ dependencies.of node := by
  simp only [entries, List.mem_flatMap, List.mem_filter, List.mem_range, List.mem_map,
    Prod.mk.injEq]
  constructor
  · rintro ⟨_, ⟨_, included⟩, _, member, rfl, rfl⟩
    exact ⟨included, member⟩
  · rintro ⟨included, member⟩
    exact ⟨node, ⟨includes_lt included, included⟩, dependency, member, rfl, rfl⟩

theorem order_perm (dependencies : Dependencies) : dependencies.schedule.order.Perm
    ((List.range dependencies.table.size).filter dependencies.includes) := by
  obtain ⟨placed, members⟩ := dependencies.schedule_placed
  refine (List.perm_ext_iff_of_nodup placed.unique (List.nodup_range.filter _)).mpr fun node => ?_
  rw [members, List.mem_filter, List.mem_range]
  exact ⟨fun included => ⟨includes_lt included, included⟩, And.right⟩

theorem cycles_schedule (dependencies : Dependencies) : dependencies.schedule.cycles =
    dependencies.entries.countP fun (node, dependency) =>
      isLate dependencies.schedule.order node dependency := by
  rw [dependencies.schedule_placed.1.counted, Nat.zero_add, lateCount,
    (dependencies.order_perm.map _).sum_nat, entries, List.countP_flatMap]
  congr 1
  refine List.map_congr_left fun node _ => ?_
  rw [late, Function.comp, List.countP_map, List.countP_eq_length_filter]
  rfl

theorem Acyclic.wellFounded (acyclic : dependencies.Acyclic) :
    WellFounded fun dependency node : { node // dependencies.includes node } =>
      dependencies.Needs node.1 dependency.1 := by
  have finite : Finite { node // dependencies.includes node } :=
    (Set.finite_lt_nat dependencies.table.size).subset fun _ => includes_lt
  exact @Finite.wellFounded_of_trans_of_irrefl _ finite _
    ⟨fun _ _ _ first second => second.trans first⟩ ⟨fun node => acyclic node.1⟩

theorem Acyclic.not_loops (acyclic : dependencies.Acyclic) {node : Nat}
    (included : dependencies.includes node) : ¬dependencies.Loops node := by
  refine not_not.mpr ?_
  have ends : ∀ node : { node // dependencies.includes node },
      Acc (fun dependency node => dependency ∈ dependencies.of node) node.1 := by
    intro node
    induction node using acyclic.wellFounded.induction with
    | h node ih =>
        refine Acc.intro _ fun dependency member => ?_
        have direct : dependencies.Needs node.1 dependency :=
          .single (mem_entries.mpr ⟨node.2, member⟩)
        exact ih ⟨dependency, includes_of_mem_of member⟩ direct
  exact ends ⟨node, included⟩

theorem Acyclic.early (acyclic : dependencies.Acyclic) {node dependency : Nat}
    (entry : (node, dependency) ∈ dependencies.entries) :
    isLate dependencies.schedule.order node dependency = false := by
  obtain ⟨included, member⟩ := mem_entries.mp entry
  have scheduled := (dependencies.schedule_placed.2 node).mpr included
  have tidy := tidy_early dependencies dependencies.table.size node scheduled dependency member
  exact tidy.resolve_right fun late => acyclic.not_loops (includes_of_mem_of member) late.1

theorem acyclic_of_early (early : ∀ node dependency, (node, dependency) ∈ dependencies.entries →
    isLate dependencies.schedule.order node dependency = false) : dependencies.Acyclic := by
  intro node loop
  have before : ∀ other, dependencies.Needs node other →
      dependencies.schedule.order.idxOf other < dependencies.schedule.order.idxOf node := by
    intro other needs
    induction needs with
    | single entry => simpa [isLate] using early _ _ entry
    | tail _ entry ih =>
        have sooner := early _ _ entry
        simp only [isLate, decide_eq_false_iff_not, Nat.not_le] at sooner
        omega
  exact Nat.lt_irrefl _ (before node loop)

/-- The schedule of any nodes, whatever they name as their dependencies. -/
theorem schedule_exact (dependencies : Dependencies) :
    dependencies.Exact dependencies.schedule where
  ends := dependencies.ends_schedule
  once node := by
    obtain ⟨placed, members⟩ := dependencies.schedule_placed
    simp only [placed.unique.count, members]
  counted := by
    simpa [isLate] using dependencies.cycles_schedule
  acyclic := by
    rw [cycles_schedule, List.countP_eq_zero]
    constructor
    · exact fun none => acyclic_of_early fun node dependency entry => by
        simpa using none (node, dependency) entry
    · intro acyclic entry member
      simp [acyclic.early member]
  sorted acyclic node dependency entry := by
    simpa [isLate] using acyclic.early entry

end RelayLogic.Dependencies
