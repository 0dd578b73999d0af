import RelayLogic.Schedule
import Mathlib.Algebra.GroupWithZero.Nat
import Mathlib.Data.List.Basic
import Mathlib.Data.List.Nodup
import Mathlib.Data.List.Perm.Subperm

/-!
What the depth-first search puts in order: every included node once, and no other. The
dependencies that it passes over are exactly those that it does not place before the node that
depends on them.
-/

namespace RelayLogic.Dependencies

variable {dependencies : Dependencies}

def isLate (order : List Nat) (node dependency : Nat) : Bool :=
  order.idxOf node ≤ order.idxOf dependency

def late (dependencies : Dependencies) (order : List Nat) (node : Nat) : List Nat :=
  (dependencies.of node).filter (isLate order node)

def lateCount (dependencies : Dependencies) (order : List Nat) : Nat :=
  (order.map fun node => (dependencies.late order node).length).sum

/-- A schedule of included nodes, whose count exceeds its late dependencies by `pending`. -/
structure Placed (dependencies : Dependencies) (pending : Nat) (schedule : Schedule) : Prop where
  unique : schedule.order.Nodup
  included : ∀ node ∈ schedule.order, dependencies.includes node
  counted : schedule.cycles = pending + dependencies.lateCount schedule.order

/-- What a part of the search makes of a schedule while the nodes on its path wait. -/
structure Extends (dependencies : Dependencies) (path : List Nat) (pending : Nat)
    (before after : Schedule) : Prop where
  placed : dependencies.Placed pending after
  grown : before.order ⊆ after.order
  waiting : ∀ node ∈ path, node ∉ after.order

theorem includes_lt {node : Nat} (included : dependencies.includes node) :
    node < dependencies.table.size := by
  simp only [includes, Bool.and_eq_true, decide_eq_true_eq] at included
  exact included.1

theorem length_le_of_included {path : List Nat} (unique : path.Nodup)
    (inside : ∀ node ∈ path, dependencies.includes node) :
    path.length ≤ dependencies.table.size := by
  have subset : path ⊆ List.range dependencies.table.size := fun node member =>
    List.mem_range.mpr (includes_lt (inside node member))
  simpa using (unique.subperm subset).length_le

theorem includes_of_mem_of {node dependency : Nat} (member : dependency ∈ dependencies.of node) :
    dependencies.includes dependency :=
  (List.mem_filter.mp member).2

theorem isLate_append {order : List Nat} {node : Nat} (member : node ∈ order)
    (more : List Nat) (dependency : Nat) :
    isLate (order ++ more) node dependency = isLate order node dependency := by
  have bound := List.idxOf_lt_length_of_mem member
  by_cases known : dependency ∈ order
  · simp [isLate, List.idxOf_append_of_mem member, List.idxOf_append_of_mem known]
  · have last := List.idxOf_eq_length known
    simp only [isLate, List.idxOf_append_of_mem member, List.idxOf_append_of_notMem known, last]
    simp only [decide_eq_decide]
    omega

theorem isLate_last {order : List Nat} {node : Nat} (fresh : node ∉ order) (dependency : Nat) :
    isLate (order ++ [node]) node dependency = decide (dependency ∉ order) := by
  simp only [isLate, List.idxOf_append_of_notMem fresh, List.idxOf_cons_self, Nat.add_zero]
  by_cases known : dependency ∈ order
  · have bound := List.idxOf_lt_length_of_mem known
    simp only [List.idxOf_append_of_mem known, known, not_true, decide_false,
      decide_eq_false_iff_not]
    omega
  · simp [List.idxOf_append_of_notMem known, known]

theorem lateCount_push {order : List Nat} {node : Nat} (fresh : node ∉ order) :
    dependencies.lateCount (order ++ [node]) =
      dependencies.lateCount order + (dependencies.of node).countP (· ∉ order) := by
  have old : order.map (fun other => (dependencies.late (order ++ [node]) other).length) =
      order.map fun other => (dependencies.late order other).length := by
    apply List.map_congr_left
    intro other member
    have same : isLate (order ++ [node]) other = isLate order other :=
      funext (isLate_append member [node])
    simp only [late, same]
  have last : (dependencies.late (order ++ [node]) node).length =
      (dependencies.of node).countP (· ∉ order) := by
    have same : isLate (order ++ [node]) node = fun dependency => decide (dependency ∉ order) :=
      funext (isLate_last fresh)
    simp only [late, same, List.countP_eq_length_filter]
  simp only [lateCount, List.map_append, List.sum_append, old, List.map_cons, List.map_nil,
    List.sum_cons, List.sum_nil, last, Nat.add_zero]

def follow (dependencies : Dependencies) (fuel : Nat) (path : List Nat) (schedule : Schedule)
    (dependency : Nat) : Schedule :=
  if dependency ∈ path then { schedule with cycles := schedule.cycles + 1 }
  else if dependency ∈ schedule.order then schedule
  else dependencies.visit fuel path schedule dependency

theorem visit_succ (fuel : Nat) (path : List Nat) (schedule : Schedule) (node : Nat) :
    dependencies.visit (fuel + 1) path schedule node =
      let visited := (dependencies.of node).foldl (dependencies.follow fuel (node :: path)) schedule
      { visited with order := visited.order ++ [node] } := rfl

/-- What a visit with given fuel achieves, whatever nodes wait for it. -/
def VisitPlaces (dependencies : Dependencies) (fuel : Nat) : Prop :=
  ∀ (path : List Nat) (schedule : Schedule) (node pending : Nat),
    dependencies.table.size ≤ fuel + path.length →
    (node :: path).Nodup → (∀ other ∈ node :: path, dependencies.includes other) →
    (∀ other ∈ node :: path, other ∉ schedule.order) → dependencies.Placed pending schedule →
      dependencies.Extends path pending schedule (dependencies.visit fuel path schedule node) ∧
        node ∈ (dependencies.visit fuel path schedule node).order

theorem follow_extends {fuel pending dependency : Nat} {path : List Nat} {schedule : Schedule}
    (visits : dependencies.VisitPlaces fuel)
    (enough : dependencies.table.size ≤ fuel + path.length)
    (unique : path.Nodup) (inside : ∀ other ∈ path, dependencies.includes other)
    (included : dependencies.includes dependency)
    (waiting : ∀ other ∈ path, other ∉ schedule.order)
    (placed : dependencies.Placed pending schedule) :
    dependencies.Extends path (pending + if dependency ∈ path then 1 else 0) schedule
        (dependencies.follow fuel path schedule dependency) ∧
      (dependency ∉ path →
        dependency ∈ (dependencies.follow fuel path schedule dependency).order) := by
  unfold follow
  by_cases onPath : dependency ∈ path
  · simp only [onPath, ↓reduceIte, not_true, false_implies, and_true]
    refine ⟨⟨placed.unique, placed.included, ?_⟩, List.Subset.refl _, waiting⟩
    have counted := placed.counted
    simp only
    omega
  · simp only [onPath, ↓reduceIte, Nat.add_zero, not_false_eq_true, true_implies]
    by_cases done : dependency ∈ schedule.order
    · simp only [done, ↓reduceIte, and_true]
      exact ⟨placed, List.Subset.refl _, waiting⟩
    · simp only [done, ↓reduceIte]
      apply visits path schedule dependency pending enough
        (List.nodup_cons.mpr ⟨onPath, unique⟩) _ _ placed
      · exact List.forall_mem_cons.mpr ⟨included, inside⟩
      · exact List.forall_mem_cons.mpr ⟨done, waiting⟩

theorem foldl_follow_extends {fuel : Nat} {path : List Nat}
    (visits : dependencies.VisitPlaces fuel)
    (enough : dependencies.table.size ≤ fuel + path.length)
    (unique : path.Nodup) (inside : ∀ other ∈ path, dependencies.includes other) :
    ∀ (list : List Nat) (schedule : Schedule) (pending : Nat),
      (∀ dependency ∈ list, dependencies.includes dependency) →
      (∀ other ∈ path, other ∉ schedule.order) → dependencies.Placed pending schedule →
        let visited := list.foldl (dependencies.follow fuel path) schedule
        dependencies.Extends path (pending + list.countP (· ∈ path)) schedule visited ∧
          ∀ dependency ∈ list, dependency ∉ path → dependency ∈ visited.order := by
  intro list
  induction list with
  | nil =>
      intro schedule pending _ waiting placed
      exact ⟨⟨placed, List.Subset.refl _, waiting⟩, by simp⟩
  | cons first rest ih =>
      intro schedule pending included waiting placed
      obtain ⟨firstIncluded, restIncluded⟩ := List.forall_mem_cons.mp included
      obtain ⟨step, reached⟩ := follow_extends visits enough unique inside firstIncluded waiting
        placed
      obtain ⟨tail, others⟩ := ih _ _ restIncluded step.waiting step.placed
      refine ⟨⟨?_, List.Subset.trans step.grown tail.grown, tail.waiting⟩, ?_⟩
      · have count : pending + (first :: rest).countP (· ∈ path) =
            pending + (if first ∈ path then 1 else 0) + rest.countP (· ∈ path) := by
          simp only [List.countP_cons, decide_eq_true_eq]
          omega
        rw [count]
        exact tail.placed
      · intro dependency member notOnPath
        rcases List.mem_cons.mp member with same | later
        · subst dependency
          exact tail.grown (reached notOnPath)
        · exact others dependency later notOnPath

theorem visit_extends (fuel : Nat) : dependencies.VisitPlaces fuel := by
  induction fuel with
  | zero =>
      intro path schedule node pending enough unique inside waiting placed
      have bounded := length_le_of_included unique inside
      simp only [List.length_cons] at bounded
      omega
  | succ fuel ih =>
      intro path schedule node pending enough unique inside waiting placed
      obtain ⟨step, reached⟩ := foldl_follow_extends ih
        (by simp only [List.length_cons]; omega) unique inside (dependencies.of node) schedule
        pending (fun dependency => includes_of_mem_of) waiting placed
      rw [visit_succ]
      generalize (dependencies.of node).foldl (dependencies.follow fuel (node :: path)) schedule
        = visited at step reached
      have fresh : node ∉ visited.order := step.waiting node List.mem_cons_self
      refine ⟨⟨⟨?_, ?_, ?_⟩, ?_, ?_⟩, by simp⟩
      · simpa [List.nodup_append, fresh] using
          And.intro step.placed.unique fun other member => ne_of_mem_of_not_mem member fresh
      · intro other member
        rcases List.mem_append.mp member with old | new
        · exact step.placed.included other old
        · rw [List.mem_singleton.mp new]
          exact inside node List.mem_cons_self
      · have same : (dependencies.of node).countP (· ∈ node :: path) =
            (dependencies.of node).countP (· ∉ visited.order) := by
          apply List.countP_congr
          intro dependency member
          simp only [decide_eq_true_eq]
          exact ⟨step.waiting dependency, fun absent => by
            by_contra notOnPath
            exact absent (reached dependency member notOnPath)⟩
        have counted := step.placed.counted
        simp only [lateCount_push fresh]
        omega
      · exact List.Subset.trans step.grown (List.subset_append_left _ _)
      · intro other member
        have different : other ≠ node := by
          rintro rfl
          exact (List.nodup_cons.mp unique).1 member
        simp [different, step.waiting other (List.mem_cons_of_mem _ member)]

theorem foldl_visit_placed (roots : List Nat)
    (included : ∀ root ∈ roots, dependencies.includes root) :
    ∀ schedule : Schedule, dependencies.Placed 0 schedule →
      let final := roots.foldl (fun schedule root =>
        if root ∈ schedule.order then schedule
        else dependencies.visit dependencies.table.size [] schedule root) schedule
      dependencies.Extends [] 0 schedule final ∧ ∀ root ∈ roots, root ∈ final.order := by
  induction roots with
  | nil =>
      intro schedule placed
      exact ⟨⟨placed, List.Subset.refl _, by simp⟩, by simp⟩
  | cons first rest ih =>
      intro schedule placed
      obtain ⟨firstIncluded, restIncluded⟩ := List.forall_mem_cons.mp included
      have step : dependencies.Extends [] 0 schedule
          (if first ∈ schedule.order then schedule
            else dependencies.visit dependencies.table.size [] schedule first) ∧
          first ∈ (if first ∈ schedule.order then schedule
            else dependencies.visit dependencies.table.size [] schedule first).order := by
        by_cases done : first ∈ schedule.order
        · simp only [done, ↓reduceIte, and_true]
          exact ⟨placed, List.Subset.refl _, by simp⟩
        · simp only [done, ↓reduceIte]
          exact visit_extends _ [] schedule first 0 (by simp) (by simp)
            (by simpa using firstIncluded)
            (by simpa using done) placed
      obtain ⟨tail, others⟩ := ih restIncluded _ step.1.placed
      refine ⟨⟨tail.placed, List.Subset.trans step.1.grown tail.grown, by simp⟩, ?_⟩
      exact List.forall_mem_cons.mpr ⟨tail.grown step.2, others⟩

theorem placed_nil (dependencies : Dependencies) : dependencies.Placed 0 ⟨[], 0⟩ :=
  ⟨by simp, by simp, by simp [lateCount]⟩

theorem schedule_placed (dependencies : Dependencies) :
    dependencies.Placed 0 dependencies.schedule ∧
      ∀ node, node ∈ dependencies.schedule.order ↔ dependencies.includes node := by
  obtain ⟨all, reached⟩ := foldl_visit_placed
    ((List.range dependencies.table.size).filter dependencies.includes)
    (fun root member => (List.mem_filter.mp member).2) ⟨[], 0⟩ (placed_nil dependencies)
  refine ⟨all.placed, fun node => ⟨all.placed.included node, fun included => ?_⟩⟩
  apply reached
  exact List.mem_filter.mpr ⟨List.mem_range.mpr (includes_lt included), included⟩

end RelayLogic.Dependencies
