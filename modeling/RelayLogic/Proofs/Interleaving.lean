import RelayLogic.Proofs.Schedule
import Mathlib.Data.List.Infix
import Mathlib.Logic.Relation

/-!
Searches that meet the same nodes in another order. A node that is on no cycle of dependencies, and
behind none, comes after all that it depends on. What the search makes of the other nodes depends
on the order of those among their dependencies alone.
-/

namespace RelayLogic.Dependencies

variable {dependencies twin : Dependencies}

/-- Whether a node is on a cycle of dependencies or behind one. -/
def Loops (dependencies : Dependencies) (node : Nat) : Prop :=
  ¬Acc (fun dependency node => dependency ∈ dependencies.of node) node

theorem Loops.of_mem {node dependency : Nat} (loops : dependencies.Loops dependency)
    (member : dependency ∈ dependencies.of node) : dependencies.Loops node :=
  fun ends => loops (ends.inv member)

def Behind (dependencies : Dependencies) (dependency node : Nat) : Prop :=
  Relation.TransGen (fun dependency node => dependency ∈ dependencies.of node) dependency node

theorem Behind.loops {node : Nat} (behind : dependencies.Behind node node) :
    dependencies.Loops node := by
  intro ends
  induction ends.transGen with
  | intro node _ ih => exact ih node behind behind ends

theorem follow_cases (fuel : Nat) (path : List Nat) (schedule : Schedule) (dependency : Nat) :
    (dependencies.follow fuel path schedule dependency).order = schedule.order ∨
      dependencies.follow fuel path schedule dependency =
        dependencies.visit fuel path schedule dependency := by
  unfold follow
  split
  · exact Or.inl rfl
  split
  · exact Or.inl rfl
  · exact Or.inr rfl

theorem prefix_visit (fuel : Nat) (path : List Nat) (schedule : Schedule) (node : Nat) :
    schedule.order <+: (dependencies.visit fuel path schedule node).order := by
  induction fuel generalizing path schedule node with
  | zero => exact List.prefix_rfl
  | succ fuel ih =>
      rw [visit_succ]
      refine List.IsPrefix.trans ?_ (List.prefix_append _ _)
      refine List.foldlRecOn (motive := fun made : Schedule => schedule.order <+: made.order) _ _
        List.prefix_rfl fun made grown dependency _ => grown.trans ?_
      rcases follow_cases fuel (node :: path) made dependency with same | visits
      · rw [same]
      · rw [visits]
        exact ih _ _ _

def place (dependencies : Dependencies) (schedule : Schedule) (root : Nat) : Schedule :=
  if root ∈ schedule.order then schedule
  else dependencies.visit dependencies.table.size [] schedule root

def early (dependencies : Dependencies) (count : Nat) : Schedule :=
  ((List.range count).filter dependencies.includes).foldl dependencies.place ⟨[], 0⟩

theorem schedule_eq_early (dependencies : Dependencies) :
    dependencies.schedule = dependencies.early dependencies.table.size := rfl

theorem prefix_early {count : Nat} (bound : count ≤ dependencies.table.size) :
    (dependencies.early count).order <+: dependencies.schedule.order := by
  obtain ⟨more, same⟩ := Nat.exists_eq_add_of_le bound
  have onward : dependencies.early (count + more) =
      (((List.range more).map (count + ·)).filter dependencies.includes).foldl dependencies.place
        (dependencies.early count) := by
    rw [early, List.range_add, List.filter_append, List.foldl_append]
    rfl
  rw [schedule_eq_early, same, onward]
  refine List.foldlRecOn (motive := fun made : Schedule =>
    (dependencies.early count).order <+: made.order) _ _ List.prefix_rfl
      fun made grown root _ => grown.trans ?_
  unfold place
  split
  · exact List.prefix_rfl
  · exact prefix_visit _ _ _ _

theorem isLate_grown {order whole : List Nat} (grown : order <+: whole) {node : Nat}
    (member : node ∈ order) (dependency : Nat) :
    isLate whole node dependency = isLate order node dependency := by
  obtain ⟨more, rfl⟩ := grown
  exact isLate_append member more dependency

/-- An order with nothing late in it that is not on a cycle or behind one. What is not in it yet is
on the path. -/
def Tidy (dependencies : Dependencies) (path order : List Nat) : Prop :=
  ∀ node ∈ order, ∀ dependency ∈ dependencies.of node, isLate order node dependency = false ∨
    dependencies.Loops dependency ∧ (dependency ∈ order ∨ dependency ∈ path)

theorem mem_of_not_isLate {order : List Nat} {node dependency : Nat}
    (early : isLate order node dependency = false) : dependency ∈ order := by
  simp only [isLate, decide_eq_false_iff_not, Nat.not_le] at early
  exact List.idxOf_lt_length_iff.mp (early.trans_le List.idxOf_le_length)

theorem Tidy.mono {path more order : List Nat} (tidy : dependencies.Tidy path order)
    (within : path ⊆ more) : dependencies.Tidy more order := fun node member dependency isOne =>
  (tidy node member dependency isOne).imp_right (And.imp_right (Or.imp_right fun old => within old))

theorem Tidy.push {path order : List Nat} {node : Nat} (tidy : dependencies.Tidy (node :: path) order)
    (fresh : node ∉ order) (done : ∀ dependency ∈ dependencies.of node, dependency ∉ order →
      dependency = node ∨ dependency ∈ path)
    (above : ∀ other ∈ path, dependencies.Behind node other) :
    dependencies.Tidy path (order ++ [node]) := by
  intro other member dependency isOne
  rcases List.mem_append.mp member with old | new
  · rw [isLate_append old]
    refine (tidy other old dependency isOne).imp_right (And.imp_right ?_)
    rintro (known | waits)
    · exact Or.inl (List.mem_append_left _ known)
    · rcases List.mem_cons.mp waits with rfl | waits
      · exact Or.inl (by simp)
      · exact Or.inr waits
  · obtain rfl := List.mem_singleton.mp new
    rw [isLate_last fresh]
    by_cases known : dependency ∈ order
    · exact Or.inl (by simp [known])
    · have direct : dependencies.Behind dependency other := .single isOne
      rcases done dependency isOne known with rfl | waits
      · exact Or.inr ⟨direct.loops, Or.inl (by simp)⟩
      · have cycle : dependencies.Behind dependency dependency :=
          direct.trans (above dependency waits)
        exact Or.inr ⟨cycle.loops, Or.inr waits⟩

def VisitTidies (dependencies : Dependencies) (fuel : Nat) : Prop :=
  ∀ (path : List Nat) (schedule : Schedule) (node pending : Nat),
    dependencies.table.size ≤ fuel + path.length →
    (node :: path).Nodup → (∀ other ∈ node :: path, dependencies.includes other) →
    (∀ other ∈ node :: path, other ∉ schedule.order) → dependencies.Placed pending schedule →
    (∀ other ∈ path, dependencies.Behind node other) → dependencies.Tidy path schedule.order →
      dependencies.Tidy path (dependencies.visit fuel path schedule node).order

theorem foldl_follow_tidy {fuel : Nat} {path : List Nat} (tidies : dependencies.VisitTidies fuel)
    (enough : dependencies.table.size ≤ fuel + path.length) (unique : path.Nodup)
    (inside : ∀ other ∈ path, dependencies.includes other) :
    ∀ (list : List Nat) (schedule : Schedule) (pending : Nat),
      (∀ dependency ∈ list, dependencies.includes dependency) →
      (∀ other ∈ path, other ∉ schedule.order) → dependencies.Placed pending schedule →
      (∀ dependency ∈ list, ∀ other ∈ path, dependencies.Behind dependency other) →
      dependencies.Tidy path schedule.order →
        dependencies.Tidy path (list.foldl (dependencies.follow fuel path) schedule).order := by
  intro list
  induction list with
  | nil => exact fun _ _ _ _ _ _ tidy => tidy
  | cons first rest ih =>
      intro schedule pending included waiting placed behind tidy
      obtain ⟨firstIncluded, restIncluded⟩ := List.forall_mem_cons.mp included
      obtain ⟨firstBehind, restBehind⟩ := List.forall_mem_cons.mp behind
      obtain ⟨step, _⟩ := follow_extends (visit_extends fuel) enough unique inside firstIncluded
        waiting placed
      refine ih _ _ restIncluded step.waiting step.placed restBehind ?_
      unfold follow
      split
      next => exact tidy
      next notOnPath =>
        split
        next => exact tidy
        next fresh =>
          exact tidies path schedule first pending enough (List.nodup_cons.mpr ⟨notOnPath, unique⟩)
            (List.forall_mem_cons.mpr ⟨firstIncluded, inside⟩)
            (List.forall_mem_cons.mpr ⟨fresh, waiting⟩) placed firstBehind tidy

theorem visit_tidy (fuel : Nat) : dependencies.VisitTidies fuel := by
  induction fuel with
  | zero => exact fun _ _ _ _ _ _ _ _ _ _ tidy => tidy
  | succ fuel ih =>
      intro path schedule node pending enough unique inside waiting placed above tidy
      have enough : dependencies.table.size ≤ fuel + (node :: path).length := by
        simp only [List.length_cons]
        omega
      obtain ⟨step, reached⟩ := foldl_follow_extends (visit_extends fuel) enough unique inside
        (dependencies.of node) schedule pending (fun _ => includes_of_mem_of) waiting placed
      have behind : ∀ dependency ∈ dependencies.of node, ∀ other ∈ node :: path,
          dependencies.Behind dependency other := by
        intro dependency isOne other member
        have direct : dependencies.Behind dependency node := .single isOne
        rcases List.mem_cons.mp member with rfl | waits
        · exact direct
        · exact direct.trans (above other waits)
      have followed := foldl_follow_tidy ih enough unique inside (dependencies.of node) schedule
        pending (fun _ => includes_of_mem_of) waiting placed behind
        (tidy.mono (List.subset_cons_self _ _))
      rw [visit_succ]
      refine followed.push (step.waiting node List.mem_cons_self) ?_ above
      intro dependency isOne absent
      by_contra apart
      exact absent (reached dependency isOne (by simpa using apart))

theorem foldl_place_tidy {roots : List Nat}
    (included : ∀ root ∈ roots, dependencies.includes root) {schedule : Schedule}
    (placed : dependencies.Placed 0 schedule) (tidy : dependencies.Tidy [] schedule.order) :
    dependencies.Tidy [] (roots.foldl dependencies.place schedule).order := by
  induction roots generalizing schedule with
  | nil => exact tidy
  | cons first rest ih =>
      obtain ⟨firstIncluded, restIncluded⟩ := List.forall_mem_cons.mp included
      obtain ⟨step, _⟩ := foldl_visit_placed [first] (by simpa using firstIncluded) schedule placed
      refine ih restIncluded step.placed ?_
      unfold place
      split
      next => exact tidy
      next fresh =>
        exact visit_tidy _ [] schedule first 0 (by simp) (by simp) (by simpa using firstIncluded)
          (by simpa using fresh) placed (by simp) tidy

theorem tidy_early (dependencies : Dependencies) (count : Nat) :
    dependencies.Tidy [] (dependencies.early count).order :=
  foldl_place_tidy (fun _ member => (List.mem_filter.mp member).2) (placed_nil dependencies)
    (by simp [Tidy])

theorem mem_early {count root : Nat} (bound : root < count) (included : dependencies.includes root) :
    root ∈ (dependencies.early count).order := by
  obtain ⟨-, reached⟩ := foldl_visit_placed ((List.range count).filter dependencies.includes)
    (fun root member => (List.mem_filter.mp member).2) ⟨[], 0⟩ (placed_nil dependencies)
  exact reached root (List.mem_filter.mpr ⟨List.mem_range.mpr bound, included⟩)

theorem early_closed {count node dependency : Nat} (member : node ∈ (dependencies.early count).order)
    (isOne : dependency ∈ dependencies.of node) : dependency ∈ (dependencies.early count).order := by
  rcases tidy_early dependencies count node member dependency isOne with inTime | ⟨_, known | waits⟩
  · exact mem_of_not_isLate inTime
  · exact known
  · contradiction

/-- Some nodes of one search and of another, which have corresponding dependencies among them. The
other nodes depend on none of these. -/
structure Projects (dependencies twin : Dependencies) (shift : Nat → Nat)
    (kept twinKept : Nat → Bool) : Prop where
  injective : Function.Injective shift
  size : twin.table.size = dependencies.table.size
  same : ∀ node, twinKept (shift node) = kept node
  idle : ∀ node, ¬kept node → ∀ dependency ∈ dependencies.of node, ¬kept dependency
  twinIdle : ∀ node, ¬twinKept node → ∀ dependency ∈ twin.of node, ¬twinKept dependency
  of : ∀ node, kept node →
    (twin.of (shift node)).filter twinKept = ((dependencies.of node).filter kept).map shift

def InStep (shift : Nat → Nat) (kept twinKept : Nat → Bool) (schedule other : Schedule) : Prop :=
  other.order.filter twinKept = (schedule.order.filter kept).map shift

section

variable {shift : Nat → Nat} {kept twinKept : Nat → Bool}

theorem filter_visit_idle
    (idle : ∀ node, ¬kept node → ∀ dependency ∈ dependencies.of node, ¬kept dependency)
    (fuel : Nat) (path : List Nat) (schedule : Schedule) {node : Nat} (isIdle : ¬kept node) :
    (dependencies.visit fuel path schedule node).order.filter kept =
      schedule.order.filter kept := by
  induction fuel generalizing path schedule node with
  | zero => rfl
  | succ fuel ih =>
      rw [visit_succ, List.filter_append, List.filter_singleton,
        show kept node = false by simpa using isIdle, cond_false, List.append_nil]
      refine List.foldlRecOn (motive := fun made : Schedule => made.order.filter kept = _) _ _ rfl
        fun made same dependency isOne => ?_
      rw [← same]
      rcases follow_cases fuel (node :: path) made dependency with kept | visits
      · rw [kept]
      · rw [visits]
        exact ih _ _ (idle node isIdle dependency isOne)

theorem filter_follow_idle
    (idle : ∀ node, ¬kept node → ∀ dependency ∈ dependencies.of node, ¬kept dependency)
    (fuel : Nat) (path : List Nat) (schedule : Schedule) (node : Nat) (isIdle : ¬kept node) :
    (dependencies.follow fuel path schedule node).order.filter kept =
      schedule.order.filter kept := by
  rcases follow_cases fuel path schedule node with same | visits
  · rw [same]
  · rw [visits]
    exact filter_visit_idle idle _ _ _ isIdle

theorem filter_place_idle
    (idle : ∀ node, ¬kept node → ∀ dependency ∈ dependencies.of node, ¬kept dependency)
    (schedule : Schedule) (root : Nat) (isIdle : ¬kept root) :
    (dependencies.place schedule root).order.filter kept = schedule.order.filter kept := by
  unfold place
  split
  · rfl
  · exact filter_visit_idle idle _ _ _ isIdle

theorem InStep.foldl_idle {schedule other : Schedule}
    (inStep : InStep shift kept twinKept schedule other) {second : Schedule → Nat → Schedule}
    (right : ∀ schedule node, ¬twinKept node →
      (second schedule node).order.filter twinKept = schedule.order.filter twinKept)
    {nodes : List Nat} (idle : ∀ node ∈ nodes, ¬twinKept node) :
    InStep shift kept twinKept schedule (nodes.foldl second other) :=
  List.foldlRecOn (motive := InStep shift kept twinKept schedule) _ _ inStep
    fun made inStep node member => (right made node (idle node member)).trans inStep

theorem InStep.foldl {first second : Schedule → Nat → Schedule}
    (left : ∀ schedule node, ¬kept node →
      (first schedule node).order.filter kept = schedule.order.filter kept)
    (right : ∀ schedule node, ¬twinKept node →
      (second schedule node).order.filter twinKept = schedule.order.filter twinKept)
    (both : ∀ schedule other node, kept node → InStep shift kept twinKept schedule other →
      InStep shift kept twinKept (first schedule node) (second other (shift node)))
    {list twins : List Nat} (same : twins.filter twinKept = (list.filter kept).map shift)
    {schedule other : Schedule} (inStep : InStep shift kept twinKept schedule other) :
    InStep shift kept twinKept (list.foldl first schedule) (twins.foldl second other) := by
  induction list generalizing schedule other twins with
  | nil =>
      rw [List.filter_nil, List.map_nil, List.filter_eq_nil_iff] at same
      exact inStep.foldl_idle right same
  | cons node list ih =>
      rw [List.foldl_cons]
      by_cases isKept : kept node
      · rw [List.filter_cons_of_pos isKept, List.map_cons, List.filter_eq_cons_iff] at same
        obtain ⟨before, after, rfl, idle, -, same⟩ := same
        rw [List.foldl_append, List.foldl_cons]
        exact ih same (both _ _ node isKept (inStep.foldl_idle right idle))
      · rw [List.filter_cons_of_neg isKept] at same
        exact ih same ((congrArg _ (left schedule node isKept)).trans inStep.symm).symm

namespace Projects

variable (projects : dependencies.Projects twin shift kept twinKept)

include projects

theorem mem_iff {schedule other : Schedule} (inStep : InStep shift kept twinKept schedule other)
    {node : Nat} (isKept : kept node) : shift node ∈ other.order ↔ node ∈ schedule.order := by
  have twinIsKept : twinKept (shift node) := (projects.same node).trans isKept
  rw [← and_iff_left (a := shift node ∈ other.order) twinIsKept, ← List.mem_filter, inStep,
    List.mem_map_of_injective projects.injective, List.mem_filter, and_iff_left isKept]

theorem visit (fuel : Nat) (path : List Nat) {schedule other : Schedule} {node : Nat}
    (isKept : kept node) (inStep : InStep shift kept twinKept schedule other) :
    InStep shift kept twinKept (dependencies.visit fuel path schedule node)
      (twin.visit fuel (path.map shift) other (shift node)) := by
  induction fuel generalizing path schedule other node with
  | zero => exact inStep
  | succ fuel ih =>
      have followed : InStep shift kept twinKept
          ((dependencies.of node).foldl (dependencies.follow fuel (node :: path)) schedule)
          ((twin.of (shift node)).foldl (twin.follow fuel ((node :: path).map shift)) other) := by
        refine InStep.foldl (filter_follow_idle projects.idle fuel _)
          (filter_follow_idle projects.twinIdle fuel _) ?_ (projects.of node isKept) inStep
        intro schedule other dependency isKept inStep
        simp only [follow, List.mem_map_of_injective projects.injective,
          projects.mem_iff inStep isKept]
        split
        · exact inStep
        split
        · exact inStep
        · exact ih _ isKept inStep
      have twinIsKept : twinKept (shift node) := (projects.same node).trans isKept
      rw [visit_succ, visit_succ, InStep, List.filter_append, List.filter_append,
        List.filter_singleton, List.filter_singleton, isKept, twinIsKept, List.map_append]
      exact congrArg (· ++ [shift node]) followed

theorem place {schedule other : Schedule} (root : Nat) (isKept : kept root)
    (inStep : InStep shift kept twinKept schedule other) :
    InStep shift kept twinKept (dependencies.place schedule root)
      (twin.place other (shift root)) := by
  simp only [Dependencies.place, projects.mem_iff inStep isKept, projects.size]
  split
  · exact inStep
  · exact projects.visit _ [] isKept inStep

theorem early {count : Nat} (roots : (List.range count).filter twin.includes =
      ((List.range count).filter dependencies.includes).map shift) :
    InStep shift kept twinKept (dependencies.early count) (twin.early count) := by
  have start : InStep shift kept twinKept ⟨[], 0⟩ ⟨[], 0⟩ := rfl
  refine start.foldl (filter_place_idle projects.idle) (filter_place_idle projects.twinIdle)
    (fun _ _ root isKept inStep => projects.place root isKept inStep) ?_
  rw [roots, List.filter_map]
  exact congrArg _ (List.filter_congr fun node _ => projects.same node)

end Projects

theorem isLate_filter {order : List Nat} {node dependency : Nat} (nodeKept : kept node)
    (dependencyKept : kept dependency) :
    isLate (order.filter kept) node dependency = isLate order node dependency := by
  induction order with
  | nil => rfl
  | cons first order ih =>
      rw [isLate, isLate, decide_eq_decide] at ih
      rw [isLate, isLate, decide_eq_decide]
      by_cases isKept : kept first
      · rw [List.filter_cons_of_pos isKept]
        simp only [List.idxOf_cons]
        cases first == node <;> cases first == dependency <;> simp [ih]
      · have notNode : (first == node) = false := by
          rw [beq_eq_false_iff_ne]
          rintro rfl
          exact isKept nodeKept
        have notDependency : (first == dependency) = false := by
          rw [beq_eq_false_iff_ne]
          rintro rfl
          exact isKept dependencyKept
        rw [List.filter_cons_of_neg isKept, ih]
        simp only [List.idxOf_cons, notNode, notDependency, cond_false, Nat.add_le_add_iff_right]

theorem isLate_map (injective : Function.Injective shift) (order : List Nat)
    (node dependency : Nat) :
    isLate (order.map shift) (shift node) (shift dependency) = isLate order node dependency := by
  have idx : ∀ node, (order.map shift).idxOf (shift node) = order.idxOf node := by
    intro node
    induction order with
    | nil => rfl
    | cons first order ih =>
        simp only [List.map_cons, List.idxOf_cons, ih, injective.eq_iff, Bool.beq_eq_decide_eq]
  rw [isLate, isLate, idx, idx]

theorem InStep.isLate_eq {schedule other : Schedule} (injective : Function.Injective shift)
    (same : ∀ node, twinKept (shift node) = kept node)
    (inStep : InStep shift kept twinKept schedule other) {node dependency : Nat}
    (nodeKept : kept node) (dependencyKept : kept dependency) :
    isLate other.order (shift node) (shift dependency) = isLate schedule.order node dependency := by
  have twinNode : twinKept (shift node) := (same node).trans nodeKept
  have twinDependency : twinKept (shift dependency) := (same dependency).trans dependencyKept
  rw [← isLate_filter twinNode twinDependency, inStep, isLate_map injective,
    isLate_filter nodeKept dependencyKept]

end

structure Permutes (dependencies twin : Dependencies) (shift : Nat → Nat) : Prop where
  injective : Function.Injective shift
  size : twin.table.size = dependencies.table.size
  includes : ∀ node, twin.includes (shift node) = dependencies.includes node
  of : ∀ node, (twin.of (shift node)).Perm ((dependencies.of node).map shift)

namespace Permutes

variable {shift : Nat → Nat} (permutes : dependencies.Permutes twin shift)

include permutes

theorem loops_iff (node : Nat) : twin.Loops (shift node) ↔ dependencies.Loops node := by
  refine not_congr ⟨fun ends => ?_, fun ends => ?_⟩
  · refine Subrelation.accessible ?_ (InvImage.accessible shift ends)
    intro dependency node isOne
    exact (permutes.of node).mem_iff.mpr (List.mem_map_of_mem isOne)
  · induction ends with
    | intro node _ ih =>
        refine Acc.intro _ fun other isOne => ?_
        obtain ⟨dependency, member, rfl⟩ := List.mem_map.mp ((permutes.of node).mem_iff.mp isOne)
        exact ih dependency member

variable {kept twinKept : Nat → Bool}

theorem projects (loops : ∀ node, kept node ↔ dependencies.Loops node)
    (twinLoops : ∀ node, twinKept node ↔ twin.Loops node)
    (ordered : ∀ node, (twin.of (shift node)).filter twinKept =
      ((dependencies.of node).filter kept).map shift) :
    dependencies.Projects twin shift kept twinKept where
  injective := permutes.injective
  size := permutes.size
  same node := by rw [Bool.eq_iff_iff, loops, twinLoops, permutes.loops_iff]
  idle node isIdle dependency isOne isKept :=
    isIdle ((loops node).mpr (((loops dependency).mp isKept).of_mem isOne))
  twinIdle node isIdle dependency isOne isKept :=
    isIdle ((twinLoops node).mpr (((twinLoops dependency).mp isKept).of_mem isOne))
  of node _ := ordered node

/-- An early node and its copy come after the same dependencies, if the dependencies that are on
cycles or behind them are in the same order. -/
theorem isLate_schedule (loops : ∀ node, kept node ↔ dependencies.Loops node)
    (twinLoops : ∀ node, twinKept node ↔ twin.Loops node)
    (ordered : ∀ node, (twin.of (shift node)).filter twinKept =
      ((dependencies.of node).filter kept).map shift)
    {count : Nat} (bound : count ≤ dependencies.table.size)
    (roots : (List.range count).filter twin.includes =
      ((List.range count).filter dependencies.includes).map shift)
    {node dependency : Nat} (member : node ∈ (dependencies.early count).order)
    (isOne : dependency ∈ dependencies.of node) :
    isLate twin.schedule.order (shift node) (shift dependency) =
      isLate dependencies.schedule.order node dependency := by
  have projects := permutes.projects loops twinLoops ordered
  have scheduled : node ∈ dependencies.schedule.order := (prefix_early bound).subset member
  have twinScheduled : shift node ∈ twin.schedule.order := by
    rw [twin.schedule_placed.2, permutes.includes, ← dependencies.schedule_placed.2]
    exact scheduled
  have twinOne : shift dependency ∈ twin.of (shift node) :=
    (permutes.of node).mem_iff.mpr (List.mem_map_of_mem isOne)
  by_cases isLoop : dependencies.Loops dependency
  · have inStep := projects.early roots
    have dependencyKept : kept dependency := (loops dependency).mpr isLoop
    have nodeKept : kept node := (loops node).mpr (isLoop.of_mem isOne)
    have twinMember := (projects.mem_iff inStep nodeKept).mpr member
    have twinBound : count ≤ twin.table.size := permutes.size ▸ bound
    rw [isLate_grown (prefix_early twinBound) twinMember, isLate_grown (prefix_early bound) member]
    exact inStep.isLate_eq projects.injective projects.same nodeKept dependencyKept
  · have inTime := tidy_early dependencies dependencies.table.size node scheduled dependency isOne
    have twinInTime := tidy_early twin twin.table.size _ twinScheduled _ twinOne
    rw [permutes.loops_iff] at twinInTime
    rw [schedule_eq_early, schedule_eq_early, inTime.resolve_right fun late => isLoop late.1,
      twinInTime.resolve_right fun late => isLoop late.1]

end Permutes

end RelayLogic.Dependencies
