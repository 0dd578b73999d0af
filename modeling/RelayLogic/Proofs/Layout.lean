import RelayLogic.Proofs.Writing
import RelayLogic.Proofs.Order
import RelayLogic.Proofs.Owning

/-!
Circuits as diagrams lay them out: projects hold contexts and nothing else, contexts hold all that
is drawn, and a wire joins pins that stand before it in its own context. Such a circuit can be
visited so that all that an element refers to comes before it.
-/

namespace RelayLogic

def Kind.Nests (owner : Kind) : Kind → Prop
  | .solution | .memory _ => False
  | .project | .tag _ _ => owner = .solution
  | .context => owner = .project
  | .pin point =>
    owner.isSignal ∧ (point = .fixed .input ∨ point = .fixed .output) ∨
      (owner = .context ∨ owner.isLogic) ∧ point = .floating
  | .wire _ | .signal _ | .gate _ | .timer _ _ => owner = .context

def Kind.isLeaf : Kind → Bool
  | .pin _ | .wire _ | .tag _ _ => true
  | _ => false

theorem Kind.not_nests {owner : Kind} (leaf : owner.isLeaf) (kind : Kind) : ¬owner.Nests kind := by
  cases owner <;> cases kind <;>
    simp [Nests, isLeaf, isSignal, isLogic] at leaf ⊢

theorem Kind.Nests.isContext {kind : Kind} (nests : Kind.project.Nests kind) : kind = .context := by
  cases kind <;> simp [Nests, isSignal, isLogic] at nests ⊢

theorem Kind.Nests.owns {owner kind : Kind} (nests : owner.Nests kind) : owner.Owns kind := by
  cases kind with
  | solution | memory _ => exact nests.elim
  | project | tag _ _ | context => exact nests
  | pin point =>
      refine nests.imp_right fun ⟨holds, floats⟩ => ⟨holds.imp_left ?_, floats⟩
      rintro rfl
      rfl
  | _ =>
      obtain rfl := nests
      rfl

def Kind.rank : Kind → Nat
  | .solution => 0
  | .project | .tag _ _ => 1
  | .context => 2
  | .wire _ | .signal _ | .gate _ | .timer _ _ | .memory _ => 3
  | .pin _ => 4

theorem Kind.Nests.rank_lt {owner kind : Kind} (nests : owner.Nests kind) :
    owner.rank < kind.rank := by
  cases kind with
  | solution | memory _ => exact nests.elim
  | pin point =>
      rcases nests with ⟨isSignal, _⟩ | ⟨rfl | isLogic, _⟩
      · cases owner <;> first | contradiction | exact Nat.lt_add_one 3
      · exact Nat.lt_of_sub_eq_succ rfl
      · cases owner <;> first | contradiction | exact Nat.lt_add_one 3
  | _ =>
      obtain rfl := nests
      exact Nat.lt_add_one _

theorem Kind.rank_le (kind : Kind) : kind.rank ≤ 4 := by
  cases kind <;> simp [rank]

namespace Circuit

variable {circuit : Circuit}

def Near (circuit : Circuit) (wire pin : Nat) : Prop :=
  ∃ member < wire, circuit.owner member = circuit.owner wire ∧
    (pin = member ∨ circuit.owner pin = some member)

/-- A circuit that is laid out. -/
structure Laid (circuit : Circuit) : Prop where
  tree : circuit.Tree Kind.Nests
  sorted : ∀ id element, circuit.get? id = some element → element.children.Pairwise (· < ·)
  near : ∀ id element wire, circuit.get? id = some element → element.kind = .wire wire →
    circuit.Near id wire.start ∧ circuit.Near id wire.stop
  packed : ∀ id element, circuit.get? id = some element → element.kind.isContainer = false →
    ∀ pin ∈ element.children, pin < id ∧
      ∀ other < id, circuit.owner other = element.owner → other < pin
  early : ∀ id element, circuit.get? id = some element → element.kind.isTag →
    ∀ other < id, other ≠ solution → circuit.IsTag other

namespace Tree

theorem reach_of_rank {belongs : Kind → Kind → Prop} (tree : circuit.Tree belongs)
    (ranked : ∀ owner kind, belongs owner kind → owner.rank < kind.rank) {id : ElementId}
    {element : Element} (held : circuit.get? id = some element) :
    ∃ levels, circuit.above levels id = some solution := by
  induction rank : element.kind.rank using Nat.strong_induction_on generalizing id element with
  | _ rank ih =>
      by_cases isRoot : id = solution
      · exact ⟨0, congrArg some isRoot⟩
      · obtain ⟨owner, container, owned, containerHeld, _, belonging⟩ :=
          tree.owned id element held isRoot
        obtain ⟨levels, reached⟩ :=
          ih container.kind.rank (rank ▸ ranked _ _ belonging) containerHeld rfl
        have owner_eq : circuit.owner id = some owner := by
          rw [Circuit.owner, held, Option.bind_some, owned]
        exact ⟨levels + 1, by rw [above, owner_eq, Option.bind_some, reached]⟩

variable (tree : circuit.Tree Kind.Nests)

include tree

theorem owns : circuit.Tree Kind.Owns :=
  tree.refine fun _ _ _ _ _ _ _ => Kind.Nests.owns

theorem solution_of_kind {id : ElementId} {element : Element}
    (held : circuit.get? id = some element) (isSolution : element.kind = .solution) :
    id = solution := by
  by_contra notRoot
  obtain ⟨_, _, _, _, _, nests⟩ := tree.owned id element held notRoot
  rw [isSolution] at nests
  exact nests

theorem children_eq_nil {id : ElementId} {element : Element}
    (held : circuit.get? id = some element) (leaf : element.kind.isLeaf) :
    circuit.children id = [] := by
  refine List.eq_nil_iff_forall_not_mem.mpr fun child member => ?_
  obtain ⟨other, _, nests⟩ := tree.nested held rfl member
  exact Kind.not_nests leaf other.kind nests

theorem owner_top {id : ElementId} {element : Element} (held : circuit.get? id = some element)
    (top : element.kind.rank = 1) : circuit.owner id = some solution := by
  have notSolution : element.kind ≠ .solution := by
    intro same
    rw [same] at top
    contradiction
  obtain ⟨owner, container, owned, containerHeld, nests⟩ := tree.owner_nests held notSolution
  have low := top ▸ nests.rank_lt
  have isSolution : container.kind = .solution := by
    cases kind : container.kind <;> simp [kind, Kind.rank] at low ⊢
  rw [owned, tree.solution_of_kind containerHeld isSolution]

theorem reach {id : ElementId} {element : Element} (held : circuit.get? id = some element) :
    ∃ levels, circuit.above levels id = some solution :=
  tree.reach_of_rank (fun _ _ nests => nests.rank_lt) held

theorem shallow : circuit.Shallow 3 solution := by
  have deeper : ∀ {id child : ElementId} {level : Nat}, child ∈ circuit.children id →
      (∀ element, circuit.get? id = some element → level ≤ element.kind.rank) →
        ∀ element, circuit.get? child = some element → level + 1 ≤ element.kind.rank := by
    intro id child level member bound element held
    obtain ⟨container, other, containerHeld, found, nests⟩ := tree.nests member
    rw [held] at found
    cases found
    exact Nat.lt_of_le_of_lt (bound container containerHeld) nests.rank_lt
  intro top topMember context contextMember member memberMember pin pinMember
  have low := deeper pinMember (deeper memberMember (deeper contextMember (deeper topMember
    fun element _ => Nat.zero_le _)))
  refine List.eq_nil_iff_forall_not_mem.mpr fun child childMember => ?_
  obtain ⟨_, element, _, held, _⟩ := tree.nests childMember
  have high := deeper childMember low element held
  have most := element.kind.rank_le
  omega

end Tree

def recordOf (circuit : Circuit) (id : ElementId) : Netlist.Record ElementId :=
  match circuit.get? id with
  | none => .pin
  | some element =>
    match element.kind with
    | .pin _ | .memory _ => .pin
    | .wire wire => .connect wire.start wire.stop wire.invertStart wire.invertStop
    | .signal _ => .signal (circuit.pinsOf id)
    | .tag initial _ => .tag element.name initial
    | .gate kind => .gate kind (circuit.pinsOf id)
    | .timer kind delay => .timer kind (circuit.pinsOf id) delay
    | .context => .context
    | .project => .project
    | .solution => .solution

/-- What remains when some elements were visited, in the given project and context: each element
stands in the latest project or context, and what it refers to was visited or is visited with it. -/
inductive Visits (circuit : Circuit) :
    Option ElementId → Option ElementId → List ElementId → List ElementId → Prop
  | done {project context visited} : Visits circuit project context visited []
  | tag {project context visited id remaining} (isTag : circuit.IsTag id)
      (rest : Visits circuit project context (visited ++ [id]) remaining) :
      Visits circuit project context visited (id :: remaining)
  | project {project context visited id element remaining}
      (held : circuit.get? id = some element) (isProject : element.kind = .project)
      (rest : Visits circuit (some id) none (visited ++ [id]) remaining) :
      Visits circuit project context visited (id :: remaining)
  | context {project context visited id element remaining}
      (held : circuit.get? id = some element) (isContext : element.kind = .context)
      (owned : circuit.owner id = some project)
      (rest : Visits circuit (some project) (some id) (visited ++ [id]) remaining) :
      Visits circuit (some project) context visited (id :: remaining)
  | member {project context visited id element remaining}
      (held : circuit.get? id = some element) (nests : Kind.context.Nests element.kind)
      (owned : circuit.owner id = some context)
      (known : ∀ target ∈ (circuit.recordOf id).references,
        target ∈ visited ++ circuit.children id)
      (rest : Visits circuit project (some context) (visited ++ circuit.inOrder 0 id) remaining) :
      Visits circuit project (some context) visited (circuit.inOrder 0 id ++ remaining)

def order (circuit : Circuit) : List ElementId :=
  circuit.inOrder 3 solution

def Backward (circuit : Circuit) : Prop :=
  ∀ id element wire, circuit.get? id = some element → element.kind = .wire wire →
    ∀ visited remaining, circuit.order = visited ++ id :: remaining →
      wire.start ∈ visited ∧ wire.stop ∈ visited

theorem references_owned {id target : ElementId} {element : Element}
    (held : circuit.get? id = some element) (notWire : ∀ wire, element.kind ≠ .wire wire)
    (refers : target ∈ (circuit.recordOf id).references) : target ∈ circuit.children id := by
  have pins : target ∈ circuit.pinsOf id → target ∈ circuit.children id :=
    fun isPin => (List.mem_filter.mp isPin).1
  simp only [recordOf, held] at refers
  cases kind : element.kind with
  | wire wire => exact absurd kind (notWire wire)
  | signal _ | gate _ | timer _ _ =>
      rw [kind] at refers
      exact pins refers
  | _ => simp [kind, Netlist.Record.references] at refers

namespace Tree

variable (tree : circuit.Tree Kind.Nests) (backward : circuit.Backward)

include tree backward

theorem visits_members {project : Option ElementId} {context : ElementId} {element : Element}
    (held : circuit.get? context = some element) (isContext : element.kind = .context)
    {rest : List ElementId}
    (onward : ∀ visited, circuit.order = visited ++ rest →
      circuit.Visits project (some context) visited rest)
    (members : List ElementId) (listed : ∀ id ∈ members, id ∈ circuit.children context)
    (visited : List ElementId)
    (parts : circuit.order =
      visited ++ (members.flatMap (circuit.inOrder 0) ++ rest)) :
    circuit.Visits project (some context) visited (members.flatMap (circuit.inOrder 0) ++ rest) := by
  induction members generalizing visited with
  | nil => exact onward visited parts
  | cons id members ih =>
      have member := listed id List.mem_cons_self
      obtain ⟨found, foundHeld, nests⟩ := tree.nested held isContext member
      rw [List.flatMap_cons, List.append_assoc] at parts ⊢
      refine .member foundHeld nests (tree.mem_children.mp member) ?_ (ih
        (fun other later => listed other (List.mem_cons_of_mem _ later)) _ (by simp [parts]))
      intro target refers
      by_cases isWire : ∃ wire, found.kind = .wire wire
      · obtain ⟨wire, isWire⟩ := isWire
        rw [inOrder, tree.children_eq_nil foundHeld (by rw [isWire]; rfl)] at parts
        obtain ⟨start, stop⟩ := backward id found wire foundHeld isWire visited _ parts
        simp only [recordOf, foundHeld, isWire, Netlist.Record.references, List.mem_cons,
          List.not_mem_nil, or_false] at refers
        refine List.mem_append_left _ ?_
        rcases refers with rfl | rfl
        · exact start
        · exact stop
      · exact List.mem_append_right _
          (references_owned foundHeld (fun wire same => isWire ⟨wire, same⟩) refers)

theorem visits_contexts {project : ElementId} {element : Element}
    (held : circuit.get? project = some element) (isProject : element.kind = .project)
    {rest : List ElementId}
    (onward : ∀ context visited, circuit.order = visited ++ rest →
      circuit.Visits (some project) context visited rest)
    (contexts : List ElementId) (listed : ∀ id ∈ contexts, id ∈ circuit.children project)
    (context : Option ElementId) (visited : List ElementId)
    (parts : circuit.order =
      visited ++ (contexts.flatMap (circuit.inOrder 1) ++ rest)) :
    circuit.Visits (some project) context visited
      (contexts.flatMap (circuit.inOrder 1) ++ rest) := by
  induction contexts generalizing context visited with
  | nil => exact onward context visited parts
  | cons id contexts ih =>
      have member := listed id List.mem_cons_self
      obtain ⟨child, childHeld, nests⟩ := tree.nested held isProject member
      rw [List.flatMap_cons, inOrder, List.append_assoc, List.cons_append] at parts ⊢
      refine .context childHeld nests.isContext (tree.mem_children.mp member) ?_
      exact tree.visits_members backward childHeld nests.isContext
        (fun visited => ih (fun other later => listed other (List.mem_cons_of_mem _ later)) _ visited)
        _ (fun _ found => found) _ (by simp [parts])

theorem visits_tops (tops : List ElementId) (listed : ∀ id ∈ tops, id ∈ circuit.children solution)
    (project context : Option ElementId) (visited : List ElementId)
    (parts : circuit.order = visited ++ tops.flatMap (circuit.inOrder 2)) :
    circuit.Visits project context visited (tops.flatMap (circuit.inOrder 2)) := by
  induction tops generalizing project context visited with
  | nil => exact .done
  | cons id tops ih =>
      have member := listed id List.mem_cons_self
      have rest := ih fun other later => listed other (List.mem_cons_of_mem _ later)
      obtain ⟨element, held, isSolution, _⟩ := tree.root
      obtain ⟨child, childHeld, nests⟩ := tree.nested held isSolution member
      rw [List.flatMap_cons, inOrder, List.cons_append] at parts ⊢
      cases kind : child.kind with
      | project =>
          refine .project childHeld kind ?_
          exact tree.visits_contexts backward childHeld kind
            (fun context visited => rest _ context visited) _ (fun _ found => found) none _
            (by simp [parts])
      | tag initial properties =>
          rw [tree.children_eq_nil childHeld (by rw [kind]; rfl)] at parts ⊢
          exact .tag ⟨child, childHeld, by rw [kind]; rfl⟩ (rest _ _ _ (by simpa using parts))
      | _ => simp [kind, Kind.Nests, Kind.isSignal, Kind.isLogic] at nests

theorem visits : circuit.Visits none none [solution]
    ((circuit.children solution).flatMap (circuit.inOrder 2)) :=
  tree.visits_tops backward _ (fun _ found => found) none none _ rfl

end Tree

theorem flatMap_of_mem {items : List α} {item : α} (member : item ∈ items) (view : α → List β) :
    ∃ front back, items.flatMap view = front ++ (view item ++ back) := by
  obtain ⟨before, after, rfl⟩ := List.append_of_mem member
  exact ⟨before.flatMap view, after.flatMap view, by simp⟩

theorem Tree.order_members (tree : circuit.Tree Kind.Nests) {context : ElementId} {element : Element}
    (held : circuit.get? context = some element) (isContext : element.kind = .context) :
    ∃ front back, circuit.order =
      front ++ ((circuit.children context).flatMap (circuit.inOrder 0) ++ back) := by
  obtain ⟨project, container, owned, projectHeld, nests⟩ :=
    tree.owner_nests held (by simp [isContext])
  rw [isContext] at nests
  have top := tree.owner_top projectHeld (by rw [show container.kind = _ from nests]; rfl)
  obtain ⟨first, last, outer⟩ :=
    flatMap_of_mem (tree.mem_children.mpr top) (circuit.inOrder 2)
  obtain ⟨front, back, inner⟩ := flatMap_of_mem (tree.mem_children.mpr owned) (circuit.inOrder 1)
  refine ⟨solution :: (first ++ (project :: (front ++ [context]))), back ++ last, ?_⟩
  rw [order, inOrder, outer, inOrder, inner, inOrder]
  simp

namespace Laid

variable (laid : circuit.Laid)

include laid

theorem mem_before {owner child other : Nat} {before after : List ElementId}
    (parts : circuit.children owner = before ++ child :: after)
    (owned : circuit.owner other = some owner) (less : other < child) : other ∈ before := by
  have member := laid.tree.mem_children.mpr owned
  have sorted : (circuit.children owner).Pairwise (· < ·) := by
    unfold children
    split
    next element held => exact laid.sorted owner element held
    next => exact List.Pairwise.nil
  rw [parts] at member sorted
  rcases List.mem_append.mp member with early | late
  · exact early
  · have above : ∀ later ∈ after, child < later :=
      (List.pairwise_cons.mp (List.pairwise_append.mp sorted).2.1).1
    rcases List.mem_cons.mp late with rfl | late
    · exact absurd less (Nat.lt_irrefl _)
    · exact absurd less (Nat.not_lt_of_lt (above other late))

theorem backward : circuit.Backward := by
  intro id element wire held isWire visited remaining parts
  obtain ⟨context, container, owned, containerHeld, nests⟩ :=
    laid.tree.owner_nests held (by simp [isWire])
  rw [isWire] at nests
  obtain ⟨before, after, listed⟩ := List.append_of_mem (laid.tree.mem_children.mpr owned)
  obtain ⟨front, back, members⟩ := laid.tree.order_members containerHeld nests
  have alone : circuit.inOrder 0 id = [id] := by
    rw [inOrder, laid.tree.children_eq_nil held (by rw [isWire]; rfl), List.nil_append]
  have place : circuit.order = (front ++ before.flatMap (circuit.inOrder 0)) ++
      id :: (after.flatMap (circuit.inOrder 0) ++ back) := by
    rw [members, listed, List.flatMap_append, List.flatMap_cons, alone]
    simp
  have unique : circuit.order.Nodup := laid.tree.nodup_order laid.tree.shallow
  have same : visited = front ++ before.flatMap (circuit.inOrder 0) := by
    rw [place] at parts unique
    obtain ⟨_, uniqueLast, apart⟩ := List.nodup_append.mp unique
    have notFront : id ∉ front ++ before.flatMap (circuit.inOrder 0) :=
      fun member => apart id member id List.mem_cons_self rfl
    exact ((List.append_cons_inj_of_notMem notFront (List.nodup_cons.mp uniqueLast).1).mp
      parts).1.symm
  have near : ∀ pin, circuit.Near id pin → pin ∈ visited := by
    rintro pin ⟨member, less, sibling, isPin⟩
    rw [same]
    refine List.mem_append_right _ (List.mem_flatMap.mpr ⟨member, ?_, List.mem_append.mpr ?_⟩)
    · exact laid.mem_before listed (sibling.trans owned) less
    · rcases isPin with rfl | ownedPin
      · exact Or.inr List.mem_cons_self
      · exact Or.inl (laid.tree.mem_children.mpr ownedPin)
  obtain ⟨start, stop⟩ := laid.near id element wire held isWire
  exact ⟨near _ start, near _ stop⟩

end Laid

end Circuit

end RelayLogic
