import RelayLogic.Proofs.Calls
import RelayLogic.Proofs.Descending
import Mathlib.Data.List.Dedup

/-!
Moving elements from owner to owner. Every circuit that calls build couples its elements: an
element is listed once by its owner and by no other. Then what a series of moves leads to is told by
which elements were moved, in the order of their last moves.
-/

namespace RelayLogic

namespace Circuit

variable {circuit : Circuit}

/-- Whether each element is listed once by its owner and by no other. -/
def Coupled (circuit : Circuit) : Prop :=
  ∀ owner child, (circuit.children owner).count child =
    if circuit.owner child = some owner then 1 else 0

theorem Spanning.coupled (spanning : circuit.Spanning) : circuit.Coupled :=
  spanning.listed

theorem Coupled.mem_children (coupled : circuit.Coupled) {owner child : ElementId} :
    child ∈ circuit.children owner ↔ circuit.owner child = some owner := by
  rw [← List.count_pos_iff, coupled]
  split <;> simp [*]

theorem Coupled.nodup_children (coupled : circuit.Coupled) (owner : ElementId) :
    (circuit.children owner).Nodup := by
  rw [List.nodup_iff_count_le_one]
  intro child
  rw [coupled]
  split <;> simp

theorem children_of_size_le {id : Nat} (unknown : circuit.size ≤ id) :
    circuit.children id = [] := by
  have missing : circuit.get? id = none := Array.getElem?_eq_none unknown
  rw [children, missing]

theorem owner_of_size_le {id : Nat} (unknown : circuit.size ≤ id) : circuit.owner id = none := by
  have missing : circuit.get? id = none := Array.getElem?_eq_none unknown
  rw [owner, missing]
  rfl

theorem owner_update {id other : ElementId} {change : Element → Element}
    (kept : ∀ element, (change element).owner = element.owner) :
    (circuit.update id change).owner other = circuit.owner other := by
  simp only [owner, get?_update]
  split
  · rw [Option.bind_map]
    exact congrArg _ (funext kept)
  · rfl

theorem children_eq (circuit : Circuit) (id : ElementId) :
    circuit.children id = ((circuit.get? id).map (·.children)).getD [] := by
  unfold children
  cases circuit.get? id <;> rfl

theorem children_update {id other : ElementId} {change : Element → Element}
    (kept : ∀ element, (change element).children = element.children) :
    (circuit.update id change).children other = circuit.children other := by
  simp only [children_eq, get?_update]
  split
  · rw [Option.map_map]
    exact congrArg (fun view => ((circuit.get? other).map view).getD []) (funext kept)
  · rfl

theorem children_relist {id : Nat} (lists : List ElementId → List ElementId)
    (known : id < circuit.size ∨ lists [] = []) (other : ElementId) :
    (circuit.update id fun element => { element with children := lists element.children }).children
      other = if other = id then lists (circuit.children other) else circuit.children other := by
  simp only [children_eq, get?_update]
  split
  next same =>
    subst same
    rcases known with bound | nothing
    · obtain ⟨element, held⟩ := exists_get? bound
      rw [held]
      rfl
    · cases circuit.get? other with
      | none => exact nothing.symm
      | some element => rfl
  next => rfl

theorem Coupled.congr {made : Circuit} (coupled : circuit.Coupled)
    (owners : ∀ id, made.owner id = circuit.owner id)
    (lists : ∀ id, made.children id = circuit.children id) : made.Coupled := by
  intro owner child
  rw [lists, owners]
  exact coupled owner child

theorem Coupled.update (coupled : circuit.Coupled) {id : ElementId} {change : Element → Element}
    (owners : ∀ element, (change element).owner = element.owner)
    (lists : ∀ element, (change element).children = element.children) :
    (circuit.update id change).Coupled :=
  coupled.congr (fun _ => owner_update owners) fun _ => children_update lists

theorem owner_moveChild {child : Nat} (known : child < circuit.size) (owner id : ElementId) :
    (circuit.moveChild owner child).owner id =
      if id = child then some owner else circuit.owner id := by
  have listing : ∀ (moved : Circuit) (parent : ElementId) (lists : Element → List ElementId),
      (moved.update parent fun element => { element with children := lists element }).owner id =
        moved.owner id := fun _ _ _ => owner_update fun _ => rfl
  have owning : ∀ moved : Circuit, child < moved.size →
      (moved.update child fun element => { element with owner := some owner }).owner id =
        if id = child then some owner else moved.owner id := by
    intro moved there
    obtain ⟨element, held⟩ := exists_get? there
    simp only [Circuit.owner, get?_update]
    split
    next same => rw [same, held]; rfl
    next => rfl
  unfold moveChild
  split
  · rw [listing, owning _ (by rwa [size_update]), listing]
  · rw [listing, owning _ known]

theorem Coupled.children_moveChild (coupled : circuit.Coupled) {owner : Nat}
    (known : owner < circuit.size) (child id : ElementId) :
    (circuit.moveChild owner child).children id =
      (circuit.children id).filter (· != child) ++ if id = owner then [child] else [] := by
  have owning : ∀ (moved : Circuit) (by_ : Option ElementId),
      (moved.update child fun element => { element with owner := by_ }).children id =
        moved.children id := fun _ _ => children_update fun _ => rfl
  have joining : ∀ moved : Circuit, owner < moved.size →
      (moved.update owner fun element =>
        { element with children := element.children ++ [child] }).children id =
        moved.children id ++ if id = owner then [child] else [] := by
    intro moved there
    rw [children_relist (· ++ [child]) (Or.inl there)]
    split
    · rfl
    · rw [List.append_nil]
  have absent : circuit.owner child ≠ some id →
      (circuit.children id).filter (· != child) = circuit.children id := by
    refine fun other => List.filter_eq_self.mpr fun listed member => bne_iff_ne.mpr ?_
    rintro rfl
    exact other (coupled.mem_children.mp member)
  have leaving : ∀ old, circuit.owner child = some old →
      (circuit.update old fun element =>
        { element with children := element.children.filter (· != child) }).children id =
        (circuit.children id).filter (· != child) := by
    intro old owned
    rw [children_relist (List.filter (· != child)) (Or.inr rfl)]
    split
    · rfl
    next different =>
      refine (absent fun same => different ?_).symm
      exact Option.some.inj (same.symm.trans owned)
  unfold moveChild
  split
  next old owned => rw [joining _ (by simpa only [size_update]), owning, leaving old owned]
  next unowned =>
    rw [joining _ (by rwa [size_update]), owning, absent (by rw [unowned]; simp)]

theorem Coupled.moveChild (coupled : circuit.Coupled) {owner child : Nat}
    (ownerKnown : owner < circuit.size) (childKnown : child < circuit.size) :
    (circuit.moveChild owner child).Coupled := by
  intro parent other
  rw [coupled.children_moveChild ownerKnown, owner_moveChild childKnown, List.count_append]
  by_cases isChild : other = child
  · subst isChild
    rw [if_pos rfl, List.count_eq_zero_of_not_mem (by simp), Nat.zero_add]
    by_cases isOwner : parent = owner
    · simp [isOwner]
    · simp [isOwner, Ne.symm isOwner]
  · have stays : (if parent = owner then [child] else []).count other = 0 := by
      split <;> simp [Ne.symm isChild]
    rw [if_neg isChild, stays, Nat.add_zero, List.count_filter (by simpa using isChild), coupled]

def moveChildren (circuit : Circuit) (owner : ElementId) (moved : List ElementId) : Circuit :=
  moved.foldl (·.moveChild owner ·) circuit

theorem moveChildren_cons (circuit : Circuit) (owner child : ElementId) (moved : List ElementId) :
    circuit.moveChildren owner (child :: moved) =
      (circuit.moveChild owner child).moveChildren owner moved :=
  rfl

theorem known_moveChild {child : Nat} {moved : List Nat}
    (known : ∀ other ∈ child :: moved, other < circuit.size) (owner : ElementId) :
    ∀ other ∈ moved, other < (circuit.moveChild owner child).size := by
  intro other member
  rw [size_moveChild]
  exact known other (List.mem_cons_of_mem child member)

@[simp] theorem size_moveChildren (circuit : Circuit) (owner : ElementId) (moved : List ElementId) :
    (circuit.moveChildren owner moved).size = circuit.size := by
  induction moved generalizing circuit with
  | nil => rfl
  | cons child moved ih => exact (ih _).trans (size_moveChild circuit owner child)

theorem owner_moveChildren {owner : ElementId} {moved : List Nat}
    (known : ∀ child ∈ moved, child < circuit.size) (id : ElementId) :
    (circuit.moveChildren owner moved).owner id =
      if id ∈ moved then some owner else circuit.owner id := by
  induction moved generalizing circuit with
  | nil => rfl
  | cons child moved ih =>
      have first := owner_moveChild (known child List.mem_cons_self) owner id
      rw [moveChildren_cons, ih (known_moveChild known owner), first]
      by_cases inRest : id ∈ moved
      · rw [if_pos inRest, if_pos (List.mem_cons_of_mem child inRest)]
      · simp only [inRest, ↓reduceIte, List.mem_cons, or_false]

theorem Coupled.moveChildren (coupled : circuit.Coupled) {owner : Nat}
    (ownerKnown : owner < circuit.size) {moved : List Nat}
    (known : ∀ child ∈ moved, child < circuit.size) :
    (circuit.moveChildren owner moved).Coupled := by
  induction moved generalizing circuit with
  | nil => exact coupled
  | cons child moved ih =>
      refine ih (coupled.moveChild ownerKnown (known child List.mem_cons_self)) ?_
        (known_moveChild known owner)
      rwa [size_moveChild]

theorem Coupled.children_moveChildren (coupled : circuit.Coupled) {owner : Nat}
    (ownerKnown : owner < circuit.size) {moved : List Nat}
    (known : ∀ child ∈ moved, child < circuit.size) (id : ElementId) :
    (circuit.moveChildren owner moved).children id =
      (circuit.children id).filter (· ∉ moved) ++ if id = owner then moved.dedup else [] := by
  induction moved generalizing circuit with
  | nil => simp [Circuit.moveChildren]
  | cons child moved ih =>
      have rest := ih (coupled.moveChild ownerKnown (known child List.mem_cons_self))
        (by rwa [size_moveChild]) (known_moveChild known owner)
      have kept : ((circuit.children id).filter (· != child)).filter (· ∉ moved) =
          (circuit.children id).filter (· ∉ child :: moved) := by
        rw [List.filter_filter]
        refine List.filter_congr fun other _ => ?_
        by_cases same : other = child <;> by_cases inRest : other ∈ moved <;> simp [same, inRest]
      rw [moveChildren_cons, rest, coupled.children_moveChild ownerKnown, List.filter_append, kept,
        List.append_assoc]
      congr 1
      by_cases isOwner : id = owner
      · by_cases again : child ∈ moved
        · simp [isOwner, again, List.dedup_cons_of_mem again]
        · simp [isOwner, again, List.dedup_cons_of_notMem again]
      · simp [isOwner]

def SameTree (circuit other : Circuit) : Prop :=
  ∀ id, other.owner id = circuit.owner id ∧ other.children id = circuit.children id

/-- Moves change nothing if their last ones only put the owner's last children where they are. -/
theorem Coupled.sameTree_moveChildren_iff (coupled : circuit.Coupled) {owner : Nat}
    (ownerKnown : owner < circuit.size) {moved : List Nat}
    (known : ∀ child ∈ moved, child < circuit.size) :
    circuit.SameTree (circuit.moveChildren owner moved) ↔
      moved.dedup <:+ circuit.children owner := by
  have lists := coupled.children_moveChildren ownerKnown known
  constructor
  · intro same
    have listed := (same owner).2
    rw [lists, if_pos rfl] at listed
    exact ⟨_, listed⟩
  · rintro ⟨before, listed⟩ id
    have owned : ∀ child ∈ moved, circuit.owner child = some owner := by
      intro child member
      rw [← coupled.mem_children, ← listed]
      exact List.mem_append_right before (List.mem_dedup.mpr member)
    constructor
    · rw [owner_moveChildren known]
      split
      next member => exact (owned id member).symm
      next => rfl
    · rw [lists]
      by_cases isOwner : id = owner
      · have unique := coupled.nodup_children owner
        rw [← listed] at unique
        have apart := (List.nodup_append.mp unique).2.2
        have first : before.filter (· ∉ moved) = before := by
          refine List.filter_eq_self.mpr fun child member => ?_
          simpa using fun later => apart child member child (List.mem_dedup.mpr later) rfl
        have last : moved.dedup.filter (· ∉ moved) = [] := by
          refine List.filter_eq_nil_iff.mpr fun child member => ?_
          simpa using List.mem_dedup.mp member
        rw [isOwner, if_pos rfl, ← listed, List.filter_append, first, last, List.append_nil]
      · rw [if_neg isOwner, List.append_nil]
        refine List.filter_eq_self.mpr fun child member => ?_
        have other := coupled.mem_children.mp member
        refine decide_eq_true fun later => isOwner ?_
        exact Option.some.inj (other.symm.trans (owned child later))

theorem Coupled.push (coupled : circuit.Coupled) {owner : Nat}
    (there : owner = solution ∨ owner < circuit.size) (name : String) (kind : Kind) :
    (circuit.push owner name kind).Coupled := by
  have bound : owner < circuit.size + 1 := by
    rcases there with rfl | known
    · exact Nat.succ_pos _
    · exact Nat.lt_succ_of_lt known
  let new : Element := ⟨name, kind, some owner, [], none, none⟩
  let grown : Circuit := ⟨circuit.elements.push new⟩
  have held : ∀ id, grown.get? id = if id = circuit.size then some new else circuit.get? id :=
    fun _ => Array.getElem?_push
  have owners : ∀ id, (circuit.push owner name kind).owner id =
      if id = circuit.size then some owner else circuit.owner id := by
    intro id
    have same : (circuit.push owner name kind).owner id = grown.owner id :=
      owner_update fun _ => rfl
    rw [same, Circuit.owner, held]
    split <;> rfl
  have lists : ∀ id, (circuit.push owner name kind).children id =
      circuit.children id ++ if id = owner then [circuit.size] else [] := by
    intro id
    have before : grown.children id = circuit.children id := by
      rw [children_eq, held]
      split
      next last => rw [children_of_size_le (Nat.le_of_eq last.symm)]; rfl
      next => rw [← children_eq]
    have size : grown.size = circuit.size + 1 := Array.size_push _
    have joined : (circuit.push owner name kind).children id =
        if id = owner then grown.children id ++ [circuit.size] else grown.children id :=
      children_relist (· ++ [circuit.size]) (Or.inl (size ▸ bound)) id
    rw [joined, before]
    split
    · rfl
    · rw [List.append_nil]
  intro parent child
  rw [lists, owners, List.count_append, coupled]
  by_cases isNew : child = circuit.size
  · have unowned := owner_of_size_le (Nat.le_of_eq isNew.symm)
    by_cases isOwner : parent = owner
    · simp [isNew ▸ unowned, isNew, isOwner]
    · simp [isNew ▸ unowned, isNew, isOwner, Ne.symm isOwner]
  · have other : (if parent = owner then [circuit.size] else []).count child = 0 := by
      split <;> simp [Ne.symm isNew]
    rw [if_neg isNew, other, Nat.add_zero]

theorem coupled_guarded : Build.Guarded Coupled where
  push _ _ name kind there _ _ coupled := coupled.push there name kind
  move _ _ _ ownerThere childThere coupled := coupled.moveChild ownerThere childThere
  fix _ _ _ _ _ coupled := coupled.update (fun _ => rfl) fun _ => rfl
  retag _ _ _ _ coupled := coupled.update (fun _ => rfl) fun _ => rfl
  label _ _ _ coupled := coupled.update (fun _ => rfl) fun _ => rfl

theorem coupled_empty (name : String) : (empty name).Coupled := by
  intro owner child
  have noChildren : (empty name).children owner = [] := by
    rw [children_eq]
    cases held : (empty name).get? owner with
    | none => rfl
    | some element =>
        have first : owner = 0 := Nat.lt_one_iff.mp (get?_lt held)
        subst first
        cases held
        rfl
  have unowned : (empty name).owner child = none := by
    cases held : (empty name).get? child with
    | none => rw [Circuit.owner, held]; rfl
    | some element =>
        have first : child = 0 := Nat.lt_one_iff.mp (get?_lt held)
        subst first
        rfl
  rw [noChildren, unowned]
  rfl

theorem coupled_afterCalls (name : String) (calls : List Call) :
    ((empty name).afterCalls calls).Coupled :=
  coupled_guarded.afterCalls (coupled_empty name) calls

end Circuit

end RelayLogic
