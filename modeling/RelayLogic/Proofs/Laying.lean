import RelayLogic.Proofs.Edge
import RelayLogic.Proofs.Encoding

/-!
Laying circuits out. Elements are planted one after the other, and what is said of them afterwards
moves none. If each is planted at the edge, the elements stand in their order in the arena.
-/

namespace RelayLogic

def Kind.bare : Kind → Kind
  | .tag initial _ => .tag initial []
  | kind => kind

theorem Kind.bare_eq_iff {kind other : Kind} (notTag : other.isTag = false) :
    kind.bare = other ↔ kind = other := by
  cases kind with
  | tag initial properties => cases other <;> simp [bare, isTag] at notTag ⊢
  | _ => exact Iff.rfl

theorem Kind.isTag_of_bare {kind other : Kind} (same : other.bare = kind.bare)
    (isTag : kind.isTag) : other.isTag := by
  cases kind <;> cases other <;> simp [bare, Kind.isTag] at same isTag ⊢

theorem Kind.eq_of_bare {kind other : Kind} (same : other.bare = kind.bare)
    (notTag : kind.isTag = false) : other = kind := by
  rw [(bare_eq_iff notTag).mpr rfl] at same
  exact (bare_eq_iff notTag).mp same

theorem Kind.isLeaf_of_isTag {kind : Kind} (isTag : kind.isTag) : kind.isLeaf := by
  cases kind <;> simp [Kind.isTag, isLeaf] at isTag ⊢

theorem Kind.isContainer_bare (kind : Kind) : kind.bare.isContainer = kind.isContainer := by
  cases kind <;> rfl

theorem Kind.nests_of_bare {owner other kind second : Kind} (same : other.bare = owner.bare)
    (sameKind : second.bare = kind.bare) (nests : owner.Nests kind) : other.Nests second := by
  have notTag : owner.isTag = false := by
    by_contra isTag
    exact not_nests (isLeaf_of_isTag (by simpa using isTag)) kind nests
  rw [eq_of_bare same notTag]
  cases kind with
  | tag initial properties =>
      have isTag := isTag_of_bare sameKind rfl
      cases second <;> first | exact nests | simp [Kind.isTag] at isTag
  | _ =>
      rw [eq_of_bare sameKind rfl]
      exact nests

namespace Circuit

variable {circuit middle grown : Circuit}

def Extends (circuit grown : Circuit) : Prop :=
  ∀ id element, circuit.get? id = some element → ∃ other, grown.get? id = some other ∧
    other.owner = element.owner ∧ other.kind.bare = element.kind.bare

namespace Extends

theorem refl (circuit : Circuit) : circuit.Extends circuit :=
  fun _ element held => ⟨element, held, rfl, rfl⟩

theorem trans (first : circuit.Extends middle) (second : middle.Extends grown) :
    circuit.Extends grown := by
  intro id element held
  obtain ⟨between, betweenHeld, owner, kind⟩ := first id element held
  obtain ⟨other, otherHeld, sameOwner, sameKind⟩ := second id between betweenHeld
  exact ⟨other, otherHeld, sameOwner.trans owner, sameKind.trans kind⟩

theorem plant (circuit : Circuit) (owner : ElementId) (pins : List (String × Pin)) (name : String)
    (kind : Kind) : circuit.Extends (circuit.plant owner pins name kind) :=
  fun _ _ held => ⟨_, get?_plant_old held owner pins name kind, rfl, rfl⟩

variable (keeps : circuit.Extends grown) {id : ElementId} {element : Element}

include keeps

theorem owner (held : circuit.get? id = some element) : grown.owner id = circuit.owner id := by
  obtain ⟨other, otherHeld, owner, _⟩ := keeps id element held
  simp only [Circuit.owner, held, otherHeld, Option.bind_some, owner]

theorem owned {owner : ElementId} (owned : circuit.owner id = some owner) :
    grown.owner id = some owner := by
  obtain ⟨element, held, _⟩ := Option.bind_eq_some_iff.mp owned
  rw [keeps.owner held, owned]

theorem kind {kind : Kind} (notTag : kind.isTag = false) (held : circuit.get? id = some element)
    (isKind : element.kind = kind) :
    ∃ other, grown.get? id = some other ∧ other.kind = kind := by
  obtain ⟨other, otherHeld, _, same⟩ := keeps id element held
  refine ⟨other, otherHeld, (Kind.bare_eq_iff notTag).mp ?_⟩
  rw [same, isKind, (Kind.bare_eq_iff notTag).mpr rfl]

theorem isTag (isTag : circuit.IsTag id) : grown.IsTag id := by
  obtain ⟨element, held, isTag⟩ := isTag
  obtain ⟨other, otherHeld, _, same⟩ := keeps id element held
  exact ⟨other, otherHeld, Kind.isTag_of_bare same isTag⟩

theorem near {wire pin : Nat} (bound : wire < circuit.size) (near : circuit.Near wire pin) :
    grown.Near wire pin := by
  obtain ⟨member, less, same, isPin⟩ := near
  obtain ⟨element, held⟩ := exists_get? bound
  obtain ⟨other, otherHeld⟩ := exists_get? (Nat.lt_trans less bound)
  refine ⟨member, less, ?_, isPin.imp_right keeps.owned⟩
  rw [keeps.owner held, keeps.owner otherHeld, same]

end Extends

def Retouches (circuit : Circuit) (id : ElementId) (change : Element → Element) : Prop :=
  ∀ element, circuit.get? id = some element → (change element).name = element.name ∧
    (change element).owner = element.owner ∧ (change element).children = element.children ∧
      (change element).evaluator = element.evaluator ∧
        (change element).kind.bare = element.kind.bare

namespace Retouches

variable {target : ElementId} {change : Element → Element}
  (retouches : circuit.Retouches target change)

include retouches

theorem before {id : ElementId} {element : Element}
    (held : (circuit.update target change).get? id = some element) :
    ∃ old, circuit.get? id = some old ∧ element.name = old.name ∧ element.owner = old.owner ∧
      element.children = old.children ∧ element.kind.bare = old.kind.bare := by
  rw [get?_update] at held
  split at held
  next same =>
    subst same
    obtain ⟨old, found, rfl⟩ := Option.map_eq_some_iff.mp held
    obtain ⟨name, owner, children, _, kind⟩ := retouches old found
    exact ⟨old, found, name, owner, children, kind⟩
  next => exact ⟨element, held, rfl, rfl, rfl, rfl⟩

theorem keeps : circuit.Extends (circuit.update target change) := by
  intro id element held
  rw [get?_update, held]
  split
  next same =>
    subst same
    obtain ⟨_, owner, _, _, kind⟩ := retouches element held
    exact ⟨_, rfl, owner, kind⟩
  next => exact ⟨element, rfl, rfl, rfl⟩

theorem children (id : ElementId) :
    (circuit.update target change).children id = circuit.children id := by
  unfold Circuit.children
  rw [get?_update]
  by_cases same : id = target
  · subst same
    cases held : circuit.get? id with
    | none => simp
    | some element => simpa using (retouches element held).2.2.1
  · simp [same]

theorem inOrder (height : Nat) (root : ElementId) :
    (circuit.update target change).inOrder height root = circuit.inOrder height root :=
  inOrder_congr fun id _ => retouches.children id

theorem edge {height root level id : Nat} (edge : circuit.Edge height root level id) :
    (circuit.update target change).Edge height root level id := by
  induction edge with
  | here => exact .here
  | last listed _ ih => exact .last ((retouches.children _).trans listed) ih

theorem laid (laid : circuit.Laid) : (circuit.update target change).Laid := by
  constructor
  case tree =>
    refine laid.tree.update fun element held => ?_
    obtain ⟨_, owner, children, evaluator, kind⟩ := retouches element held
    refine ⟨owner, children, evaluator, fun _ => Kind.nests_of_bare rfl kind,
      fun _ => Kind.nests_of_bare kind rfl, fun isSolution => ?_⟩
    rw [isSolution] at kind
    exact (Kind.bare_eq_iff rfl).mp kind
  case sorted =>
    intro id element held
    obtain ⟨old, oldHeld, _, _, children, _⟩ := retouches.before held
    rw [children]
    exact laid.sorted id old oldHeld
  case near =>
    intro id element wire held isWire
    obtain ⟨old, oldHeld, _, _, _, kind⟩ := retouches.before held
    rw [isWire] at kind
    have wasWire := (Kind.bare_eq_iff rfl).mp kind.symm
    obtain ⟨start, stop⟩ := laid.near id old wire oldHeld wasWire
    have bound := get?_lt oldHeld
    exact ⟨retouches.keeps.near bound start, retouches.keeps.near bound stop⟩
  case packed =>
    intro id element held notContainer pin member
    obtain ⟨old, oldHeld, _, owner, children, kind⟩ := retouches.before held
    rw [← Kind.isContainer_bare, kind, Kind.isContainer_bare] at notContainer
    obtain ⟨less, between⟩ := laid.packed id old oldHeld notContainer pin (children ▸ member)
    refine ⟨less, fun other below sibling => between other below ?_⟩
    obtain ⟨found, foundHeld⟩ := exists_get? (Nat.lt_trans below (get?_lt oldHeld))
    rw [← retouches.keeps.owner foundHeld, sibling, owner]
  case early =>
    intro id element held isTag other less notRoot
    obtain ⟨old, oldHeld, _, _, _, kind⟩ := retouches.before held
    exact retouches.keeps.isTag
      (laid.early id old oldHeld (Kind.isTag_of_bare kind.symm isTag) other less notRoot)

end Retouches

def Within (circuit : Circuit) (owner pin : Nat) : Prop :=
  ∃ member, circuit.owner member = some owner ∧ (pin = member ∨ circuit.owner pin = some member)

def OnlyTags (circuit : Circuit) : Prop :=
  ∀ id < circuit.size, id ≠ solution → circuit.IsTag id

def Reaches (circuit : Circuit) (owner : Nat) (kind : Kind) : Prop :=
  ∀ wire, kind = .wire wire → circuit.Within owner wire.start ∧ circuit.Within owner wire.stop

section Plant

variable {owner : Nat} {container : Element} {pins : List (String × Pin)} {kind : Kind}

theorem Within.near {pin : Nat} (within : circuit.Within owner pin) (name : String) :
    (circuit.plant owner pins name kind).Near (circuit.size + pins.length) pin := by
  obtain ⟨member, owned, isPin⟩ := within
  obtain ⟨element, held, _⟩ := Option.bind_eq_some_iff.mp owned
  have keeps := Extends.plant circuit owner pins name kind
  refine ⟨member, Nat.lt_of_lt_of_le (get?_lt held) (Nat.le_add_right _ _), ?_,
    isPin.imp_right keeps.owned⟩
  rw [owner_plant_new, keeps.owned owned]

theorem Laid.plant (laid : circuit.Laid) (held : circuit.get? owner = some container)
    (contains : container.kind.isContainer) (nests : container.kind.Nests kind)
    (pinsNest : ∀ pin ∈ pins, kind.Nests (.pin pin.2)) (reaches : circuit.Reaches owner kind)
    (first : kind.isTag → circuit.OnlyTags) (name : String) :
    (circuit.plant owner pins name kind).Laid := by
  constructor
  case tree => exact laid.tree.plant held nests pinsNest
  case sorted =>
    intro id element found
    rcases get?_plant_cases found with ⟨old, before, rfl⟩ |
      ⟨index, pinName, pin, pinHeld, rfl, rfl⟩ | ⟨rfl, rfl⟩
    · simp only
      split
      · refine List.pairwise_append.mpr ⟨laid.sorted id old before, List.pairwise_singleton _ _, ?_⟩
        intro child member last isLast
        rw [List.mem_singleton.mp isLast]
        exact Nat.lt_of_lt_of_le (laid.tree.fits before child member) (Nat.le_add_right _ _)
      · exact laid.sorted id old before
    · exact List.Pairwise.nil
    · exact List.pairwise_lt_range'
  case near =>
    intro id element wire found isWire
    rcases get?_plant_cases found with ⟨old, before, rfl⟩ |
      ⟨index, pinName, pin, pinHeld, rfl, rfl⟩ | ⟨rfl, rfl⟩
    · obtain ⟨start, stop⟩ := laid.near id old wire before isWire
      have keeps := Extends.plant circuit owner pins name kind
      exact ⟨keeps.near (get?_lt before) start, keeps.near (get?_lt before) stop⟩
    · contradiction
    · obtain ⟨start, stop⟩ := reaches wire isWire
      exact ⟨start.near name, stop.near name⟩
  case packed =>
    intro id element found notContainer pin member
    rcases get?_plant_cases found with ⟨old, before, rfl⟩ |
      ⟨index, pinName, pin, pinHeld, rfl, rfl⟩ | ⟨rfl, rfl⟩
    · have different : id ≠ owner := by
        rintro rfl
        rw [held] at before
        rw [← Option.some.inj before, contains] at notContainer
        contradiction
      simp only [different, ↓reduceIte] at member
      obtain ⟨less, between⟩ := laid.packed id old before notContainer pin member
      refine ⟨less, fun other below sibling => between other below ?_⟩
      obtain ⟨_, otherHeld⟩ := exists_get? (Nat.lt_trans below (get?_lt before))
      rwa [← (Extends.plant circuit owner pins name kind).owner otherHeld]
    · contradiction
    · obtain ⟨low, high⟩ := List.mem_range'_1.mp member
      refine ⟨high, fun other below sibling => Nat.lt_of_lt_of_le ?_ low⟩
      by_contra new
      obtain ⟨twin, twinHeld, _⟩ := Option.bind_eq_some_iff.mp sibling
      rcases get?_plant_cases twinHeld with ⟨_, old, _⟩ |
        ⟨index, pinName, point, pointHeld, rfl, rfl⟩ | ⟨rfl, _⟩
      · exact new (get?_lt old)
      · simp only [Circuit.owner, twinHeld, Option.bind_some, sprout, Option.some.injEq] at sibling
        exact Nat.not_lt.mpr (Nat.le_add_right _ _) (sibling ▸ get?_lt held)
      · exact Nat.lt_irrefl _ below
  case early =>
    intro id element found isTag other less notRoot
    have keeps := Extends.plant circuit owner pins name kind
    rcases get?_plant_cases found with ⟨old, before, rfl⟩ |
      ⟨index, pinName, pin, pinHeld, rfl, rfl⟩ | ⟨rfl, rfl⟩
    · exact keeps.isTag (laid.early id old before isTag other less notRoot)
    · contradiction
    · have noPins : pins = [] := by
        refine List.eq_nil_iff_forall_not_mem.mpr fun pin member => ?_
        exact Kind.not_nests (Kind.isLeaf_of_isTag isTag) _ (pinsNest pin member)
      subst noPins
      exact keeps.isTag (first isTag other less notRoot)

variable {level : Nat} (laid : circuit.Laid)

include laid

theorem Laid.children_plant (name : String) (kind : Kind) {other : Nat}
    (member : other ∈ circuit.order) (different : other ≠ owner) :
    (circuit.plant owner pins name kind).children other = circuit.children other := by
  have bound := (laid.tree.mem_order_iff laid.tree.shallow fun _ _ => laid.tree.reach).mp member
  obtain ⟨old, oldHeld⟩ := exists_get? bound
  exact children_plant_old pins name kind oldHeld different

theorem Edge.plant (edge : circuit.Edge 3 solution level owner) (name : String) (kind : Kind) :
    (circuit.plant owner pins name kind).Edge 3 solution level owner := by
  have rooted : circuit.above 0 solution = some solution := rfl
  exact edge.keep laid.tree rooted fun _ member different =>
    laid.children_plant name kind member different

theorem Laid.order_plant (held : circuit.get? owner = some container)
    (edge : circuit.Edge 3 solution (level + 1) owner)
    (flat : level = 0 ∨ pins = []) (name : String) (kind : Kind) :
    (circuit.plant owner pins name kind).order =
      circuit.order ++ List.range' circuit.size (pins.length + 1) := by
  have rooted : circuit.above 0 solution = some solution := rfl
  have new : (circuit.plant owner pins name kind).inOrder level (circuit.size + pins.length) =
      List.range' circuit.size (pins.length + 1) := by
    have own := children_plant_new pins name kind circuit owner
    cases level with
    | zero => rw [inOrder, own, List.range'_1_concat]
    | succ level =>
        rcases flat with zero | rfl
        · contradiction
        · rw [inOrder, own]
          rfl
  rw [← new]
  exact edge.grow laid.tree rooted (children_plant_owner pins name kind held)
    fun _ member different => laid.children_plant name kind member different

end Plant

/-- What has been laid out of a circuit whose tags have names of some form. If it is done in order,
the elements stand in their order. -/
structure Sketch (named : String → Prop) (sorted : Prop) (circuit : Circuit) : Prop where
  laid : circuit.Laid
  inRange : sorted → circuit.order = List.range circuit.size
  named : ∀ id element, circuit.get? id = some element → element.kind.isTag → named element.name

structure Sketch.Grows (named : String → Prop) (sorted : Prop) (level owner : Nat) (kind : Kind)
    (circuit : Circuit) (new : Nat) (grown : Circuit) : Prop where
  sketch : Sketch named sorted grown
  keeps : circuit.Extends grown
  held : ∃ element, grown.get? new = some element ∧ element.owner = some owner ∧
    element.kind.bare = kind.bare
  edge : sorted → grown.Edge 3 solution (level + 1) owner
  newEdge : sorted → grown.Edge 3 solution level new

namespace Sketch

variable {named : String → Prop} {sorted : Prop} {level owner new : Nat}

theorem empty (name : String) : Sketch named sorted (.empty name) := by
  have only : ∀ {id element}, (Circuit.empty name).get? id = some element →
      element = ⟨name, .solution, none, [], none, none⟩ := by
    intro id element held
    have first : id = 0 := Nat.lt_one_iff.mp (get?_lt held)
    subst first
    cases held
    rfl
  refine ⟨⟨.empty name, ?_, ?_, ?_, ?_⟩, fun _ => rfl, ?_⟩
  · intro id element held
    rw [only held]
    exact List.Pairwise.nil
  · intro id element wire held isWire
    rw [only held] at isWire
    contradiction
  · intro id element held notContainer
    rw [only held] at notContainer
    contradiction
  · intro id element held isTag
    rw [only held] at isTag
    contradiction
  · intro id element held isTag
    rw [only held] at isTag
    contradiction

theorem plant (sketch : Sketch named sorted circuit) {container : Element}
    {pins : List (String × Pin)} {name : String} {kind : Kind}
    (held : circuit.get? owner = some container) (contains : container.kind.isContainer)
    (nests : container.kind.Nests kind) (pinsNest : ∀ pin ∈ pins, kind.Nests (.pin pin.2))
    (reaches : circuit.Reaches owner kind) (flat : level = 0 ∨ pins = [])
    (edge : sorted → circuit.Edge 3 solution (level + 1) owner)
    (isNamed : kind.isTag → named name ∧ circuit.OnlyTags) :
    Sketch.Grows named sorted level owner kind circuit (circuit.size + pins.length)
      (circuit.plant owner pins name kind) := by
  have laid := sketch.laid.plant held contains nests pinsNest reaches
    (fun isTag => (isNamed isTag).2) name
  constructor
  case sketch =>
    refine ⟨laid, fun inOrder => ?_, fun id element found isTag => ?_⟩
    · have range := sketch.inRange inOrder
      rw [sketch.laid.order_plant held (edge inOrder) flat name kind, range, size_plant,
        List.range_eq_range', List.range_eq_range', Nat.add_assoc]
      simpa using @List.range'_append_1 0 circuit.size (pins.length + 1)
    · rcases get?_plant_cases found with ⟨old, before, rfl⟩ |
        ⟨index, pinName, pin, pinHeld, rfl, rfl⟩ | ⟨rfl, rfl⟩
      · exact sketch.named id old before isTag
      · contradiction
      · exact (isNamed isTag).1
  case keeps => exact .plant circuit owner pins name kind
  case held => exact ⟨_, get?_plant_new circuit owner pins name kind, rfl, rfl⟩
  case edge => exact fun inOrder => (edge inOrder).plant sketch.laid name kind
  case newEdge =>
    exact fun inOrder => ((edge inOrder).plant sketch.laid name kind).under
      (children_plant_owner pins name kind held)

theorem Grows.update {kind : Kind} (grows : Grows named sorted level owner kind circuit new grown)
    {change : Element → Element} {target : ElementId}
    (retouches : grown.Retouches target change) :
    Grows named sorted level owner kind circuit new (grown.update target change) := by
  constructor
  case sketch =>
    refine ⟨retouches.laid grows.sketch.laid, fun inOrder => ?_, fun id element held isTag => ?_⟩
    · rw [size_update, ← grows.sketch.inRange inOrder]
      exact retouches.inOrder 3 solution
    · obtain ⟨old, oldHeld, name, _, _, bare⟩ := retouches.before held
      rw [name]
      exact grows.sketch.named id old oldHeld (Kind.isTag_of_bare bare.symm isTag)
  case keeps => exact grows.keeps.trans retouches.keeps
  case held =>
    obtain ⟨element, held, owner, bare⟩ := grows.held
    obtain ⟨other, otherHeld, sameOwner, sameKind⟩ := retouches.keeps new element held
    exact ⟨other, otherHeld, sameOwner.trans owner, sameKind.trans bare⟩
  case edge => exact fun inOrder => retouches.edge (grows.edge inOrder)
  case newEdge => exact fun inOrder => retouches.edge (grows.newEdge inOrder)

end Sketch

end Circuit

end RelayLogic
