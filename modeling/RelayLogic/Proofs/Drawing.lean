import RelayLogic.Proofs.Adding
import RelayLogic.Proofs.Calls
import Mathlib.Data.List.Nodup

/-!
Drawn circuits. A circuit that only `add` and `bind` calls built is a tree: owners and children
agree, and what kind of element an element may own is known.
-/

namespace RelayLogic

namespace Circuit

variable {belongs : Kind → Kind → Prop} {circuit : Circuit}

/-- Owners and children agree, and every element belongs where it is. -/
structure Tree (belongs : Kind → Kind → Prop) (circuit : Circuit) : Prop where
  root : ∃ element, circuit.get? solution = some element ∧ element.kind = .solution ∧
    element.owner = none
  owned : ∀ id element, circuit.get? id = some element → id ≠ solution →
    ∃ owner container, element.owner = some owner ∧ circuit.get? owner = some container ∧
      id ∈ container.children ∧ belongs container.kind element.kind
  child : ∀ id element, circuit.get? id = some element → ∀ child ∈ element.children,
    ∃ other, circuit.get? child = some other ∧ other.owner = some id
  unique : ∀ id element, circuit.get? id = some element → element.children.Nodup
  plain : ∀ id element, circuit.get? id = some element → element.evaluator = none

namespace Tree

theorem empty (name : String) : Tree belongs (Circuit.empty name) := by
  have only : ∀ id element, (Circuit.empty name).get? id = some element →
      id = solution ∧ element = ⟨name, .solution, none, [], none, none⟩ := by
    intro id element held
    have first : id = 0 := Nat.lt_one_iff.mp (get?_lt held)
    subst first
    cases held
    exact ⟨rfl, rfl⟩
  refine ⟨⟨_, rfl, rfl, rfl⟩, ?_, ?_, ?_, ?_⟩
  · intro id element held notRoot
    exact absurd (only id element held).1 notRoot
  · intro id element held child member
    simp [(only id element held).2] at member
  · intro id element held
    simp [(only id element held).2]
  · intro id element held
    simp [(only id element held).2]

theorem size_pos (tree : Tree belongs circuit) : 0 < circuit.size := by
  obtain ⟨element, held, _⟩ := tree.root
  exact get?_lt held

theorem fits (tree : Tree belongs circuit) {id : ElementId} {element : Element}
    (held : circuit.get? id = some element) (child : Nat) (member : child ∈ element.children) :
    child < circuit.size := by
  obtain ⟨other, found, _⟩ := tree.child id element held child member
  exact get?_lt found

theorem mem_children (tree : Tree belongs circuit) {id child : ElementId} :
    child ∈ circuit.children id ↔ circuit.owner child = some id := by
  constructor
  · intro member
    unfold children at member
    split at member
    next element held =>
      obtain ⟨other, found, owned⟩ := tree.child id element held child member
      simp only [owner, found, Option.bind_some, owned]
    next => contradiction
  · intro owned
    obtain ⟨element, held, owner⟩ := Option.bind_eq_some_iff.mp owned
    have notRoot : child ≠ solution := by
      rintro rfl
      obtain ⟨root, rootHeld, _, noOwner⟩ := tree.root
      rw [held] at rootHeld
      rw [Option.some.inj rootHeld, noOwner] at owner
      contradiction
    obtain ⟨parent, container, parentOwns, containerHeld, member, _⟩ :=
      tree.owned child element held notRoot
    rw [parentOwns] at owner
    cases owner
    simp only [children, containerHeld, member]

theorem nodup_children (tree : Tree belongs circuit) (id : ElementId) :
    (circuit.children id).Nodup := by
  unfold children
  split
  next element held => exact tree.unique id element held
  next => exact List.nodup_nil

theorem owner_solution (tree : Tree belongs circuit) : circuit.owner solution = none := by
  obtain ⟨root, held, _, noOwner⟩ := tree.root
  simp only [owner, held, Option.bind_some, noOwner]

theorem update (tree : Tree belongs circuit) {id : ElementId} {change : Element → Element}
    (kept : ∀ element, circuit.get? id = some element →
      (change element).owner = element.owner ∧ (change element).children = element.children ∧
        (change element).evaluator = element.evaluator ∧
        (∀ kind, belongs kind element.kind → belongs kind (change element).kind) ∧
        (∀ kind, belongs element.kind kind → belongs (change element).kind kind) ∧
        (element.kind = .solution → (change element).kind = .solution)) :
    Tree belongs (circuit.update id change) := by
  have before : ∀ other element, (circuit.update id change).get? other = some element →
      ∃ old, circuit.get? other = some old ∧ element.owner = old.owner ∧
        element.children = old.children ∧ element.evaluator = old.evaluator ∧
        (∀ kind, belongs kind old.kind → belongs kind element.kind) := by
    intro other element held
    rw [get?_update] at held
    split at held
    next same =>
      subst same
      obtain ⟨old, found, rfl⟩ := Option.map_eq_some_iff.mp held
      obtain ⟨owner, children, evaluator, belongsTo, _⟩ := kept old found
      exact ⟨old, found, owner, children, evaluator, belongsTo⟩
    next => exact ⟨element, held, rfl, rfl, rfl, fun _ holds => holds⟩
  have later : ∀ other old, circuit.get? other = some old →
      ∃ element, (circuit.update id change).get? other = some element ∧
        element.owner = old.owner ∧ element.children = old.children ∧
        (∀ kind, belongs old.kind kind → belongs element.kind kind) ∧
        (old.kind = .solution → element.kind = .solution) := by
    intro other old held
    rw [get?_update, held]
    split
    next same =>
      subst same
      obtain ⟨owner, children, _, _, owns, solution⟩ := kept old held
      exact ⟨_, rfl, owner, children, owns, solution⟩
    next => exact ⟨old, rfl, rfl, rfl, fun _ holds => holds, fun isSolution => isSolution⟩
  refine ⟨?_, ?_, ?_, ?_, ?_⟩
  · obtain ⟨old, held, isSolution, noOwner⟩ := tree.root
    obtain ⟨element, found, owner, _, _, stays⟩ := later _ old held
    exact ⟨element, found, stays isSolution, owner.trans noOwner⟩
  · intro other element held notRoot
    obtain ⟨old, found, owner, _, _, belongsTo⟩ := before other element held
    obtain ⟨parent, container, owned, parentFound, member, belonging⟩ :=
      tree.owned other old found notRoot
    obtain ⟨grown, grownFound, _, children, owns, _⟩ := later parent container parentFound
    exact ⟨parent, grown, owner.trans owned, grownFound, children ▸ member,
      belongsTo _ (owns _ belonging)⟩
  · intro other element held child member
    obtain ⟨old, found, _, children, _⟩ := before other element held
    obtain ⟨below, belowFound, owner⟩ := tree.child other old found child (children ▸ member)
    obtain ⟨grown, grownFound, same, _⟩ := later child below belowFound
    exact ⟨grown, grownFound, same.trans owner⟩
  · intro other element held
    obtain ⟨old, found, _, children, _⟩ := before other element held
    rw [children]
    exact tree.unique other old found
  · intro other element held
    obtain ⟨old, found, _, _, evaluator, _⟩ := before other element held
    rw [evaluator]
    exact tree.plain other old found

theorem refine {other : Kind → Kind → Prop} (tree : Tree belongs circuit)
    (refined : ∀ id element owner container, circuit.get? id = some element →
      element.owner = some owner → circuit.get? owner = some container →
        belongs container.kind element.kind → other container.kind element.kind) :
    Tree other circuit := by
  refine ⟨tree.root, fun id element held notRoot => ?_, tree.child, tree.unique, tree.plain⟩
  obtain ⟨owner, container, owned, containerHeld, member, belonging⟩ :=
    tree.owned id element held notRoot
  exact ⟨owner, container, owned, containerHeld, member,
    refined id element owner container held owned containerHeld belonging⟩

theorem plant (tree : Tree belongs circuit) {owner : Nat} {container : Element}
    (held : circuit.get? owner = some container) {pins : List (String × Pin)} {name : String}
    {kind : Kind} (belonging : belongs container.kind kind)
    (pinsBelong : ∀ pin ∈ pins, belongs kind (.pin pin.2)) :
    Tree belongs (circuit.plant owner pins name kind) := by
  have known : owner < circuit.size := get?_lt held
  constructor
  case root =>
    obtain ⟨element, found, isSolution, noOwner⟩ := tree.root
    exact ⟨_, get?_plant_old found owner pins name kind, isSolution, noOwner⟩
  case owned =>
    intro id element found notRoot
    rcases get?_plant_cases found with ⟨old, before, rfl⟩ |
      ⟨index, pinName, pin, pinHeld, rfl, rfl⟩ | ⟨rfl, rfl⟩
    · obtain ⟨parent, above, owned, parentHeld, member, belonging⟩ :=
        tree.owned id old before notRoot
      refine ⟨parent, _, owned, get?_plant_old parentHeld owner pins name kind, ?_, belonging⟩
      simp only
      split
      · exact List.mem_append_left _ member
      · exact member
    · have bound := (List.getElem?_eq_some_iff.mp pinHeld).1
      refine ⟨_, _, rfl, get?_plant_new circuit owner pins name kind, ?_, ?_⟩
      · exact List.mem_range'_1.mpr ⟨by omega, by omega⟩
      · exact pinsBelong _ (List.mem_of_getElem? pinHeld)
    · refine ⟨owner, _, rfl, get?_plant_old held owner pins name kind, ?_, belonging⟩
      simp
  case child =>
    intro id element found child member
    rcases get?_plant_cases found with ⟨old, before, rfl⟩ |
      ⟨index, pinName, pin, pinHeld, rfl, rfl⟩ | ⟨rfl, rfl⟩
    · have listed : child ∈ old.children ∨ id = owner ∧ child = circuit.size + pins.length := by
        simp only at member
        split at member
        next same => simpa [same] using member
        next => exact Or.inl member
      rcases listed with listed | ⟨rfl, rfl⟩
      · obtain ⟨other, otherHeld, owned⟩ := tree.child id old before child listed
        exact ⟨_, get?_plant_old otherHeld owner pins name kind, owned⟩
      · exact ⟨_, get?_plant_new circuit id pins name kind, rfl⟩
    · simp [sprout] at member
    · obtain ⟨lower, upper⟩ := List.mem_range'_1.mp member
      obtain ⟨index, rfl⟩ := Nat.exists_eq_add_of_le lower
      have early : index < pins.length := by omega
      exact ⟨_, get?_plant_pin circuit owner (List.getElem?_eq_getElem early) name kind, rfl⟩
  case unique =>
    intro id element found
    rcases get?_plant_cases found with ⟨old, before, rfl⟩ |
      ⟨index, pinName, pin, pinHeld, rfl, rfl⟩ | ⟨rfl, rfl⟩
    · simp only
      split
      · refine List.nodup_append.mpr ⟨tree.unique id old before, List.nodup_singleton _, ?_⟩
        rintro child member _ last rfl
        have fits := tree.fits before child member
        rw [List.mem_singleton.mp last] at fits
        omega
      · exact tree.unique id old before
    · exact List.nodup_nil
    · exact List.nodup_range'
  case plain =>
    intro id element found
    rcases get?_plant_cases found with ⟨old, before, rfl⟩ |
      ⟨index, pinName, pin, pinHeld, rfl, rfl⟩ | ⟨rfl, rfl⟩
    · exact tree.plain id old before
    · rfl
    · rfl

end Tree

def Suits (circuit : Circuit) (container : Kind) (pins : List Pin) : Kind → Prop
  | .project | .tag _ _ => container = .solution ∧ pins = []
  | .context => container = .project ∧ pins = []
  | .pin pin => pin = .floating ∧ pins = []
  | .wire wire => pins = [] ∧ circuit.isPin wire.start ∧ circuit.isPin wire.stop
  | .signal tag => pins = [.fixed .input, .fixed .output] ∧ ∀ id ∈ tag, circuit.IsTag id
  | .gate _ | .timer _ _ | .memory _ => pins = [.floating, .floating, .floating, .floating]
  | .solution => False

/-- What a drawing call makes of a circuit. -/
inductive Draws (circuit : Circuit) : Circuit → Prop
  | nothing : Draws circuit circuit
  | plant {owner : Nat} {container pins name kind}
      (held : circuit.get? owner = some container) (contains : container.kind.isContainer)
      (suits : circuit.Suits container.kind (pins.map (·.2)) kind) :
      Draws circuit (circuit.plant owner pins name kind)
  | bind {signal tag} (isSignal : circuit.IsSignal signal) (isTag : circuit.IsTag tag) :
      Draws circuit (circuit.update signal fun element =>
        { element with kind := .signal (some tag) })

end Circuit

namespace Build

open Change (after after_map)

variable {circuit : Circuit}

theorem after_bind_ok {first : Build α} {next : α → Build β} {answer : α} {changed : Circuit}
    (done : first circuit = .ok answer changed) :
    after (first >>= next) circuit = after (next answer) changed := by
  simp only [after, bind_ok done]

theorem after_ok {build : Build α} {answer : α} {changed : Circuit}
    (done : build circuit = .ok answer changed) : after build circuit = changed := by
  simp only [after, done]

theorem after_error {build : Build α} {error : Error} {changed : Circuit}
    (failed : build circuit = .error error changed) : after build circuit = changed := by
  simp only [after, failed]

theorem after_bind_pure (build : Build α) (answer : β) :
    after (build >>= fun _ => pure answer) circuit = after build circuit := by
  show after (EStateM.bind build fun _ => EStateM.pure answer) circuit = _
  simp only [after, EStateM.bind]
  cases build circuit <;> rfl

variable {belongs : Kind → Kind → Prop}

theorem draws_push {owner : Nat} {container : Element} {kind : Kind} (name : String)
    (held : circuit.get? owner = some container) (contains : container.kind.isContainer)
    (suits : circuit.Suits container.kind [] kind) :
    circuit.Draws (after (push owner name kind) circuit) := by
  show circuit.Draws (circuit.push owner name kind)
  rw [Circuit.push_eq_plant (Circuit.get?_lt held)]
  exact .plant held contains suits

theorem draws_addPin (owner : Nat) (name : String) :
    circuit.Draws (after (addPin owner name) circuit) := by
  rcases addPin_cases circuit owner name with ⟨container, held, contains⟩ | ⟨error, failed⟩
  · rw [addPin, after_bind_ok (expect_ok held contains)]
    exact draws_push name held contains ⟨rfl, rfl⟩
  · rw [after_error failed]
    exact .nothing

theorem draws_addContext (project : Nat) (name : String) :
    circuit.Draws (after (addContext project name) circuit) := by
  rcases addContext_cases circuit project name with ⟨container, held, isProject⟩ | ⟨error, failed⟩
  · rw [after_ok (addContext_ok held isProject name)]
    exact .plant held (by rw [isProject]; rfl) ⟨isProject, rfl⟩
  · rw [after_error failed]
    exact .nothing

theorem draws_addLogic (tree : circuit.Tree belongs) (owner : Nat) {kind : Kind}
    (logic : kind.isLogic) (name : String) :
    circuit.Draws (after (addLogic owner kind name) circuit) := by
  rcases addLogic_cases circuit owner kind name with
    ⟨container, held, contains⟩ | ⟨error, failed⟩
  · rw [after_ok (addLogic_ok held contains (tree.fits held) logic name)]
    refine .plant held contains ?_
    cases kind <;> first | rfl | contradiction
  · rw [after_error failed]
    exact .nothing

theorem draws_addSignal (tree : circuit.Tree belongs) (owner : Nat) (name : String)
    (tag : Option ElementId) : circuit.Draws (after (addSignal owner name tag) circuit) := by
  rcases addSignal_cases circuit owner name tag with
    ⟨container, held, contains, tagged⟩ | ⟨error, failed⟩
  · rw [after_ok (addSignal_ok held contains (tree.fits held) tagged name)]
    exact .plant held contains ⟨rfl, tagged⟩
  · rw [after_error failed]
    exact .nothing

theorem draws_addWire (owner : Nat) (start stop : ElementId) (invertStart invertStop : Bool) :
    circuit.Draws (after (addWire owner start stop invertStart invertStop) circuit) := by
  rcases addWire_cases circuit owner start stop invertStart invertStop with
    ⟨container, held, contains, arePins, different⟩ | ⟨error, failed⟩
  · rw [after_ok (addWire_ok held contains arePins different invertStart invertStop)]
    exact .plant held contains ⟨rfl, arePins start (by simp), arePins stop (by simp)⟩
  · rw [after_error failed]
    exact .nothing

theorem draws_bindTag (signal tag : ElementId) :
    circuit.Draws (after (bindTag signal tag) circuit) := by
  rcases bindTag_cases circuit signal tag with ⟨isSignal, isTag⟩ | ⟨error, failed⟩
  · obtain ⟨element, held, signals⟩ := isSignal
    obtain ⟨onto, ontoHeld, tags⟩ := isTag
    rw [after_ok (bindTag_ok held signals ontoHeld tags)]
    exact .bind ⟨element, held, signals⟩ ⟨onto, ontoHeld, tags⟩
  · rw [after_error failed]
    exact .nothing

theorem draws_call (tree : circuit.Tree belongs) {call : Call} (drawing : call.isDrawing) :
    circuit.Draws (after call.build circuit) := by
  obtain ⟨root, rootHeld, isSolution, _⟩ := tree.root
  have contains : root.kind.isContainer := by rw [isSolution]; rfl
  cases call with
  | addProject name =>
      rw [Call.build, after_map]
      exact draws_push name rootHeld contains ⟨isSolution, rfl⟩
  | addContext project name =>
      rw [Call.build, after_map]
      exact draws_addContext project name
  | addTag name initial =>
      rw [Call.build, after_map]
      exact draws_push name rootHeld contains ⟨isSolution, rfl⟩
  | addPin container name =>
      rw [Call.build, after_map]
      exact draws_addPin container name
  | addSignal context name tag =>
      rw [Call.build, after_map]
      exact draws_addSignal tree context name tag
  | addGate context kind name =>
      rw [Call.build, after_map]
      exact draws_addLogic tree context rfl name
  | addTimer context kind name delay =>
      rw [Call.build, after_map]
      exact draws_addLogic tree context rfl name
  | addMemory context kind name =>
      rw [Call.build, after_map]
      exact draws_addLogic tree context rfl name
  | addWire context start stop invertStart invertStop =>
      rw [Call.build, after_map]
      exact draws_addWire context start stop invertStart invertStop
  | bindTag signal tag =>
      rw [Call.build, after_bind_pure]
      exact draws_bindTag signal tag
  | _ => contradiction

end Build

def Kind.Owns (owner : Kind) : Kind → Prop
  | .solution => False
  | .project | .tag _ _ => owner = .solution
  | .context => owner = .project
  | .pin point =>
    owner.isSignal ∧ (point = .fixed .input ∨ point = .fixed .output) ∨
      (owner.isContainer ∨ owner.isLogic) ∧ point = .floating
  | .wire _ | .signal _ | .gate _ | .timer _ _ | .memory _ => owner.isContainer

namespace Circuit

variable {circuit drawn : Circuit}

theorem Suits.owns {container kind : Kind} {pins : List Pin} (contains : container.isContainer)
    (suits : circuit.Suits container pins kind) : container.Owns kind := by
  cases kind with
  | solution => exact suits
  | project | tag _ _ | context => exact suits.1
  | pin pin => exact Or.inr ⟨Or.inl contains, suits.1⟩
  | _ => exact contains

theorem Suits.owns_pins {container kind : Kind} {pins : List Pin}
    (suits : circuit.Suits container pins kind) : ∀ pin ∈ pins, kind.Owns (.pin pin) := by
  intro pin member
  have logic : kind.isLogic → pins = [.floating, .floating, .floating, .floating] →
      kind.Owns (.pin pin) := by
    intro logic four
    rw [four] at member
    exact Or.inr ⟨Or.inr logic, by simpa using member⟩
  cases kind with
  | solution => exact suits.elim
  | project | tag _ _ | context | pin _ =>
      rw [suits.2] at member
      contradiction
  | wire _ =>
      rw [suits.1] at member
      contradiction
  | signal _ =>
      rw [suits.1] at member
      exact Or.inl ⟨rfl, by simpa using member⟩
  | gate _ | timer _ _ | memory _ => exact logic rfl suits

theorem Draws.tree (draws : circuit.Draws drawn) (tree : circuit.Tree Kind.Owns) :
    drawn.Tree Kind.Owns := by
  cases draws with
  | nothing => exact tree
  | plant held contains suits =>
      refine tree.plant held (suits.owns contains) fun pin member => ?_
      exact suits.owns_pins _ (List.mem_map_of_mem member)
  | bind isSignal isTag =>
      obtain ⟨signal, held, isSignal⟩ := isSignal
      refine tree.update fun element found => ⟨rfl, rfl, rfl, ?_⟩
      rw [Option.some.inj (held.symm.trans found)] at isSignal
      obtain ⟨name, kind, owner, children, evaluator, block⟩ := element
      cases kind with
      | signal _ =>
          refine ⟨fun _ owns => owns, fun kind owns => ?_, nofun⟩
          cases kind with
          | project | tag _ _ | context => cases owns
          | _ => exact owns
      | _ => contradiction

/-- Drawing calls lead from an empty circuit to a tree. -/
theorem tree_afterCalls (name : String) {calls : List Call}
    (drawing : ∀ call ∈ calls, call.isDrawing) :
    ((empty name).afterCalls calls).Tree Kind.Owns := by
  have steps : ∀ (calls : List Call) (circuit : Circuit), circuit.Tree Kind.Owns →
      (∀ call ∈ calls, call.isDrawing) → (circuit.afterCalls calls).Tree Kind.Owns := by
    intro calls
    induction calls with
    | nil => exact fun _ tree _ => tree
    | cons call calls ih =>
        intro circuit tree drawing
        exact ih _ ((Build.draws_call tree (drawing call List.mem_cons_self)).tree tree)
          fun other member => drawing other (List.mem_cons_of_mem _ member)
  exact steps calls _ (Tree.empty name) drawing

end Circuit

end RelayLogic
