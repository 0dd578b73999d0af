import RelayLogic.Proofs.Rooting
import RelayLogic.Proofs.Saving

/-!
Pins that keep their direction. Logic may take the fixed pins of a signal, but then the signal is
left without its own for good, so in a valid circuit pins are fixed where signals own them and
nowhere else.
-/

namespace RelayLogic.Circuit

variable {circuit drawn : Circuit}

def AreFixed (circuit : Circuit) (pins : List ElementId) : Prop :=
  ∃ input output, pins = [input, output] ∧ circuit.kind? input = some (.pin (.fixed .input)) ∧
    circuit.kind? output = some (.pin (.fixed .output))

/-- Whether pins are fixed where signals own them, a fixed input and then a fixed output each, and
any direction can be inferred for all others. -/
structure FixedBySignals (circuit : Circuit) : Prop where
  pins : ∀ id element point, circuit.get? id = some element → element.kind = .pin point →
    ∃ owner container, element.owner = some owner ∧ circuit.get? owner = some container ∧
      id ∈ container.children ∧ (point.resets = false ↔ container.kind.isSignal) ∧
        (¬container.kind.isSignal → point = .floating)
  signals : ∀ id element, circuit.get? id = some element → element.kind.isSignal →
    circuit.AreFixed element.children

theorem Sound.fixedBySignals {rules : Rules} (sound : circuit.Sound rules)
    (valid : circuit.validate = .ok ()) : circuit.FixedBySignals := by
  have tree := sound.owns valid
  constructor
  case pins =>
    intro id element point held isPin
    have notRoot : id ≠ solution := by
      rintro rfl
      obtain ⟨root, rootHeld, isSolution, _⟩ := tree.root
      rw [held] at rootHeld
      rw [← Option.some.inj rootHeld, isPin] at isSolution
      contradiction
    obtain ⟨owner, container, owned, containerHeld, member, owns⟩ :=
      tree.owned id element held notRoot
    rw [isPin] at owns
    refine ⟨owner, container, owned, containerHeld, member, ?_⟩
    rcases owns with ⟨isSignal, rfl | rfl⟩ | ⟨others, rfl⟩
    · exact ⟨iff_of_true rfl isSignal, fun notSignal => absurd isSignal notSignal⟩
    · exact ⟨iff_of_true rfl isSignal, fun notSignal => absurd isSignal notSignal⟩
    · have notSignal : ¬container.kind.isSignal := by
        cases kind : container.kind <;>
          simp [kind, Kind.isContainer, Kind.isLogic, Kind.isSignal] at others ⊢
      exact ⟨iff_of_false (by decide) notSignal, fun _ => rfl⟩
  case signals =>
    intro id element held isSignal
    cases kind : element.kind with
    | signal tag =>
        obtain ⟨input, output, listed, ⟨first, firstHeld, isInput⟩, second, secondHeld, isOutput⟩ :=
          tree.signal_pins valid held kind
        rw [children, held] at listed
        exact ⟨input, output, listed, kind?_eq_some.mpr ⟨first, firstHeld, isInput⟩,
          kind?_eq_some.mpr ⟨second, secondHeld, isOutput⟩⟩
    | _ => simp [kind, Kind.isSignal] at isSignal

structure Furnished (circuit : Circuit) (element : Element) : Prop where
  signal : ∀ tag, element.kind = .signal tag →
    circuit.AreFixed element.children ∧ ∀ id ∈ tag, circuit.IsTag id
  logic : element.kind.isLogic → element.children.length = 4

theorem furnished_of_plain {element : Element} (notSignal : element.kind.isSignal = false)
    (notLogic : element.kind.isLogic = false) : circuit.Furnished element := by
  refine ⟨fun tag isSignal => ?_, fun isLogic => ?_⟩
  · simp [isSignal, Kind.isSignal] at notSignal
  · simp [isLogic] at notLogic

theorem isTag_iff_kind? {id : ElementId} :
    circuit.IsTag id ↔ ∃ kind, circuit.kind? id = some kind ∧ kind.isTag := by
  constructor
  · rintro ⟨element, held, isTag⟩
    exact ⟨_, kind?_eq_some.mpr ⟨element, held, rfl⟩, isTag⟩
  · rintro ⟨kind, isKind, isTag⟩
    obtain ⟨element, held, rfl⟩ := kind?_eq_some.mp isKind
    exact ⟨element, held, isTag⟩

section

variable (kinds : ∀ id kind, circuit.kind? id = some kind → kind.isSignal = false →
  drawn.kind? id = some kind)

include kinds

theorem IsTag.mono {id : ElementId} (isTag : circuit.IsTag id) : drawn.IsTag id := by
  obtain ⟨kind, isKind, isTag⟩ := isTag_iff_kind?.mp isTag
  have notSignal : kind.isSignal = false := by
    cases kind <;> first | rfl | contradiction
  exact isTag_iff_kind?.mpr ⟨kind, kinds id kind isKind notSignal, isTag⟩

theorem AreFixed.mono {pins : List ElementId} (fixed : circuit.AreFixed pins) :
    drawn.AreFixed pins := by
  obtain ⟨input, output, listed, isInput, isOutput⟩ := fixed
  exact ⟨input, output, listed, kinds _ _ isInput rfl, kinds _ _ isOutput rfl⟩

theorem Furnished.mono {element : Element} (furnished : circuit.Furnished element) :
    drawn.Furnished element := by
  refine ⟨fun tag isSignal => ?_, furnished.logic⟩
  obtain ⟨fixed, tagged⟩ := furnished.signal tag isSignal
  exact ⟨fixed.mono kinds, fun id member => (tagged id member).mono kinds⟩

end

theorem furnished_plant (furnished : circuit.Every circuit.Furnished) {owner : Nat}
    {container : Element} {pins : List (String × Pin)} {kind : Kind}
    (held : circuit.get? owner = some container) (contains : container.kind.isContainer)
    (suits : circuit.Suits container.kind (pins.map (·.2)) kind) (name : String) :
    (circuit.plant owner pins name kind).Every
      (circuit.plant owner pins name kind).Furnished := by
  have kinds : ∀ id old, circuit.kind? id = some old → old.isSignal = false →
      (circuit.plant owner pins name kind).kind? id = some old := by
    intro id old isKind _
    obtain ⟨element, found, _⟩ := kind?_eq_some.mp isKind
    rw [kind?_plant, if_pos (get?_lt found), isKind]
  have plain : container.kind.isSignal = false ∧ container.kind.isLogic = false := by
    cases same : container.kind <;>
      simp [same, Kind.isContainer, Kind.isSignal, Kind.isLogic] at contains ⊢
  intro id element found
  rcases get?_plant_cases found with ⟨old, before, rfl⟩ |
    ⟨index, pinName, pin, pinHeld, rfl, rfl⟩ | ⟨rfl, rfl⟩
  · by_cases isOwner : id = owner
    · obtain rfl := Option.some.inj (held.symm.trans (isOwner ▸ before))
      exact furnished_of_plain plain.1 plain.2
    · simp only [isOwner, ↓reduceIte]
      exact (furnished id old before).mono kinds
  · exact furnished_of_plain rfl rfl
  · constructor
    case signal =>
      rintro tag rfl
      obtain ⟨pair, tagged⟩ := suits
      obtain _ | ⟨⟨inputName, input⟩, _ | ⟨⟨outputName, output⟩, _ | _⟩⟩ := pins <;>
        simp only [List.map_nil, List.map_cons, List.cons.injEq, reduceCtorEq, and_false,
          and_true] at pair
      obtain ⟨rfl, rfl⟩ := pair
      have atFirst : [(inputName, Pin.fixed .input), (outputName, .fixed .output)][0]? =
          some (inputName, .fixed .input) := rfl
      have atSecond : [(inputName, Pin.fixed .input), (outputName, .fixed .output)][1]? =
          some (outputName, .fixed .output) := rfl
      have first := circuit.get?_plant_pin owner atFirst name (.signal tag)
      have second := circuit.get?_plant_pin owner atSecond name (.signal tag)
      exact ⟨⟨_, _, rfl, kind?_eq_some.mpr ⟨_, first, rfl⟩, kind?_eq_some.mpr ⟨_, second, rfl⟩⟩,
        fun id member => (tagged id member).mono kinds⟩
    case logic =>
      intro isLogic
      have four : pins.length = 4 := by
        have same : (pins.map (·.2)).length = 4 := by
          cases kind <;> first | contradiction | exact congrArg List.length suits
        rwa [List.length_map] at same
      simp [four]

theorem furnished_bind (furnished : circuit.Every circuit.Furnished) {signal tag : ElementId}
    (isSignal : circuit.IsSignal signal) (isTag : circuit.IsTag tag) :
    (circuit.update signal fun element => { element with kind := .signal (some tag) }).Every
      (circuit.update signal fun element =>
        { element with kind := .signal (some tag) }).Furnished := by
  obtain ⟨element, held, signals⟩ := isSignal
  have kinds : ∀ id kind, circuit.kind? id = some kind → kind.isSignal = false →
      (circuit.update signal fun element => { element with kind := .signal (some tag) }).kind? id =
        some kind := by
    intro id kind isKind notSignal
    have different : id ≠ signal := by
      rintro rfl
      rw [kind?_eq_some.mpr ⟨element, held, rfl⟩] at isKind
      rw [← Option.some.inj isKind, signals] at notSignal
      contradiction
    rw [kind?_update, if_neg different, isKind]
  intro id changed found
  by_cases same : id = signal
  · subst same
    rw [get?_update_self, held] at found
    obtain rfl := Option.some.inj found
    constructor
    case signal =>
      rintro onto ⟨⟩
      cases kind : element.kind with
      | signal before =>
          have fixed := ((furnished id element held).signal before kind).1
          refine ⟨fixed.mono kinds, ?_⟩
          rintro _ ⟨⟩
          exact isTag.mono kinds
      | _ => simp [kind, Kind.isSignal] at signals
    case logic =>
      intro isLogic
      contradiction
  · rw [get?_update_ne same] at found
    exact (furnished id changed found).mono kinds

theorem furnished_empty (name : String) : (empty name).Every (empty name).Furnished := by
  intro id element held
  have first : id = 0 := Nat.lt_one_iff.mp (get?_lt held)
  subst first
  cases held
  exact furnished_of_plain rfl rfl

theorem furnished_afterCalls (name : String) {calls : List Call}
    (drawing : ∀ call ∈ calls, call.isDrawing) (built : circuit = (empty name).afterCalls calls) :
    circuit.Every circuit.Furnished := by
  have start : (empty name).Tree Kind.Owns ∧ (empty name).Every (empty name).Furnished :=
    ⟨Tree.empty name, furnished_empty name⟩
  have all : circuit.Tree Kind.Owns ∧ circuit.Every circuit.Furnished := by
    rw [built]
    refine List.foldlRecOn (motive := fun circuit : Circuit =>
      circuit.Tree Kind.Owns ∧ circuit.Every circuit.Furnished) _ _ start
      fun circuit kept call member => ?_
    obtain ⟨tree, furnished⟩ := kept
    have draws := Build.draws_call tree (drawing call member)
    refine ⟨draws.tree tree, ?_⟩
    generalize Change.after call.build circuit = made at draws
    cases draws with
    | nothing => exact furnished
    | plant held contains suits => exact furnished_plant furnished held contains suits _
    | bind isSignal isTag => exact furnished_bind furnished isSignal isTag
  exact all.2

theorem validate_ok_iff_delays (furnished : circuit.Every circuit.Furnished)
    (tree : circuit.Tree Kind.Owns) (wired : circuit.Wired) : circuit.validate = .ok () ↔
      ∀ id element kind delay, circuit.get? id = some element → element.kind = .timer kind delay →
        delay.isFinite ∧ delay.isNegative = false := by
  rw [validate_ok_iff]
  constructor
  · intro good id element kind delay held isTimer
    have parts := (good id element held).2
    rw [isTimer] at parts
    exact parts.2
  · intro lasts id element held
    have listed : circuit.children id = element.children := by rw [children, held]
    refine ⟨fun child member => tree.mem_children.mp (listed ▸ member), ?_⟩
    have four : element.kind.isLogic → (circuit.pinsOf id).length = 4 := by
      intro logic
      rw [tree.pinsOf_eq_children held (Or.inr logic), listed]
      exact (furnished id element held).logic logic
    cases kind : element.kind with
    | wire wire => exact wired id wire (kind?_eq_some.mpr ⟨element, held, kind⟩)
    | signal tag =>
        obtain ⟨⟨input, output, fixed, isInput, isOutput⟩, tagged⟩ :=
          (furnished id element held).signal tag kind
        obtain ⟨first, firstHeld, firstKind⟩ := kind?_eq_some.mp isInput
        obtain ⟨second, secondHeld, secondKind⟩ := kind?_eq_some.mp isOutput
        refine ⟨?_, tagged⟩
        rw [tree.pinsOf_eq_children held (Or.inl (by rw [kind]; rfl)), listed, fixed]
        simp [areSignalPins, direction_of_pin firstHeld firstKind,
          direction_of_pin secondHeld secondKind, Pin.fixed]
    | gate _ | memory _ => exact four (by rw [kind]; rfl)
    | timer _ delay => exact ⟨four (by rw [kind]; rfl), lasts id element _ delay held kind⟩
    | _ => trivial

/-- In a valid circuit pins are fixed where signals own them and nowhere else, even where elements
took pins from each other. Without that nothing but a delay makes a circuit invalid. -/
theorem fixedBySignals_afterCalls (name : String) {calls : List Call}
    (built : circuit = (empty name).afterCalls calls) :
    ((∀ call ∈ calls, call.isAdding) → circuit.validate = .ok () → circuit.FixedBySignals) ∧
    ((∀ call ∈ calls, call.isDrawing) → (circuit.validate = .ok () ↔
      ∀ id element kind delay, circuit.get? id = some element → element.kind = .timer kind delay →
        delay.isFinite ∧ delay.isNegative = false)) := by
  constructor
  · intro adding valid
    have sound : circuit.Sound Rules.any := built ▸ Build.sound_afterCalls name adding
    exact sound.fixedBySignals valid
  · intro drawing
    have tree : circuit.Tree Kind.Owns := built ▸ tree_afterCalls name drawing
    have wired : circuit.Wired := built ▸ wired_afterCalls name calls
    exact validate_ok_iff_delays (furnished_afterCalls name drawing built) tree wired

def handedOver : List Call :=
  [.addProject "cell", .addContext 1 "line", .addPin 2 "a", .addPin 2 "b", .addPin 2 "c",
    .addPin 2 "d", .addPin 2 "e", .addPin 2 "f", .addPin 2 "joint",
    .signalFromPins 2 "lamp" none 5 3, .logicFromPins 2 (.timer .on ⟨0x3e800000⟩) "wait" 4 6 7 8,
    .addWire 2 3 9 false false, .addWire 2 9 4 false false]

def waiting : List Call :=
  [.addProject "cell", .addContext 1 "line", .addTimer 2 .on "wait" ⟨0x3e800000⟩,
    .addTimer 2 .off "stay" ⟨0x7f800000⟩]

theorem handedOver_fixedBySignals :
    (∃ circuit, circuit = (empty "plant").afterCalls handedOver ∧
      (∀ call ∈ handedOver, call.isAdding) ∧ circuit.validate = .ok () ∧ circuit.FixedBySignals) ∧
    ∃ circuit, circuit = (empty "plant").afterCalls waiting ∧
      (∀ call ∈ waiting, call.isDrawing) ∧
      circuit.validate = .error (.topology (.delay "stay" ⟨0x7f800000⟩)) ∧
      (circuit.validate = .ok () ↔ ∀ id element kind delay, circuit.get? id = some element →
        element.kind = .timer kind delay → delay.isFinite ∧ delay.isNegative = false) := by
  have adding : ∀ call ∈ handedOver, call.isAdding := by decide
  have valid : ((empty "plant").afterCalls handedOver).validate = .ok () := by decide +kernel
  have drawing : ∀ call ∈ waiting, call.isDrawing := by decide
  exact ⟨⟨_, rfl, adding, valid, (fixedBySignals_afterCalls "plant" rfl).1 adding valid⟩,
    _, rfl, drawing, by decide +kernel, (fixedBySignals_afterCalls "plant" rfl).2 drawing⟩

end RelayLogic.Circuit
