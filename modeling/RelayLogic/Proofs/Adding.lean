import RelayLogic.Proofs.Planting

/-!
What building calls come to. With good arguments each plants one element with its pins; with bad
ones it changes nothing.
-/

namespace RelayLogic

namespace Build

variable {circuit : Circuit}

theorem bind_ok {first : Build α} {next : α → Build β} {answer : α} {changed : Circuit}
    (done : first circuit = .ok answer changed) : (first >>= next) circuit = next answer changed := by
  show EStateM.bind first next circuit = _
  simp only [EStateM.bind, done]

theorem bind_error {first : Build α} {next : α → Build β} {error : Error} {changed : Circuit}
    (failed : first circuit = .error error changed) :
    (first >>= next) circuit = .error error changed := by
  show EStateM.bind first next circuit = _
  simp only [EStateM.bind, failed]

theorem ask_ok {question : Circuit → Except Error α} {answer : α}
    (answered : question circuit = .ok answer) : ask question circuit = .ok answer circuit := by
  simp only [ask, answered]

theorem expect_ok {id : ElementId} {element : Element} {expected : Expected}
    {condition : Kind → Bool} (held : circuit.get? id = some element)
    (holds : condition element.kind) : expect id expected condition circuit = .ok () circuit := by
  refine ask_ok ?_
  simp only [Circuit.element_ok_iff.mpr held, bind, Except.bind, holds, ↓reduceIte]
  rfl

theorem expect_cases (circuit : Circuit) (id : ElementId) (expected : Expected)
    (condition : Kind → Bool) :
    (∃ element, circuit.get? id = some element ∧ condition element.kind) ∨
      ∃ error, expect id expected condition circuit = .error error circuit := by
  cases held : circuit.get? id with
  | none =>
      right
      simp only [expect, ask, Circuit.element, held]
      exact ⟨_, rfl⟩
  | some element =>
      cases holds : condition element.kind with
      | true => exact Or.inl ⟨element, rfl, holds⟩
      | false =>
          right
          simp only [expect, ask, Circuit.element_ok_iff.mpr held, bind, Except.bind, holds]
          exact ⟨_, rfl⟩

theorem expectPins_ok {pins : List ElementId} (arePins : ∀ pin ∈ pins, circuit.isPin pin) :
    expectPins pins circuit = .ok () circuit := by
  refine ask_ok ?_
  induction pins with
  | nil => rfl
  | cons pin pins ih =>
      obtain ⟨held, isPin⟩ := Circuit.isPin_iff.mp (arePins pin List.mem_cons_self)
      have rest := ih fun other member => arePins other (List.mem_cons_of_mem _ member)
      simp only [List.forM_eq_forM, List.forM_cons, isPin] at rest ⊢
      exact rest

theorem expectPins_cases (circuit : Circuit) (pins : List ElementId) :
    (∀ pin ∈ pins, circuit.isPin pin) ∨
      ∃ error, expectPins pins circuit = .error error circuit := by
  have answer : (∀ pin ∈ pins, circuit.isPin pin) ∨
      ∃ error, (pins.forM fun pin => do let _ ← circuit.pin pin) = .error error := by
    induction pins with
    | nil => exact Or.inl (by simp)
    | cons pin pins ih =>
        simp only [List.forM_eq_forM, List.forM_cons] at ih ⊢
        cases held : circuit.pin pin with
        | error error => exact Or.inr ⟨error, rfl⟩
        | ok found =>
            rcases ih with rest | ⟨error, failed⟩
            · refine Or.inl fun other member => ?_
              rcases List.mem_cons.mp member with rfl | later
              · exact Circuit.isPin_iff.mpr ⟨found, held⟩
              · exact rest other later
            · exact Or.inr ⟨error, failed⟩
  rcases answer with good | ⟨error, failed⟩
  · exact Or.inl good
  · refine Or.inr ⟨error, ?_⟩
    simp only [expectPins, ask, failed]

theorem adopt_ok {owner : Nat} {children : List Nat} (known : owner < circuit.size)
    (exist : ∀ child ∈ children, child < circuit.size) :
    adopt owner children circuit = .ok () (children.foldl (·.moveChild owner ·) circuit) := by
  obtain ⟨element, held⟩ := Circuit.exists_get? known
  unfold adopt
  rw [bind_ok (ask_ok (Circuit.element_ok_iff.mpr held))]
  clear held known
  induction children generalizing circuit with
  | nil => rfl
  | cons child children ih =>
      obtain ⟨element, held⟩ := Circuit.exists_get? (exist child List.mem_cons_self)
      have moved : (do
          let _ ← ask (·.element child)
          modify fun circuit => circuit.moveChild owner child : Build PUnit) circuit =
          .ok () (circuit.moveChild owner child) := by
        rw [bind_ok (ask_ok (Circuit.element_ok_iff.mpr held))]
        rfl
      rw [List.forM_eq_forM, List.forM_cons, bind_ok moved, ← List.forM_eq_forM, ih]
      · rfl
      · intro other member
        rw [Circuit.size_moveChild]
        exact exist other (List.mem_cons_of_mem _ member)

variable {owner : Nat} {container : Element}

theorem addPin_ok (held : circuit.get? owner = some container)
    (contains : container.kind.isContainer) (name : String) :
    addPin owner name circuit = .ok circuit.size (circuit.push owner name (.pin .floating)) := by
  unfold addPin
  rw [bind_ok (expect_ok held contains)]
  rfl

theorem addPin_cases (circuit : Circuit) (owner : ElementId) (name : String) :
    (∃ container, circuit.get? owner = some container ∧ container.kind.isContainer) ∨
      ∃ error, addPin owner name circuit = .error error circuit := by
  rcases expect_cases circuit owner .container Kind.isContainer with good | ⟨error, failed⟩
  · exact Or.inl good
  · exact Or.inr ⟨error, bind_error failed⟩

theorem mapM_addPin (held : circuit.get? owner = some container)
    (contains : container.kind.isContainer) (names : List String) :
    names.mapM (addPin owner) circuit =
      .ok (List.range' circuit.size names.length) (circuit.pushPins owner names) := by
  induction names generalizing circuit container with
  | nil => rfl
  | cons name names ih =>
      have kept := Circuit.get?_push_owner held name (.pin .floating)
      rw [List.mapM_cons, bind_ok (addPin_ok held contains name),
        bind_ok (ih kept contains), Circuit.size_push]
      rfl

theorem get?_pushPins_owner (held : circuit.get? owner = some container) (names : List String) :
    (circuit.pushPins owner names).get? owner = some { container with
      children := container.children ++ List.range' circuit.size names.length } := by
  have known : owner < circuit.size := Circuit.get?_lt held
  simp only [Circuit.get?_pushPins names known, known, held, ↓reduceIte, Option.map_some]

theorem isPin_pushPins (held : circuit.get? owner = some container) (names : List String)
    (pin : Nat) (member : pin ∈ List.range' circuit.size names.length) :
    (circuit.pushPins owner names).isPin pin := by
  have known : owner < circuit.size := Circuit.get?_lt held
  obtain ⟨lower, upper⟩ := List.mem_range'_1.mp member
  have notOld : ¬pin < circuit.size := by omega
  have bound : pin - circuit.size < names.length := by omega
  simp [Circuit.isPin, Circuit.get?_pushPins names known, notOld, bound, Circuit.sprout, Kind.isPin]

/-- What signals and logic have in common: an element adopts the pins before it. -/
theorem adopt_pushPins (held : circuit.get? owner = some container)
    (fits : ∀ child : Nat, child ∈ container.children → child < circuit.size)
    (names : List String) (name : String) (kind : Kind) :
    adopt (circuit.size + names.length) (List.range' circuit.size names.length)
        ((circuit.pushPins owner names).push owner name kind) =
      .ok () (circuit.plant owner (names.map (·, .floating)) name kind) := by
  rw [adopt_ok, Circuit.plant_of_moveChildren held names name kind fits]
  · rw [Circuit.size_push, Circuit.size_pushPins]
    omega
  · intro child member
    obtain ⟨lower, upper⟩ := List.mem_range'_1.mp member
    rw [Circuit.size_push, Circuit.size_pushPins]
    omega

theorem logicFromPins_ok (held : circuit.get? owner = some container)
    (contains : container.kind.isContainer)
    (fits : ∀ child : Nat, child ∈ container.children → child < circuit.size)
    {kind : Kind} (logic : kind.isLogic) (names : List String) (name : String) :
    logicFromPins owner kind name (List.range' circuit.size names.length)
        (circuit.pushPins owner names) =
      .ok (circuit.size + names.length)
        (circuit.plant owner (names.map (·, .floating)) name kind) := by
  have pushed : push owner name kind (circuit.pushPins owner names) =
      .ok (circuit.size + names.length) ((circuit.pushPins owner names).push owner name kind) := by
    rw [push, Circuit.size_pushPins]
  unfold logicFromPins
  simp only [logic, Bool.true_eq_false, ↓reduceIte]
  rw [bind_ok (expect_ok (get?_pushPins_owner held names) contains),
    bind_ok (expectPins_ok (isPin_pushPins held names)), bind_ok pushed,
    bind_ok (adopt_pushPins held fits names name kind)]
  rfl

theorem addLogic_ok (held : circuit.get? owner = some container)
    (contains : container.kind.isContainer)
    (fits : ∀ child : Nat, child ∈ container.children → child < circuit.size)
    {kind : Kind} (logic : kind.isLogic) (name : String) :
    addLogic owner kind name circuit =
      .ok (circuit.size + 4) (circuit.plant owner
        (GatePoint.all.map fun point => (name ++ "." ++ point.name, .floating)) name kind) := by
  let names := GatePoint.all.map fun point => name ++ "." ++ point.name
  have pins : (GatePoint.all.mapM fun point => addPin owner (name ++ "." ++ point.name)) circuit =
      .ok (List.range' circuit.size names.length) (circuit.pushPins owner names) := by
    have pushed := mapM_addPin held contains names
    rwa [List.mapM_map] at pushed
  unfold addLogic
  rw [bind_ok pins]
  exact logicFromPins_ok held contains fits logic names name

theorem fixPin_ok {id : ElementId} (isPin : circuit.isPin id) (direction : Direction) :
    changePin id (fun _ => .fixed direction) circuit =
      .ok () (circuit.update id fun element =>
        { element with kind := .pin (.fixed direction) }) := by
  obtain ⟨pin, held⟩ := Circuit.isPin_iff.mp isPin
  unfold changePin
  rw [bind_ok (ask_ok held)]
  rfl

theorem signalFromPins_ok (held : circuit.get? owner = some container)
    (contains : container.kind.isContainer)
    (fits : ∀ child : Nat, child ∈ container.children → child < circuit.size)
    (first second name : String) (tag : Option ElementId) :
    signalFromPins owner name tag circuit.size (circuit.size + 1)
        (circuit.pushPins owner [first, second]) =
      .ok (circuit.size + 2) (circuit.plant owner
        [(first, .fixed .input), (second, .fixed .output)] name (.signal tag)) := by
  have pushed : push owner name (.signal tag) (circuit.pushPins owner [first, second]) =
      .ok (circuit.size + 2)
        ((circuit.pushPins owner [first, second]).push owner name (.signal tag)) := by
    rw [push, Circuit.size_pushPins]
    rfl
  have checked : expectPins [circuit.size, circuit.size + 1]
      (circuit.pushPins owner [first, second]) = .ok () (circuit.pushPins owner [first, second]) :=
    expectPins_ok (isPin_pushPins held [first, second])
  have adopted : adopt (circuit.size + 2) [circuit.size, circuit.size + 1]
      ((circuit.pushPins owner [first, second]).push owner name (.signal tag)) =
      .ok () (circuit.plant owner [(first, .floating), (second, .floating)] name (.signal tag)) :=
    adopt_pushPins held fits [first, second] name (.signal tag)
  have isInput : (circuit.plant owner [(first, .floating), (second, .floating)] name
      (.signal tag)).isPin circuit.size := by
    have listed : [(first, Pin.floating), (second, .floating)][0]? = some (first, .floating) := rfl
    have found := circuit.get?_plant_pin owner listed name (.signal tag)
    simp only [Nat.add_zero] at found
    simp only [Circuit.isPin, found, Circuit.sprout, Kind.isPin]
  have isOutput : (circuit.plant owner [(first, .fixed .input), (second, .floating)] name
      (.signal tag)).isPin (circuit.size + 1) := by
    have listed : [(first, Pin.fixed .input), (second, .floating)][1]? =
        some (second, .floating) := rfl
    have found := circuit.get?_plant_pin owner listed name (.signal tag)
    simp only [Circuit.isPin, found, Circuit.sprout, Kind.isPin]
  have input := circuit.update_plant owner [] first .floating (.fixed .input)
    [(second, .floating)] name (.signal tag)
  have output := circuit.update_plant owner [(first, .fixed .input)] second .floating
    (.fixed .output) [] name (.signal tag)
  unfold signalFromPins
  rw [bind_ok (expect_ok (get?_pushPins_owner held _) contains), bind_ok checked, bind_ok pushed,
    bind_ok adopted, bind_ok (fixPin_ok isInput .input)]
  simp only [List.length_nil, Nat.add_zero, List.nil_append] at input
  rw [input, bind_ok (fixPin_ok isOutput .output)]
  exact congrArg (EStateM.Result.ok _) output

theorem addSignal_ok (held : circuit.get? owner = some container)
    (contains : container.kind.isContainer)
    (fits : ∀ child : Nat, child ∈ container.children → child < circuit.size)
    {tag : Option ElementId} (tagged : ∀ id ∈ tag, circuit.IsTag id) (name : String) :
    addSignal owner name tag circuit =
      .ok (circuit.size + 2) (circuit.plant owner
        [(name ++ ".in", .fixed .input), (name ++ ".out", .fixed .output)] name
        (.signal tag)) := by
  have first := addPin_ok held contains (name ++ ".in")
  have kept := Circuit.get?_push_owner held (name ++ ".in") (.pin .floating)
  have second := addPin_ok kept contains (name ++ ".out")
  have rest : (do
      let input ← addPin owner (name ++ ".in")
      let output ← addPin owner (name ++ ".out")
      signalFromPins owner name tag input output) circuit =
      .ok (circuit.size + 2) (circuit.plant owner
        [(name ++ ".in", .fixed .input), (name ++ ".out", .fixed .output)] name
        (.signal tag)) := by
    rw [bind_ok first, bind_ok second, Circuit.size_push]
    exact signalFromPins_ok held contains fits (name ++ ".in") (name ++ ".out") name tag
  unfold addSignal
  cases tag with
  | none => exact rest
  | some id =>
      obtain ⟨element, found, isTag⟩ := tagged id rfl
      simp only
      rw [bind_ok (expect_ok found isTag)]
      exact rest

theorem push_ok (known : owner < circuit.size) (name : String) (kind : Kind) :
    push owner name kind circuit = .ok circuit.size (circuit.plant owner [] name kind) := by
  rw [push, Circuit.push_eq_plant known]

theorem addContext_ok (held : circuit.get? owner = some container)
    (isProject : container.kind = .project) (name : String) :
    addContext owner name circuit =
      .ok circuit.size (circuit.plant owner [] name .context) := by
  unfold addContext
  rw [bind_ok (expect_ok held (by simp [isProject]))]
  exact push_ok (Circuit.get?_lt held) name .context

theorem addWire_ok (held : circuit.get? owner = some container)
    (contains : container.kind.isContainer) {start stop : ElementId}
    (arePins : ∀ pin ∈ [start, stop], circuit.isPin pin) (different : start ≠ stop)
    (invertStart invertStop : Bool) :
    addWire owner start stop invertStart invertStop circuit =
      .ok circuit.size (circuit.plant owner [] (circuit.nameOf start ++ "-" ++ circuit.nameOf stop)
        (.wire ⟨start, stop, invertStart, invertStop⟩)) := by
  have known : (get : Build Circuit) circuit = .ok circuit circuit := rfl
  unfold addWire
  rw [bind_ok (expect_ok held contains), bind_ok (expectPins_ok arePins)]
  simp only [different, ↓reduceIte]
  rw [bind_ok known]
  exact push_ok (Circuit.get?_lt held) _ _

theorem addWire_loop (held : circuit.get? owner = some container)
    (contains : container.kind.isContainer) {start stop : ElementId}
    (arePins : ∀ pin ∈ [start, stop], circuit.isPin pin) (same : start = stop)
    (invertStart invertStop : Bool) :
    addWire owner start stop invertStart invertStop circuit =
      .error (.topology (.wireToItself start)) circuit := by
  unfold addWire
  rw [bind_ok (expect_ok held contains), bind_ok (expectPins_ok arePins)]
  simp only [same, ↓reduceIte]
  rfl

theorem bindTag_ok {signal tag : ElementId} {first second : Element}
    (signalHeld : circuit.get? signal = some first) (isSignal : first.kind.isSignal)
    (tagHeld : circuit.get? tag = some second) (isTag : second.kind.isTag) :
    bindTag signal tag circuit = .ok () (circuit.update signal fun element =>
      { element with kind := .signal (some tag) }) := by
  unfold bindTag
  rw [bind_ok (expect_ok tagHeld isTag), bind_ok (expect_ok signalHeld isSignal)]
  rfl

theorem change_ok {id : ElementId} {element : Element} (held : circuit.get? id = some element)
    (edit : Element → Element) : change id edit circuit = .ok () (circuit.update id edit) := by
  unfold change
  rw [bind_ok (ask_ok (Circuit.element_ok_iff.mpr held))]
  rfl

theorem run_ok {build : Build α} {answer : α} {changed : Circuit}
    (done : build circuit = .ok answer changed) : build.run circuit = .ok (answer, changed) := by
  simp only [run, done]

theorem addContext_cases (circuit : Circuit) (project : ElementId) (name : String) :
    (∃ container, circuit.get? project = some container ∧ container.kind = .project) ∨
      ∃ error, addContext project name circuit = .error error circuit := by
  rcases expect_cases circuit project .project (· == .project) with
    ⟨container, held, isProject⟩ | ⟨error, failed⟩
  · exact Or.inl ⟨container, held, beq_iff_eq.mp isProject⟩
  · exact Or.inr ⟨error, bind_error failed⟩

theorem addLogic_cases (circuit : Circuit) (owner : ElementId) (kind : Kind) (name : String) :
    (∃ container, circuit.get? owner = some container ∧ container.kind.isContainer) ∨
      ∃ error, addLogic owner kind name circuit = .error error circuit := by
  rcases addPin_cases circuit owner (name ++ "." ++ GatePoint.left.name) with
    good | ⟨error, failed⟩
  · exact Or.inl good
  · refine Or.inr ⟨error, bind_error ?_⟩
    rw [GatePoint.all, List.mapM_cons]
    exact bind_error failed

theorem addSignal_cases (circuit : Circuit) (owner : ElementId) (name : String)
    (tag : Option ElementId) :
    (∃ container, circuit.get? owner = some container ∧ container.kind.isContainer ∧
        ∀ id ∈ tag, circuit.IsTag id) ∨
      ∃ error, addSignal owner name tag circuit = .error error circuit := by
  have pin := addPin_cases circuit owner (name ++ ".in")
  cases tag with
  | none =>
      rcases pin with ⟨container, held, contains⟩ | ⟨error, failed⟩
      · exact Or.inl ⟨container, held, contains, by simp⟩
      · exact Or.inr ⟨error, bind_error failed⟩
  | some id =>
      rcases expect_cases circuit id .tag Kind.isTag with ⟨element, found, isTag⟩ | ⟨error, failed⟩
      · rcases pin with ⟨container, held, contains⟩ | ⟨error, failed⟩
        · refine Or.inl ⟨container, held, contains, fun other same => ?_⟩
          cases same
          exact ⟨element, found, isTag⟩
        · refine Or.inr ⟨error, ?_⟩
          rw [addSignal, bind_ok (expect_ok found isTag)]
          exact bind_error failed
      · exact Or.inr ⟨error, bind_error failed⟩

theorem place_cases (circuit : Circuit) (owner : ElementId) (pins : List ElementId)
    (next : Build α) :
    (∃ container, circuit.get? owner = some container ∧ container.kind.isContainer ∧
        ∀ pin ∈ pins, circuit.isPin pin) ∨
      ∃ error, (do expect owner .container Kind.isContainer; expectPins pins; next) circuit =
        .error error circuit := by
  rcases expect_cases circuit owner .container Kind.isContainer with
    ⟨container, held, contains⟩ | ⟨error, failed⟩
  · rcases expectPins_cases circuit pins with arePins | ⟨error, failed⟩
    · exact Or.inl ⟨container, held, contains, arePins⟩
    · refine Or.inr ⟨error, ?_⟩
      rw [bind_ok (expect_ok held contains)]
      exact bind_error failed
  · exact Or.inr ⟨error, bind_error failed⟩

theorem addWire_cases (circuit : Circuit) (owner start stop : ElementId)
    (invertStart invertStop : Bool) :
    (∃ container, circuit.get? owner = some container ∧ container.kind.isContainer ∧
        (∀ pin ∈ [start, stop], circuit.isPin pin) ∧ start ≠ stop) ∨
      ∃ error, addWire owner start stop invertStart invertStop circuit = .error error circuit := by
  rcases place_cases circuit owner [start, stop] _ with
    ⟨container, held, contains, arePins⟩ | failed
  · by_cases same : start = stop
    · exact Or.inr ⟨_, addWire_loop held contains arePins same invertStart invertStop⟩
    · exact Or.inl ⟨container, held, contains, arePins, same⟩
  · exact Or.inr failed

theorem signalFromPins_cases (circuit : Circuit) (owner : ElementId) (name : String)
    (tag : Option ElementId) (input output : ElementId) :
    (∃ container, circuit.get? owner = some container ∧ container.kind.isContainer ∧
        ∀ pin ∈ [input, output], circuit.isPin pin) ∨
      ∃ error, signalFromPins owner name tag input output circuit = .error error circuit :=
  place_cases circuit owner [input, output] _

theorem logicFromPins_cases (circuit : Circuit) (owner : ElementId) (kind : Kind) (name : String)
    (pins : List ElementId) :
    (kind.isLogic ∧ ∃ container, circuit.get? owner = some container ∧
        container.kind.isContainer ∧ ∀ pin ∈ pins, circuit.isPin pin) ∨
      ∃ error, logicFromPins owner kind name pins circuit = .error error circuit := by
  unfold logicFromPins
  cases logic : kind.isLogic with
  | false => exact Or.inr ⟨_, rfl⟩
  | true =>
      rcases place_cases circuit owner pins _ with good | failed
      · exact Or.inl ⟨rfl, good⟩
      · exact Or.inr failed

theorem bindTag_cases (circuit : Circuit) (signal tag : ElementId) :
    circuit.IsSignal signal ∧ circuit.IsTag tag ∨
      ∃ error, bindTag signal tag circuit = .error error circuit := by
  rcases expect_cases circuit tag .tag Kind.isTag with ⟨onto, tagHeld, isTag⟩ | ⟨error, failed⟩
  · rcases expect_cases circuit signal .signal Kind.isSignal with
      ⟨element, held, isSignal⟩ | ⟨error, failed⟩
    · exact Or.inl ⟨⟨element, held, isSignal⟩, onto, tagHeld, isTag⟩
    · refine Or.inr ⟨error, ?_⟩
      rw [bindTag, bind_ok (expect_ok tagHeld isTag)]
      exact bind_error failed
  · exact Or.inr ⟨error, bind_error failed⟩

theorem setBlock_cases (circuit : Circuit) (id : ElementId) (block : BlockRef) :
    (∃ element, circuit.get? id = some element) ∨
      ∃ error, setBlock id block circuit = .error error circuit := by
  cases held : circuit.element id with
  | ok element => exact Or.inl ⟨element, Circuit.element_ok_iff.mp held⟩
  | error error =>
      have failed : ask (·.element id) circuit = .error error circuit := by
        simp only [ask, held]
      exact Or.inr ⟨error, bind_error failed⟩

end Build

end RelayLogic
