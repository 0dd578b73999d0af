import RelayLogic.Proofs.Gaining

/-!
What a building call can do to a circuit. It changes nothing, or it makes one of five changes, and
whatever a change connects is either named in the call or new.
-/

namespace RelayLogic

def Call.targets : Call → List ElementId
  | addSignal _ _ tag => tag.toList
  | addWire _ start stop _ _ => [start, stop]
  | signalFromPins _ _ tag input output => tag.toList ++ [input, output]
  | logicFromPins _ _ _ left right top bottom => [left, right, top, bottom]
  | adopt owner children => owner :: children
  | bindTag signal tag => [signal, tag]
  | _ => []

namespace Circuit

variable {free : ElementId → Prop} {circuit made : Circuit}

/-- What a building call makes of a circuit if all that it connects is free. -/
inductive Alters (free : ElementId → Prop) (circuit : Circuit) : Circuit → Prop
  | nothing : Alters free circuit circuit
  | plant {owner : Nat} {container pins name kind} (held : circuit.get? owner = some container)
      (contains : container.kind.isContainer)
      (suits : circuit.Suits container.kind (pins.map (·.2)) kind)
      (distinct : ∀ wire, kind = .wire wire → wire.start ≠ wire.stop)
      (links : ∀ id ∈ kind.targets, free id) :
      Alters free circuit (circuit.plant owner pins name kind)
  | logic {owner container name kind pins} (held : circuit.get? owner = some container)
      (contains : container.kind.isContainer) (isLogic : kind.isLogic)
      (arePins : ∀ pin ∈ pins, circuit.isPin pin) (links : ∀ pin ∈ pins, free pin) :
      Alters free circuit (circuit.take owner name kind pins)
  | signal {owner container name input output} {tag : Option ElementId}
      (held : circuit.get? owner = some container) (contains : container.kind.isContainer)
      (arePins : ∀ pin ∈ [input, output], circuit.isPin pin)
      (links : ∀ id ∈ tag.toList ++ [input, output], free id) :
      Alters free circuit (circuit.takeSignal owner name tag input output)
  | bind {signal tag} (isSignal : circuit.IsSignal signal) (isTag : circuit.IsTag tag)
      (links : ∀ id ∈ [signal, tag], free id) :
      Alters free circuit (circuit.update signal fun element =>
        { element with kind := .signal (some tag) })
  | label {id block} :
      Alters free circuit (circuit.update id fun element => { element with block := some block })

theorem kind?_plant {owner : Nat} (pins : List (String × Pin)) (name : String) (kind : Kind)
    (other : Nat) : (circuit.plant owner pins name kind).kind? other =
      if other < circuit.size then circuit.kind? other
      else if other < circuit.size + pins.length then
        (pins[other - circuit.size]?).map fun pin => .pin pin.2
      else if other = circuit.size + pins.length then some kind
      else none := by
  simp only [kind?, get?_plant, get?_update]
  split
  · split
    · cases circuit.get? other <;> rfl
    · rfl
  · split
    · rw [Option.map_map]
      rfl
    · split <;> rfl

theorem kind?_label (circuit : Circuit) (id other : ElementId) (block : Option BlockRef) :
    (circuit.update id fun element => { element with block := block }).kind? other =
      circuit.kind? other :=
  kind?_update_kept fun _ => rfl

theorem isPin_retag {signal pin : ElementId} (isSignal : circuit.IsSignal signal)
    (isPin : circuit.isPin pin) (tag : Option ElementId) :
    (circuit.update signal fun element => { element with kind := .signal tag }).isPin pin := by
  obtain ⟨element, held, isSignal⟩ := isSignal
  rw [isPin_eq, kind?_update]
  split
  next same =>
    rw [isPin_eq, same, kind?, held] at isPin
    cases kind : element.kind <;> simp [kind, Kind.isSignal, Kind.isPin] at isSignal isPin
  next => rwa [← isPin_eq]

theorem Alters.isPin (alters : circuit.Alters free made) {pin : ElementId}
    (isPin : circuit.isPin pin) : made.isPin pin := by
  cases alters with
  | nothing => exact isPin
  | plant =>
      obtain ⟨_, _, held, _⟩ := isPin_held isPin
      rw [isPin_eq, kind?_plant, if_pos (get?_lt held), ← isPin_eq]
      exact isPin
  | logic => exact isPin_take _ _ _ _ isPin
  | signal =>
      exact isPin_fixPin (isPin_fixPin (isPin_take _ _ _ _ isPin) _ _) _ _
  | bind isSignal => exact isPin_retag isSignal isPin _
  | label => rwa [isPin_eq, kind?_label, ← isPin_eq]

theorem Alters.wire (alters : circuit.Alters free made) {id : ElementId} {wire : Wire}
    (isWire : made.kind? id = some (.wire wire)) :
    circuit.kind? id = some (.wire wire) ∨
      (circuit.isPin wire.start ∧ circuit.isPin wire.stop ∧ wire.start ≠ wire.stop) ∧
        id = circuit.size ∧ free wire.start ∧ free wire.stop := by
  cases alters with
  | nothing => exact Or.inl isWire
  | @plant owner container pins name kind held contains suits distinct links =>
      rw [kind?_plant] at isWire
      split at isWire
      · exact Or.inl isWire
      · split at isWire
        · obtain ⟨_, _, same⟩ := Option.map_eq_some_iff.mp isWire
          contradiction
        · split at isWire
          next last =>
            cases isWire
            obtain ⟨noPins, start, stop⟩ := suits
            rw [List.map_eq_nil_iff.mp noPins] at last
            exact Or.inr ⟨⟨start, stop, distinct wire rfl⟩, last,
              links wire.start (by simp [Kind.targets]), links wire.stop (by simp [Kind.targets])⟩
          next => contradiction
  | logic _ _ isLogic =>
      rw [kind?_take] at isWire
      split at isWire
      · cases isWire
        contradiction
      · exact Or.inl isWire
  | signal _ _ arePins =>
      rw [kind?_takeSignal _ _ _ arePins] at isWire
      split at isWire
      · cases isWire
      · split at isWire
        · cases isWire
        · split at isWire
          · cases isWire
          · exact Or.inl isWire
  | bind =>
      rw [kind?_update] at isWire
      split at isWire
      · obtain ⟨_, _, same⟩ := Option.map_eq_some_iff.mp isWire
        contradiction
      · exact Or.inl isWire
  | label => exact Or.inl (by rwa [kind?_label] at isWire)

end Circuit

namespace Build

open Change (after after_map)

variable {free : ElementId → Prop} {circuit : Circuit}

theorem alters_push {owner : Nat} {container : Element} {kind : Kind} (name : String)
    (held : circuit.get? owner = some container) (contains : container.kind.isContainer)
    (suits : circuit.Suits container.kind [] kind)
    (distinct : ∀ wire, kind = .wire wire → wire.start ≠ wire.stop)
    (links : ∀ id ∈ kind.targets, free id) :
    circuit.Alters free (after (push owner name kind) circuit) := by
  show circuit.Alters free (circuit.push owner name kind)
  rw [Circuit.push_eq_plant (Circuit.get?_lt held)]
  exact .plant held contains suits distinct links

theorem alters_addPin (owner : ElementId) (name : String) :
    circuit.Alters free (after (addPin owner name) circuit) := by
  rcases addPin_cases circuit owner name with ⟨container, held, contains⟩ | ⟨error, failed⟩
  · rw [addPin, after_bind_ok (expect_ok held contains)]
    exact alters_push name held contains ⟨rfl, rfl⟩ (by simp) (by simp [Kind.targets])
  · rw [after_error failed]
    exact .nothing

theorem alters_addContext (project : ElementId) (name : String) :
    circuit.Alters free (after (addContext project name) circuit) := by
  rcases addContext_cases circuit project name with ⟨container, held, isProject⟩ | ⟨error, failed⟩
  · rw [after_ok (addContext_ok held isProject name)]
    exact .plant held (by rw [isProject]; rfl) ⟨isProject, rfl⟩ (by simp) (by simp [Kind.targets])
  · rw [after_error failed]
    exact .nothing

theorem alters_addLogic {belongs : Kind → Kind → Prop} (tree : circuit.Tree belongs)
    (owner : ElementId) {kind : Kind} (logic : kind.isLogic) (name : String) :
    circuit.Alters free (after (addLogic owner kind name) circuit) := by
  have noTargets : kind.targets = [] := by
    cases kind <;> first | rfl | contradiction
  rcases addLogic_cases circuit owner kind name with
    ⟨container, held, contains⟩ | ⟨error, failed⟩
  · rw [after_ok (addLogic_ok held contains (tree.fits held) logic name)]
    refine .plant held contains ?_ ?_ (by simp [noTargets])
    · cases kind <;> first | rfl | contradiction
    · rintro wire rfl
      contradiction
  · rw [after_error failed]
    exact .nothing

theorem alters_addSignal {belongs : Kind → Kind → Prop} (tree : circuit.Tree belongs)
    (owner : ElementId) (name : String) {tag : Option ElementId}
    (links : ∀ id ∈ tag.toList, free id) :
    circuit.Alters free (after (addSignal owner name tag) circuit) := by
  rcases addSignal_cases circuit owner name tag with
    ⟨container, held, contains, tagged⟩ | ⟨error, failed⟩
  · rw [after_ok (addSignal_ok held contains (tree.fits held) tagged name)]
    exact .plant held contains ⟨rfl, tagged⟩ (by simp) links
  · rw [after_error failed]
    exact .nothing

theorem alters_addWire (owner : ElementId) {start stop : ElementId}
    (links : ∀ id ∈ [start, stop], free id) (invertStart invertStop : Bool) :
    circuit.Alters free (after (addWire owner start stop invertStart invertStop) circuit) := by
  rcases addWire_cases circuit owner start stop invertStart invertStop with
    ⟨container, held, contains, arePins, different⟩ | ⟨error, failed⟩
  · rw [after_ok (addWire_ok held contains arePins different invertStart invertStop)]
    refine .plant held contains ⟨rfl, arePins start (by simp), arePins stop (by simp)⟩ ?_ links
    rintro wire ⟨⟩
    exact different
  · rw [after_error failed]
    exact .nothing

theorem alters_logicFromPins (owner : ElementId) (kind : Kind) (name : String)
    {pins : List ElementId} (links : ∀ pin ∈ pins, free pin) :
    circuit.Alters free (after (logicFromPins owner kind name pins) circuit) := by
  rcases logicFromPins_cases circuit owner kind name pins with
    ⟨logic, container, held, contains, arePins⟩ | ⟨error, failed⟩
  · rw [after_ok (logicFromPins_of_pins held contains logic name arePins)]
    exact .logic held contains logic arePins links
  · rw [after_error failed]
    exact .nothing

theorem alters_signalFromPins (owner : ElementId) (name : String) {tag : Option ElementId}
    {input output : ElementId} (links : ∀ id ∈ tag.toList ++ [input, output], free id) :
    circuit.Alters free (after (signalFromPins owner name tag input output) circuit) := by
  rcases signalFromPins_cases circuit owner name tag input output with
    ⟨container, held, contains, arePins⟩ | ⟨error, failed⟩
  · rw [after_ok (signalFromPins_of_pins held contains name tag arePins)]
    exact .signal held contains arePins links
  · rw [after_error failed]
    exact .nothing

theorem alters_bindTag {signal tag : ElementId} (links : ∀ id ∈ [signal, tag], free id) :
    circuit.Alters free (after (bindTag signal tag) circuit) := by
  rcases bindTag_cases circuit signal tag with ⟨isSignal, isTag⟩ | ⟨error, failed⟩
  · obtain ⟨element, held, signals⟩ := isSignal
    obtain ⟨onto, ontoHeld, tags⟩ := isTag
    rw [after_ok (bindTag_ok held signals ontoHeld tags)]
    exact .bind ⟨element, held, signals⟩ ⟨onto, ontoHeld, tags⟩ links
  · rw [after_error failed]
    exact .nothing

theorem alters_setBlock (id : ElementId) (block : BlockRef) :
    circuit.Alters free (after (setBlock id block) circuit) := by
  rcases setBlock_cases circuit id block with ⟨element, held⟩ | ⟨error, failed⟩
  · rw [setBlock, after_ok (change_ok held _)]
    exact .label
  · rw [after_error failed]
    exact .nothing

/-- A building call makes at most one change. -/
theorem alters_call {belongs : Kind → Kind → Prop} (tree : circuit.Tree belongs) {call : Call}
    (building : call.isBuilding) (links : ∀ id ∈ call.targets, free id) :
    circuit.Alters free (after call.build circuit) := by
  obtain ⟨root, held, isSolution, _⟩ := tree.root
  have contains : root.kind.isContainer := by
    rw [isSolution]
    rfl
  cases call with
  | addProject name =>
      rw [Call.build, after_map]
      exact alters_push name held contains ⟨isSolution, rfl⟩ (by simp) (by simp [Kind.targets])
  | addContext project name =>
      rw [Call.build, after_map]
      exact alters_addContext project name
  | addTag name initial =>
      rw [Call.build, after_map]
      exact alters_push name held contains ⟨isSolution, rfl⟩ (by simp) (by simp [Kind.targets])
  | addPin container name =>
      rw [Call.build, after_map]
      exact alters_addPin container name
  | addSignal context name tag =>
      rw [Call.build, after_map]
      exact alters_addSignal tree context name links
  | addGate context kind name =>
      rw [Call.build, after_map]
      exact alters_addLogic tree context rfl name
  | addTimer context kind name delay =>
      rw [Call.build, after_map]
      exact alters_addLogic tree context rfl name
  | addMemory context kind name =>
      rw [Call.build, after_map]
      exact alters_addLogic tree context rfl name
  | addWire context start stop invertStart invertStop =>
      rw [Call.build, after_map]
      exact alters_addWire context links invertStart invertStop
  | signalFromPins context name tag input output =>
      rw [Call.build, after_map]
      exact alters_signalFromPins context name links
  | logicFromPins context kind name left right top bottom =>
      rw [Call.build, after_map]
      exact alters_logicFromPins context kind name links
  | adopt => contradiction
  | bindTag signal tag =>
      rw [Call.build, after_bind_pure]
      exact alters_bindTag links
  | setBlock id block =>
      rw [Call.build, after_bind_pure]
      exact alters_setBlock id block

theorem afterBuilding_of_alters {property : Circuit → Prop}
    (kept : ∀ circuit made, circuit.Sound Rules.any → circuit.Alters free made →
      property circuit → property made)
    (sound : circuit.Sound Rules.any) (holds : property circuit) {calls : List Call}
    (building : ∀ call ∈ calls, call.isBuilding)
    (links : ∀ call ∈ calls, ∀ id ∈ call.targets, free id) :
    property (circuit.afterCalls calls) := by
  induction calls generalizing circuit with
  | nil => exact holds
  | cons call calls ih =>
      have first := building call List.mem_cons_self
      have alters := alters_call sound.tree first (links call List.mem_cons_self)
      exact ih (keeps_building first circuit sound) (kept circuit _ sound alters holds)
        (fun other member => building other (List.mem_cons_of_mem _ member))
        fun other member => links other (List.mem_cons_of_mem _ member)

end Build

end RelayLogic
