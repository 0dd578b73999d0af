import RelayLogic.Proofs.Depicting

/-!
Wires between blocks. A place that an end of a wire names is that of one pin and different places
are different pins, so a wire can be added just in case its ends name two places.
-/

namespace RelayLogic.Diagram

variable {circuit final : Circuit} {tags names : Names} {context id pin : Nat}
  {block : BlockDecl} {blocks : List BlockDecl} {name : String}

theorem BlockDecl.Shape.bound {kind : Kind} {points : List (String × Pin)}
    (shape : block.Shape tags kind points) {point : Option String} {index : Nat}
    (position : block.position? point = some (some index)) : index < points.length := by
  unfold BlockDecl.position? at position
  cases shape with
  | signal isKind =>
      cases point with
      | none => simp [isKind] at position
      | some name =>
          obtain ⟨point, _, same⟩ := by simpa [isKind] using position
          subst same
          cases point <;> simp [SignalPoint.index]
  | gate isKind | timer isKind =>
      cases point with
      | none => simp [isKind] at position
      | some name =>
          obtain ⟨point, _, same⟩ := by simpa [isKind] using position
          subst same
          cases point <;> simp [BlockDecl.points, GatePoint.all, GatePoint.index]
  | pin isKind => cases point <;> simp [isKind] at position

theorem pinsOf_eq {points : List (String × Pin)} {element : Element}
    (held : circuit.get? id = some element) (each : List.Forall₂ (fun point pin =>
      circuit.get? pin = some ⟨point.1, .pin point.2, some id, [], none, none⟩)
      points element.children) : circuit.pinsOf id = element.children := by
  rw [Circuit.pinsOf, show circuit.children id = element.children by rw [Circuit.children, held],
    List.filter_eq_self]
  intro pin member
  obtain ⟨point, _, pinHeld⟩ := exists_related each member
  simp only [Circuit.isPin, pinHeld, Kind.isPin]

theorem pinAt?_eq (depicted : block.DepictedBy circuit tags context (name, id))
    (point : Option String) :
    pinAt? circuit id point = (block.position? point).bind (pinOn? circuit id) := by
  obtain ⟨-, kind, points, pins, shape, -, held, each⟩ := depicted
  have children : circuit.children id = pins := by simp only [Circuit.children, held]
  have pinsOf := pinsOf_eq held each
  simp only [pinAt?, held, Option.bind_eq_bind, Option.bind_some, pinsOf]
  cases shape with
  | signal isKind =>
      cases point with
      | none => simp [BlockDecl.position?, isKind, Kind.isPin]
      | some name =>
          cases named : SignalPoint.ofName? name <;>
            simp [BlockDecl.position?, isKind, pointIndex?, Kind.isSignal, pinOn?, children, named]
  | gate isKind | timer isKind =>
      cases point with
      | none => simp [BlockDecl.position?, isKind, Kind.isPin]
      | some name =>
          cases named : GatePoint.ofName? name <;>
            simp [BlockDecl.position?, isKind, pointIndex?, Kind.isSignal, Kind.isLogic, pinOn?,
              children, named]
  | pin isKind =>
      cases point <;> simp [BlockDecl.position?, isKind, pointIndex?, Kind.isSignal, Kind.isLogic,
        Kind.isPin, pinOn?]

theorem exists_pinOn (depicted : block.DepictedBy circuit tags context (name, id))
    {point : Option String} {position : Option Nat}
    (isAt : block.position? point = some position) :
    ∃ pin, pinOn? circuit id position = some pin := by
  cases position with
  | none => exact ⟨id, rfl⟩
  | some index =>
      obtain ⟨-, kind, points, pins, shape, -, held, each⟩ := depicted
      have bound : index < pins.length := each.length_eq ▸ shape.bound isAt
      refine ⟨pins[index], ?_⟩
      simp only [pinOn?, Circuit.children, held, List.getElem?_eq_getElem bound]

theorem pinOn_cases (depicted : block.DepictedBy circuit tags context (name, id))
    {position : Option Nat} (on : pinOn? circuit id position = some pin) :
    position = none ∧ pin = id ∨ position.isSome ∧ ∃ point : String × Pin,
      circuit.get? pin = some ⟨point.1, .pin point.2, some id, [], none, none⟩ := by
  obtain ⟨-, kind, points, pins, shape, -, held, each⟩ := depicted
  cases position with
  | none => exact Or.inl ⟨rfl, (Option.some.inj on).symm⟩
  | some index =>
      simp only [pinOn?, Circuit.children, held] at on
      obtain ⟨point, _, pinHeld⟩ := exists_related each (List.mem_of_getElem? on)
      exact Or.inr ⟨rfl, point, pinHeld⟩

theorem plain_of_pinOn (depicted : block.DepictedBy circuit tags context (name, id))
    {position : Option Nat} (on : pinOn? circuit id position = some pin) :
    ∃ element, circuit.get? pin = some element ∧ element.kind.isContainer = false := by
  rcases pinOn_cases depicted on with ⟨_, rfl⟩ | ⟨_, point, held⟩
  · obtain ⟨-, kind, _, _, shape, -, held, _⟩ := depicted
    exact ⟨_, held, shape.plain⟩
  · exact ⟨_, held, rfl⟩

theorem owner_of_pinOn (depicted : block.DepictedBy circuit tags context (name, id))
    {position : Option Nat} (on : pinOn? circuit id position = some pin) :
    circuit.owner pin = some (if position.isSome then id else context) := by
  rcases pinOn_cases depicted on with ⟨rfl, rfl⟩ | ⟨within, point, held⟩
  · obtain ⟨-, _, _, _, _, -, held, _⟩ := depicted
    rw [Circuit.owner, held]
    rfl
  · rw [Circuit.owner, held, if_pos within]
    rfl

theorem isPin_of_pinOn (depicted : block.DepictedBy circuit tags context (name, id))
    {point : Option String} {position : Option Nat} (isAt : block.position? point = some position)
    (on : pinOn? circuit id position = some pin) : circuit.isPin pin := by
  rcases pinOn_cases depicted on with ⟨rfl, rfl⟩ | ⟨_, point, held⟩
  · obtain ⟨-, kind, points, pins, shape, -, held, -⟩ := depicted
    have isPin : kind.isPin := by
      cases shape with
      | signal isKind | gate isKind | timer isKind =>
          cases point <;> simp [BlockDecl.position?, isKind] at isAt
      | pin => rfl
    simp only [Circuit.isPin, held, isPin]
  · simp only [Circuit.isPin, held, Kind.isPin]

/-- Elements that stand for the blocks of a context, by the names of these. -/
def Stands (circuit : Circuit) (tags : Names) (context : Nat) (blocks : List BlockDecl)
    (names : Names) : Prop :=
  List.Forall₂ (fun block named => block.DepictedBy circuit tags context named) blocks names

theorem Stands.settles (stands : Stands circuit tags context blocks names)
    (settles : circuit.Settles final) : Stands final tags context blocks names :=
  stands.imp fun _ _ depicted => depicted.settles settles

theorem Stands.lookup (stands : Stands circuit tags context blocks names)
    (known : names.lookup name = some id) :
    ∃ block ∈ blocks, block.DepictedBy circuit tags context (name, id) :=
  exists_related stands (mem_of_lookup known)

theorem Stands.find (stands : Stands circuit tags context blocks names) (name : String) :
    blocks.find? (·.name == name) = none ∧ names.lookup name = none ∨
      ∃ block id, blocks.find? (·.name == name) = some block ∧ names.lookup name = some id ∧
        block.DepictedBy circuit tags context (name, id) := by
  induction stands with
  | nil => exact Or.inl ⟨rfl, rfl⟩
  | @cons block named blocks names first _ ih =>
      obtain ⟨label, id⟩ := named
      obtain rfl : label = block.name := first.1
      by_cases same : block.name = name
      · subst same
        exact Or.inr ⟨block, id, by simp, by simp, first⟩
      · have other : (block.name == name) = false := by simpa using same
        have flipped : (name == block.name) = false := by simpa using Ne.symm same
        simpa only [List.find?_cons, List.lookup_cons, other, flipped] using ih

theorem pinOn_settles (stands : Stands circuit tags context blocks names)
    (known : names.lookup name = some id) (settles : circuit.Settles final) :
    pinOn? final id = pinOn? circuit id := by
  obtain ⟨block, _, _, kind, points, pins, shape, _, held, _⟩ := stands.lookup known
  funext position
  cases position with
  | none => rfl
  | some index =>
      simp only [pinOn?, Circuit.children, held, settles _ _ held shape.plain]

theorem position_unique (ready : Ready tags context circuit)
    (depicted : block.DepictedBy circuit tags context (name, id)) {first second : Option Nat}
    (firstOn : pinOn? circuit id first = some pin)
    (secondOn : pinOn? circuit id second = some pin) : first = second := by
  have owner := owner_of_pinOn depicted firstOn
  rw [owner_of_pinOn depicted secondOn, Option.some.injEq] at owner
  have notContext := ready.notContext depicted
  obtain ⟨-, kind, _, pins, _, unique, held, _⟩ := depicted
  cases first with
  | none =>
      cases second with
      | none => rfl
      | some index => exact absurd owner notContext
  | some index =>
      cases second with
      | none => exact absurd owner.symm notContext
      | some twin =>
          simp only [pinOn?, Circuit.children, held] at firstOn secondOn
          have bound := (List.getElem?_eq_some_iff.mp firstOn).1
          rw [(List.getElem?_inj bound unique).mp (firstOn.trans secondOn.symm)]

theorem element_unique (ready : Ready tags context circuit) {twin : BlockDecl} {other : Nat}
    {label : String} (depicted : block.DepictedBy circuit tags context (name, id))
    (twinDepicted : twin.DepictedBy circuit tags context (label, other))
    {first second : Option Nat} (firstOn : pinOn? circuit id first = some pin)
    (secondOn : pinOn? circuit other second = some pin) : id = other := by
  -- A pin belongs to the element that it is on, unless it is that element.
  have owner := owner_of_pinOn depicted firstOn
  rw [owner_of_pinOn twinDepicted secondOn, Option.some.injEq] at owner
  cases first with
  | none =>
      cases second with
      | none => exact (Option.some.inj firstOn).trans (Option.some.inj secondOn).symm
      | some index => exact absurd owner (ready.notContext twinDepicted)
  | some index =>
      cases second with
      | none => exact absurd owner.symm (ready.notContext depicted)
      | some _ => exact owner.symm

/-- Different places are different pins. -/
theorem place_unique (ready : Ready tags context circuit)
    (stands : Stands circuit tags context blocks names) {first second : String × Option Nat}
    {other : Nat} (firstKnown : names.lookup first.1 = some id)
    (firstOn : pinOn? circuit id first.2 = some pin)
    (secondKnown : names.lookup second.1 = some other)
    (secondOn : pinOn? circuit other second.2 = some pin) : first = second := by
  obtain ⟨block, _, depicted⟩ := stands.lookup firstKnown
  obtain ⟨twin, _, twinDepicted⟩ := stands.lookup secondKnown
  obtain rfl := element_unique ready depicted twinDepicted firstOn secondOn
  refine Prod.ext ?_ (position_unique ready depicted firstOn secondOn)
  exact depicted.named.trans twinDepicted.named.symm

theorem resolvePoint_yields (stands : Stands circuit tags context blocks names) (ref : PointRef)
    (line : Nat) :
    Build.Yields (resolvePoint names ref line) circuit (ref.place? blocks).isSome
      fun pin final => circuit = final ∧ ref.DepictedBy circuit blocks names pin := by
  rcases stands.find ref.block with ⟨absent, unknown⟩ | ⟨block, id, found, known, depicted⟩
  · have failed : resolvePoint names ref line circuit =
        .error (.undefinedPoint ref.label line) circuit := by
      simp only [resolvePoint, Build.ask, unknown, Option.bind_none]
    exact (Build.yields_error failed).iff (by simp [PointRef.place?, absent])
  · cases isAt : block.position? ref.point with
    | none =>
        have failed : resolvePoint names ref line circuit =
            .error (.undefinedPoint ref.label line) circuit := by
          simp only [resolvePoint, Build.ask, known, Option.bind_some, pinAt?_eq depicted, isAt,
            Option.bind_none]
        exact (Build.yields_error failed).iff (by simp [PointRef.place?, found, isAt])
    | some position =>
        obtain ⟨pin, on⟩ := exists_pinOn depicted isAt
        have place : ref.place? blocks = some (ref.block, position) := by
          simp [PointRef.place?, found, isAt]
        have done : resolvePoint names ref line circuit = .ok pin circuit := by
          simp only [resolvePoint, Build.ask, known, Option.bind_some, pinAt?_eq depicted, isAt, on]
        exact (Build.yields_ok done ⟨rfl, _, id, place, known, on⟩).iff (by simp [place])

theorem PointRef.DepictedBy.settles (stands : Stands circuit tags context blocks names)
    {ref : PointRef} (depicted : ref.DepictedBy circuit blocks names pin)
    (settles : circuit.Settles final) :
    ref.DepictedBy final blocks names pin ∧ final.nameOf pin = circuit.nameOf pin := by
  obtain ⟨place, id, isAt, known, on⟩ := depicted
  obtain ⟨block, _, standsFor⟩ := stands.lookup known
  obtain ⟨element, held, plain⟩ := plain_of_pinOn standsFor on
  refine ⟨⟨place, id, isAt, known, ?_⟩, ?_⟩
  · rw [pinOn_settles stands known settles, on]
  · rw [Circuit.nameOf, Circuit.nameOf, held, settles pin element held plain]

theorem PointRef.DepictedBy.isPin (stands : Stands circuit tags context blocks names)
    {ref : PointRef} (depicted : ref.DepictedBy circuit blocks names pin) : circuit.isPin pin := by
  obtain ⟨place, id, isAt, known, on⟩ := depicted
  rcases stands.find ref.block with ⟨absent, _⟩ | ⟨block, other, found, named, standsFor⟩
  · simp [PointRef.place?, absent] at isAt
  · obtain ⟨position, isPosition, rfl⟩ : ∃ position, block.position? ref.point = some position ∧
        (ref.block, position) = place := by
      simpa [PointRef.place?, found, Option.bind_eq_some_iff] using isAt
    obtain rfl := Option.some.inj (named.symm.trans known)
    exact isPin_of_pinOn standsFor isPosition on

theorem WireDecl.DepictedBy.settles (stands : Stands circuit tags context blocks names)
    {wire : WireDecl} (depicted : wire.DepictedBy circuit blocks names context id)
    (settles : circuit.Settles final) : wire.DepictedBy final blocks names context id := by
  obtain ⟨start, stop, atStart, atStop, different, held⟩ := depicted
  obtain ⟨startStays, startName⟩ := atStart.settles stands settles
  obtain ⟨stopStays, stopName⟩ := atStop.settles stands settles
  refine ⟨start, stop, startStays, stopStays, different, ?_⟩
  rw [startName, stopName, settles id _ held rfl]

theorem PointRef.DepictedBy.eq_iff (ready : Ready tags context circuit)
    (stands : Stands circuit tags context blocks names) {start stop : PointRef} {first second : Nat}
    (atStart : start.DepictedBy circuit blocks names first)
    (atStop : stop.DepictedBy circuit blocks names second) :
    first = second ↔ start.place? blocks = stop.place? blocks := by
  obtain ⟨place, id, isAt, known, on⟩ := atStart
  obtain ⟨twin, other, isAtTwin, knownTwin, onTwin⟩ := atStop
  rw [isAt, isAtTwin, Option.some.injEq]
  constructor
  · rintro rfl
    exact place_unique ready stands known on knownTwin onTwin
  · rintro rfl
    rw [known, Option.some.injEq] at knownTwin
    subst knownTwin
    exact Option.some.inj (on.symm.trans onTwin)

theorem WireDecl.drawable_iff {wire : WireDecl} : wire.Drawable blocks ↔
    (wire.start.place? blocks).isSome ∧ (wire.stop.place? blocks).isSome ∧
      wire.start.place? blocks ≠ wire.stop.place? blocks := by
  constructor
  · rintro ⟨start, stop, atStart, atStop, different⟩
    simpa [atStart, atStop] using different
  · rintro ⟨atStart, atStop, different⟩
    obtain ⟨start, atStart⟩ := Option.isSome_iff_exists.mp atStart
    obtain ⟨stop, atStop⟩ := Option.isSome_iff_exists.mp atStop
    exact ⟨start, stop, atStart, atStop, by simpa [atStart, atStop] using different⟩

theorem depictedBy_join (ready : Ready tags context circuit)
    (stands : Stands circuit tags context blocks names) {wire : WireDecl} {start stop : Nat}
    (atStart : wire.start.DepictedBy circuit blocks names start)
    (atStop : wire.stop.DepictedBy circuit blocks names stop) (different : start ≠ stop)
    {made : Circuit} (adds : circuit.Appends context [id] made)
    (held : made.get? id = some ⟨circuit.nameOf start ++ "-" ++ circuit.nameOf stop,
      .wire ⟨start, stop, wire.start.inverted, wire.stop.inverted⟩, some context, [], none,
      some ⟨wireBlock, wire.line⟩⟩) : wire.DepictedBy made blocks names context id := by
  obtain ⟨startStays, startName⟩ := atStart.settles stands (ready.settles adds)
  obtain ⟨stopStays, stopName⟩ := atStop.settles stands (ready.settles adds)
  exact ⟨start, stop, startStays, stopStays, different, by rw [held, startName, stopName]⟩

theorem addWire_yields (ready : Ready tags context circuit)
    (stands : Stands circuit tags context blocks names) (wire : WireDecl) :
    Build.Yields (addWire context names wire) circuit (wire.Drawable blocks)
      fun _ final => ∃ id, circuit.Appends context [id] final ∧
        wire.DepictedBy final blocks names context id := by
  obtain ⟨element, held, isContext, _⟩ := ready.held
  have contains : element.kind.isContainer := by rw [isContext]; rfl
  refine Build.Yields.iff ((resolvePoint_yields stands wire.start wire.line).bind
    fun start final _ atStart => ?_) WireDecl.drawable_iff
  obtain ⟨rfl, atStart⟩ := atStart
  refine (resolvePoint_yields stands wire.stop wire.line).bind fun stop final _ atStop => ?_
  obtain ⟨rfl, atStop⟩ := atStop
  have arePins : ∀ pin ∈ [start, stop], circuit.isPin pin := by
    simp [atStart.isPin stands, atStop.isPin stands]
  have samePins := atStart.eq_iff ready stands atStop
  by_cases same : start = stop
  · have failed := Build.addWire_loop held contains arePins same wire.start.inverted
      wire.stop.inverted
    exact (Build.yields_error (Build.bind_error failed)).iff (by simp [samePins.mp same])
  · have done := Build.addWire_ok held contains arePins same wire.start.inverted
      wire.stop.inverted
    have marked := Build.setBlock_ok (Circuit.get?_plant_new circuit context []
      (circuit.nameOf start ++ "-" ++ circuit.nameOf stop)
      (.wire ⟨start, stop, wire.start.inverted, wire.stop.inverted⟩)) ⟨wireBlock, wire.line⟩
    refine (Build.Yields.after done (Build.yields_ok marked ?_)).iff
      (iff_true_intro (mt samePins.mpr same))
    exact ⟨_, Circuit.Appends.mark .., depictedBy_join ready stands atStart atStop same
      (Circuit.Appends.mark ..) (Circuit.get?_mark ..)⟩

theorem addWires_yields (wires : List WireDecl) (ready : Ready tags context circuit)
    (stands : Stands circuit tags context blocks names) :
    Build.Yields (wires.forM (addWire context names)) circuit
      (∀ wire ∈ wires, wire.Drawable blocks)
      fun _ final => ∃ new, circuit.Appends context new final ∧
        List.Forall₂ (fun wire id => wire.DepictedBy final blocks names context id) wires new := by
  induction wires generalizing circuit with
  | nil => exact (Build.yields_ok rfl ⟨[], .refl circuit context, .nil⟩).iff (by simp)
  | cons wire wires ih =>
      refine Build.Yields.iff ((addWire_yields ready stands wire).bind
        fun _ made _ ⟨id, adds, depicted⟩ => ?_) List.forall_mem_cons
      have stays := stands.settles (ready.settles adds)
      refine (ih (ready.adds adds) stays).mono fun _ final _ ⟨new, more, each⟩ => ?_
      exact ⟨id :: new, adds.trans more,
        .cons (depicted.settles stays ((ready.adds adds).settles more)) each⟩

end RelayLogic.Diagram
