import RelayLogic.Proofs.Adding

/-!
The calls that build circuits, as data, and what a sequence of them leads to. A property that each
kind of change keeps is kept by every call, whether it succeeds or fails.
-/

namespace RelayLogic

inductive Call
  | addProject (name : String)
  | addContext (project : ElementId) (name : String)
  | addTag (name : String) (initial : Tri)
  | addPin (container : ElementId) (name : String)
  | addSignal (context : ElementId) (name : String) (tag : Option ElementId)
  | addGate (context : ElementId) (kind : GateKind) (name : String)
  | addTimer (context : ElementId) (kind : TimerKind) (name : String) (delay : Seconds)
  | addMemory (context : ElementId) (kind : LatchKind) (name : String)
  | addWire (context start stop : ElementId) (invertStart invertStop : Bool)
  | signalFromPins (context : ElementId) (name : String) (tag : Option ElementId)
      (input output : ElementId)
  | logicFromPins (context : ElementId) (kind : Kind) (name : String)
      (left right top bottom : ElementId)
  | adopt (owner : ElementId) (children : List ElementId)
  | bindTag (signal tag : ElementId)
  | setBlock (id : ElementId) (block : BlockRef)
  deriving DecidableEq, Repr

namespace Call

def build : Call → Build (Option ElementId)
  | addProject name => some <$> Build.addProject name
  | addContext project name => some <$> Build.addContext project name
  | addTag name initial => some <$> Build.addTag name initial
  | addPin container name => some <$> Build.addPin container name
  | addSignal context name tag => some <$> Build.addSignal context name tag
  | addGate context kind name => some <$> Build.addGate context kind name
  | addTimer context kind name delay => some <$> Build.addTimer context kind name delay
  | addMemory context kind name => some <$> Build.addMemory context kind name
  | addWire context start stop invertStart invertStop =>
    some <$> Build.addWire context start stop invertStart invertStop
  | signalFromPins context name tag input output =>
    some <$> Build.signalFromPins context name tag input output
  | logicFromPins context kind name left right top bottom =>
    some <$> Build.logicFromPins context kind name [left, right, top, bottom]
  | adopt owner children => do Build.adopt owner children; return none
  | bindTag signal tag => do Build.bindTag signal tag; return none
  | setBlock id block => do Build.setBlock id block; return none

def isDrawing : Call → Bool
  | signalFromPins .. | logicFromPins .. | adopt .. | setBlock .. => false
  | _ => true

end Call

def Circuit.afterCalls (circuit : Circuit) (calls : List Call) : Circuit :=
  calls.foldl (fun circuit call => Change.after call.build circuit) circuit

namespace Build

open Change (Keeps after keeps_pure keeps_throw_bind keeps_modify keeps_forM keeps_mapM)

variable {property : Circuit → Prop}

theorem keeps_ask (question : Circuit → Except Error α) : Keeps property (ask question) := by
  intro circuit holds
  simp only [after, ask]
  cases question circuit <;> exact holds

theorem keeps_expect {id : ElementId} {expected : Expected} {condition : Kind → Bool}
    {next : Unit → Build α} (kept : ∀ circuit element, circuit.get? id = some element →
      condition element.kind → property circuit → property (after (next ()) circuit)) :
    Keeps property (expect id expected condition >>= next) := by
  intro circuit holds
  rcases expect_cases circuit id expected condition with ⟨element, held, known⟩ | ⟨error, failed⟩
  · rw [after, bind_ok (expect_ok held known)]
    exact kept circuit element held known holds
  · rw [after, bind_error failed]
    exact holds

theorem keeps_expectPins {pins : List ElementId} {next : Unit → Build α}
    (kept : ∀ circuit, (∀ pin ∈ pins, circuit.isPin pin) → property circuit →
      property (after (next ()) circuit)) : Keeps property (expectPins pins >>= next) := by
  intro circuit holds
  rcases expectPins_cases circuit pins with arePins | ⟨error, failed⟩
  · rw [after, bind_ok (expectPins_ok arePins)]
    exact kept circuit arePins holds
  · rw [after, bind_error failed]
    exact holds

/-- A property that every kind of change that builders make keeps, whatever is changed. -/
structure Stable (property : Circuit → Prop) : Prop where
  push : ∀ circuit owner name kind, (∀ pin, kind = .pin pin → pin = .floating) →
    property circuit → property (circuit.push owner name kind)
  move : ∀ circuit owner child, property circuit → property (circuit.moveChild owner child)
  fix : ∀ circuit id direction, direction ≠ .undefined → property circuit →
    property (circuit.update id fun element => { element with kind := .pin (.fixed direction) })
  retag : ∀ circuit signal tag, property circuit →
    property (circuit.update signal fun element => { element with kind := .signal tag })
  label : ∀ circuit id block, property circuit →
    property (circuit.update id fun element => { element with block := some block })

/-- A property that every kind of change keeps that builders make once they have checked what they
change: owners and children exist, a wire joins two pins, what is fixed is a pin, and what is mapped
is a signal. -/
structure Guarded (property : Circuit → Prop) : Prop where
  push : ∀ circuit owner name kind, (owner = Circuit.solution ∨ owner < circuit.size) →
    (∀ pin, kind = .pin pin → pin = .floating) →
    (∀ wire, kind = .wire wire →
      circuit.isPin wire.start ∧ circuit.isPin wire.stop ∧ wire.start ≠ wire.stop) →
    property circuit → property (circuit.push owner name kind)
  move : ∀ circuit owner child, owner < circuit.size → child < circuit.size →
    property circuit → property (circuit.moveChild owner child)
  fix : ∀ circuit id direction, direction ≠ .undefined → circuit.isPin id → property circuit →
    property (circuit.update id fun element => { element with kind := .pin (.fixed direction) })
  retag : ∀ circuit signal tag, circuit.IsSignal signal → property circuit →
    property (circuit.update signal fun element => { element with kind := .signal tag })
  label : ∀ circuit id block, property circuit →
    property (circuit.update id fun element => { element with block := some block })

theorem Stable.guarded (stable : Stable property) : Guarded property where
  push circuit owner name kind _ floating _ := stable.push circuit owner name kind floating
  move circuit owner child _ _ := stable.move circuit owner child
  fix circuit id direction known _ := stable.fix circuit id direction known
  retag circuit signal tag _ := stable.retag circuit signal tag
  label := stable.label

def Known (id : Nat) (property : Circuit → Prop) (circuit : Circuit) : Prop :=
  id < circuit.size ∧ property circuit

theorem keeps_element {id : ElementId} {next : Element → Build α}
    (kept : ∀ element, Keeps (Known id property) (next element)) :
    Keeps property (ask (·.element id) >>= next) := by
  intro circuit holds
  cases held : circuit.get? id with
  | none =>
      have missing : circuit.element id = .error (.elementNotFound id) := by
        simp only [Circuit.element, held]
      have failed : ask (·.element id) circuit = .error (.elementNotFound id) circuit := by
        simp only [ask, missing]
      rw [after, bind_error failed]
      exact holds
  | some element =>
      rw [after, bind_ok (ask_ok (Circuit.element_ok_iff.mpr held))]
      exact (kept element circuit ⟨Circuit.get?_lt held, holds⟩).2

theorem keeps_owner {owner : ElementId} {expected : Expected} {condition : Kind → Bool}
    {next : Unit → Build α} (kept : Keeps (Known owner property) (next ())) :
    Keeps property (expect owner expected condition >>= next) :=
  keeps_expect fun circuit _ held _ holds => (kept circuit ⟨Circuit.get?_lt held, holds⟩).2

namespace Guarded

variable (guarded : Guarded property)

include guarded

theorem known (id : ElementId) : Guarded (Known id property) where
  push circuit owner name kind there floating joins := fun ⟨bound, holds⟩ => by
    refine ⟨?_, guarded.push circuit owner name kind there floating joins holds⟩
    rw [Circuit.size_push]
    exact Nat.lt_add_right 1 bound
  move circuit owner child ownerThere childThere := fun ⟨bound, holds⟩ =>
    ⟨by rwa [Circuit.size_moveChild], guarded.move circuit owner child ownerThere childThere holds⟩
  fix circuit pin direction directed isPin := fun ⟨bound, holds⟩ =>
    ⟨by rwa [Circuit.size_update], guarded.fix circuit pin direction directed isPin holds⟩
  retag circuit signal tag isSignal := fun ⟨bound, holds⟩ =>
    ⟨by rwa [Circuit.size_update], guarded.retag circuit signal tag isSignal holds⟩
  label circuit element block := fun ⟨bound, holds⟩ =>
    ⟨by rwa [Circuit.size_update], guarded.label circuit element block holds⟩

theorem keeps_top (name : String) {kind : Kind}
    (floating : ∀ pin, kind = .pin pin → pin = .floating) (notWire : ∀ wire, kind ≠ .wire wire) :
    Keeps property (Build.push Circuit.solution name kind) :=
  fun circuit holds => guarded.push circuit Circuit.solution name kind (Or.inl rfl) floating
    (fun wire isWire => absurd isWire (notWire wire)) holds

theorem keeps_push (owner : ElementId) (name : String) {kind : Kind}
    (floating : ∀ pin, kind = .pin pin → pin = .floating) (notWire : ∀ wire, kind ≠ .wire wire) :
    Keeps (Known owner property) (Build.push owner name kind) :=
  fun circuit holds => (guarded.known owner).push circuit owner name kind (Or.inr holds.1) floating
    (fun wire isWire => absurd isWire (notWire wire)) holds

theorem keeps_adopt (owner : ElementId) (children : List ElementId) :
    Keeps property (Build.adopt owner children) :=
  keeps_element fun _ => keeps_forM fun child => keeps_element fun _ => keeps_modify
    fun circuit holds =>
      ((guarded.known owner).known child).move circuit owner child holds.2.1 holds.1 holds

theorem keeps_addPin (container : ElementId) (name : String) :
    Keeps property (Build.addPin container name) :=
  keeps_owner (guarded.keeps_push container name (by simp) (by simp))

theorem keeps_fixPin (id : ElementId) {direction : Direction} (known : direction ≠ .undefined) :
    Keeps property (Build.changePin id fun _ => .fixed direction) := by
  intro circuit holds
  cases checked : circuit.pin id with
  | ok pin =>
      have isPin := Circuit.isPin_iff.mpr ⟨pin, checked⟩
      rw [after, fixPin_ok isPin]
      exact guarded.fix circuit id direction known isPin holds
  | error error =>
      have failed : ask (·.pin id) circuit = .error error circuit := by
        simp only [ask, checked]
      rw [after, changePin, bind_error failed]
      exact holds

theorem keeps_signalFromPins (context : ElementId) (name : String) (tag : Option ElementId)
    (input output : ElementId) :
    Keeps property (Build.signalFromPins context name tag input output) := by
  have known := guarded.known context
  exact keeps_owner <| (keeps_ask _).bind fun _ =>
    (guarded.keeps_push context name (by simp) (by simp)).bind fun _ =>
      (known.keeps_adopt _ _).bind fun _ => (known.keeps_fixPin input (by decide)).bind fun _ =>
        (known.keeps_fixPin output (by decide)).bind fun _ => keeps_pure _

theorem keeps_addSignal (context : ElementId) (name : String) (tag : Option ElementId) :
    Keeps property (Build.addSignal context name tag) := by
  have rest : Keeps property (do
      let input ← Build.addPin context (name ++ ".in")
      let output ← Build.addPin context (name ++ ".out")
      Build.signalFromPins context name tag input output) :=
    (guarded.keeps_addPin _ _).bind fun _ => (guarded.keeps_addPin _ _).bind fun _ =>
      guarded.keeps_signalFromPins _ _ _ _ _
  cases tag with
  | none => exact rest
  | some id => exact (keeps_ask _).bind fun _ => rest

theorem keeps_logicFromPins (context : ElementId) (kind : Kind) (name : String)
    (pins : List ElementId) : Keeps property (Build.logicFromPins context kind name pins) := by
  refine Keeps.ite (fun _ => keeps_throw_bind _ _) fun logic => ?_
  have floating : ∀ pin, kind = .pin pin → pin = .floating := by
    rintro pin rfl
    exact absurd rfl logic
  have notWire : ∀ wire, kind ≠ .wire wire := by
    rintro wire rfl
    exact absurd rfl logic
  exact keeps_owner <| (keeps_ask _).bind fun _ =>
    (guarded.keeps_push context name floating notWire).bind fun _ =>
      ((guarded.known context).keeps_adopt _ _).bind fun _ => keeps_pure _

theorem keeps_addLogic (context : ElementId) (kind : Kind) (name : String) :
    Keeps property (Build.addLogic context kind name) :=
  (keeps_mapM fun _ => guarded.keeps_addPin _ _).bind fun _ =>
    guarded.keeps_logicFromPins _ _ _ _

theorem keeps_addWire (context start stop : ElementId) (invertStart invertStop : Bool) :
    Keeps property (Build.addWire context start stop invertStart invertStop) := by
  refine keeps_owner (keeps_expectPins fun circuit arePins holds => ?_)
  by_cases same : start = stop
  · simp only [same, ↓reduceIte]
    exact holds
  · simp only [same, ↓reduceIte]
    refine (guarded.known context).push circuit context _ _ (Or.inr holds.1) (by simp) ?_ holds
    rintro wire ⟨⟩
    exact ⟨arePins start (by simp), arePins stop (by simp), same⟩

theorem keeps_call (call : Call) : Keeps property call.build := by
  cases call with
  | addProject name => exact (guarded.keeps_top name (by simp) (by simp)).map _
  | addContext project name =>
      exact (keeps_owner (guarded.keeps_push project name (by simp) (by simp))).map _
  | addTag name initial => exact (guarded.keeps_top name (by simp) (by simp)).map _
  | addPin container name => exact (guarded.keeps_addPin container name).map _
  | addSignal context name tag => exact (guarded.keeps_addSignal context name tag).map _
  | addGate context kind name => exact (guarded.keeps_addLogic context (.gate kind) name).map _
  | addTimer context kind name delay =>
      exact (guarded.keeps_addLogic context (.timer kind delay) name).map _
  | addMemory context kind name => exact (guarded.keeps_addLogic context (.memory kind) name).map _
  | addWire context start stop invertStart invertStop =>
      exact (guarded.keeps_addWire context start stop invertStart invertStop).map _
  | signalFromPins context name tag input output =>
      exact (guarded.keeps_signalFromPins context name tag input output).map _
  | logicFromPins context kind name left right top bottom =>
      exact (guarded.keeps_logicFromPins context kind name _).map _
  | adopt owner children => exact (guarded.keeps_adopt owner children).bind fun _ => keeps_pure _
  | bindTag signal tag =>
      refine Keeps.bind ((keeps_ask _).bind fun _ => ?_) fun _ => keeps_pure _
      exact keeps_expect fun circuit element held isSignal holds =>
        guarded.retag circuit signal (some tag) ⟨element, held, isSignal⟩ holds
  | setBlock id block =>
      exact ((keeps_ask _).bind fun _ => keeps_modify fun circuit =>
        guarded.label circuit id block).bind fun _ => keeps_pure _

theorem afterCalls {circuit : Circuit} (holds : property circuit) (calls : List Call) :
    property (circuit.afterCalls calls) := by
  induction calls generalizing circuit with
  | nil => exact holds
  | cons call calls ih => exact ih (guarded.keeps_call call circuit holds)

end Guarded

theorem Stable.afterCalls (stable : Stable property) {circuit : Circuit} (holds : property circuit)
    (calls : List Call) : property (circuit.afterCalls calls) :=
  stable.guarded.afterCalls holds calls

end Build

end RelayLogic
