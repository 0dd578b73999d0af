import RelayLogic.Proofs.Cycle

/-!
Unknown values that become known. Where no timer is computed, a run on vaguer cells never
contradicts the run on the cells that they stand for: what it knows is what the other run knows.
-/

namespace RelayLogic

namespace Tri

variable {value other first second : Tri}

/-- Whether a value is another one or leaves it open. -/
def Vaguer (value other : Tri) : Prop :=
  value = .unknown ∨ value = other

instance (value other : Tri) : Decidable (value.Vaguer other) :=
  inferInstanceAs (Decidable (_ ∨ _))

namespace Vaguer

theorem unknown (value : Tri) : Tri.unknown.Vaguer value :=
  Or.inl rfl

theorem refl (value : Tri) : value.Vaguer value :=
  Or.inr rfl

theorem invertIf (vaguer : value.Vaguer other) (inverted : Bool) :
    (value.invertIf inverted).Vaguer (other.invertIf inverted) := by
  rcases vaguer with rfl | rfl
  · cases inverted <;> exact unknown _
  · exact refl _

theorem and (left : value.Vaguer other) (right : first.Vaguer second) :
    (value.and first).Vaguer (other.and second) := by
  rcases left with rfl | rfl <;> rcases right with rfl | rfl
  · exact unknown _
  · cases first
    case false => cases other <;> exact refl _
    all_goals exact unknown _
  · cases value
    case false => exact refl _
    all_goals exact unknown _
  · exact refl _

theorem or (left : value.Vaguer other) (right : first.Vaguer second) :
    (value.or first).Vaguer (other.or second) := by
  rcases left with rfl | rfl <;> rcases right with rfl | rfl
  · exact unknown _
  · cases first
    case true => cases other <;> exact refl _
    all_goals exact unknown _
  · cases value
    case true => exact refl _
    all_goals exact unknown _
  · exact refl _

end Vaguer

end Tri

structure States.Vaguer (cells finer : States) : Prop where
  size : finer.size = cells.size
  cell : ∀ slot, (cells.getD slot .unknown).Vaguer (finer.getD slot .unknown)

namespace States.Vaguer

variable {cells finer : States}

theorem set (vaguer : cells.Vaguer finer) (slot : Nat) {value other : Tri}
    (written : value.Vaguer other) :
    States.Vaguer (cells.setIfInBounds slot value) (finer.setIfInBounds slot other) := by
  refine ⟨by simp [vaguer.size], fun place => ?_⟩
  have kept := vaguer.cell place
  simp only [Array.getD_eq_getD_getElem?, Array.getElem?_setIfInBounds, vaguer.size] at kept ⊢
  by_cases here : slot = place
  · by_cases bound : slot < cells.size
    · simpa [here, here ▸ bound] using written
    · simp [here, here ▸ bound, Tri.Vaguer.unknown]
  · simpa [here] using kept

theorem read (vaguer : cells.Vaguer finer) (binding : Binding) :
    (binding.read cells).Vaguer (binding.read finer) :=
  (vaguer.cell binding.source).invertIf binding.inverted

theorem readOnly (vaguer : cells.Vaguer finer) (bindings : List Binding) :
    (Binding.readOnly bindings cells).Vaguer (Binding.readOnly bindings finer) := by
  unfold Binding.readOnly
  split
  next binding => exact vaguer.read binding
  next => exact .unknown _

theorem apply {value other first second : Tri} (kind : GateKind) (left : value.Vaguer other)
    (right : first.Vaguer second) : (kind.apply value first).Vaguer (kind.apply other second) := by
  cases kind with
  | and => exact left.and right
  | or => exact left.or right

theorem foldl (vaguer : cells.Vaguer finer) (kind : GateKind) (bindings : List Binding)
    {value other : Tri} (start : value.Vaguer other) :
    (bindings.foldl (fun value binding => kind.apply value (binding.read cells)) value).Vaguer
      (bindings.foldl (fun value binding => kind.apply value (binding.read finer)) other) := by
  induction bindings generalizing value other with
  | nil => exact start
  | cons binding bindings ih => exact ih (apply kind start (vaguer.read binding))

theorem evaluate (vaguer : cells.Vaguer finer) (kind : GateKind) (bindings : List Binding) :
    (kind.evaluate bindings cells).Vaguer (kind.evaluate bindings finer) := by
  unfold GateKind.evaluate
  split
  next first second rest => exact vaguer.foldl kind (second :: rest) (vaguer.read first)
  next => exact .unknown _

end States.Vaguer

def Behaviour.isTimed : Behaviour → Bool
  | .onDelay _ | .offDelay _ | .pulse _ => true
  | .pass _ | .gate _ | .latch => false

namespace Strategy

variable {strategy : Strategy}

theorem calculate_untimed (untimed : strategy.behaviour.isTimed = false) (states : States)
    (now : Nat) : (strategy.calculate states now).2 = strategy := by
  unfold calculate
  cases same : strategy.behaviour <;> first | rfl | simp [same, Behaviour.isTimed] at untimed

theorem calculate_vaguer (untimed : strategy.behaviour.isTimed = false) {cells finer : States}
    (vaguer : cells.Vaguer finer) (now : Nat) :
    (strategy.calculate cells now).1.Vaguer (strategy.calculate finer now).1 := by
  unfold calculate
  cases same : strategy.behaviour with
  | pass _ => exact vaguer.readOnly strategy.bindings
  | gate kind => exact vaguer.evaluate kind strategy.bindings
  | latch => exact .unknown _
  | onDelay _ | offDelay _ | pulse _ => simp [same, Behaviour.isTimed] at untimed

end Strategy

namespace Plan

variable {plan finer : Plan}

def Untimed (plan : Plan) : Prop :=
  ∀ slot strategy, plan.computes slot → plan.strategies[slot]? = some strategy →
    strategy.behaviour.isTimed = false

structure Vaguer (plan finer : Plan) : Prop where
  rest : finer = { plan with states := finer.states }
  cells : plan.states.Vaguer finer.states

theorem strategies_calculate {slot : Nat} (untimed : ∀ strategy,
    plan.strategies[slot]? = some strategy → strategy.behaviour.isTimed = false) :
    (plan.calculate slot).strategies = plan.strategies := by
  cases held : plan.strategies[slot]? with
  | none => simp only [calculate, held]
  | some strategy =>
      obtain ⟨bound, equal⟩ := Array.getElem?_eq_some_iff.mp held
      rw [calculate_of_some held, Strategy.calculate_untimed (untimed strategy held)]
      simp [Array.setIfInBounds, bound, ← equal]

theorem Vaguer.calculate (vaguer : plan.Vaguer finer) {slot : Nat} (untimed : ∀ strategy,
    plan.strategies[slot]? = some strategy → strategy.behaviour.isTimed = false) :
    (plan.calculate slot).Vaguer (finer.calculate slot) := by
  obtain ⟨rest, cells⟩ := vaguer
  generalize finer.states = others at rest cells
  subst rest
  cases held : plan.strategies[slot]? with
  | none =>
      simp only [Plan.calculate, held]
      exact ⟨rfl, cells⟩
  | some strategy =>
      have alone := untimed strategy held
      have other : { plan with states := others }.strategies[slot]? = some strategy := held
      rw [calculate_of_some held, calculate_of_some other, Strategy.calculate_untimed alone,
        Strategy.calculate_untimed alone]
      exact ⟨rfl, cells.set slot (Strategy.calculate_vaguer alone cells _)⟩

theorem Vaguer.sweep (vaguer : plan.Vaguer finer) {slots : List Nat} (untimed : ∀ slot ∈ slots,
    ∀ strategy, plan.strategies[slot]? = some strategy → strategy.behaviour.isTimed = false) :
    (plan.sweep slots).Vaguer (finer.sweep slots) ∧
      (plan.sweep slots).strategies = plan.strategies := by
  induction slots generalizing plan finer with
  | nil => exact ⟨vaguer, rfl⟩
  | cons slot slots ih =>
      obtain ⟨first, others⟩ := List.forall_mem_cons.mp untimed
      have same := strategies_calculate first
      rw [sweep_cons, sweep_cons, ← same]
      refine ih (vaguer.calculate first) ?_
      rwa [same]

theorem Vaguer.evaluate (vaguer : plan.Vaguer finer) (scheduled : plan.Scheduled)
    (untimed : plan.Untimed) :
    plan.evaluate.Vaguer finer.evaluate ∧ plan.evaluate.strategies = plan.strategies := by
  obtain ⟨rest, cells⟩ := vaguer
  generalize finer.states = others at rest cells
  subst rest
  have started : { plan with clock := plan.clock.advance }.Vaguer
      { plan with states := others, clock := plan.clock.advance } := ⟨rfl, cells⟩
  exact started.sweep fun slot member strategy held =>
    untimed slot strategy ((scheduled.member slot).mp member) held

inductive Event
  | cycle
  | write (element : ElementId) (value : Tri)
  deriving DecidableEq, Repr

/-- The plan after an event. A write that is refused changes nothing. -/
def meet (plan : Plan) : Event → Plan
  | .cycle => plan.evaluate
  | .write element value => (plan.setValue element value).toOption.getD plan

def after (plan : Plan) (events : List Event) : Plan :=
  events.foldl meet plan

inductive Event.Vaguer : Event → Event → Prop
  | cycle : Vaguer .cycle .cycle
  | write {element value other} (vaguer : Tri.Vaguer value other) :
      Vaguer (.write element value) (.write element other)

theorem meet_write (plan : Plan) (element : ElementId) (value : Tri) :
    plan.meet (.write element value) = match plan.slot element with
      | some slot => { plan with states := plan.states.setIfInBounds slot value }
      | none => plan := by
  cases found : plan.slot element <;> simp [meet, setValue, found, Except.toOption]

theorem Vaguer.write (vaguer : plan.Vaguer finer) (element : ElementId) {value other : Tri}
    (written : value.Vaguer other) :
    (plan.meet (.write element value)).Vaguer (finer.meet (.write element other)) := by
  obtain ⟨rest, cells⟩ := vaguer
  have same : finer.slot element = plan.slot element := by
    rw [rest]
    rfl
  rw [meet_write, meet_write, same]
  cases plan.slot element with
  | none => exact ⟨rest, cells⟩
  | some slot =>
      refine ⟨?_, cells.set slot written⟩
      rw [rest]

theorem Vaguer.meet (vaguer : plan.Vaguer finer) (scheduled : plan.Scheduled)
    (untimed : plan.Untimed) {event other : Event} (alike : event.Vaguer other) :
    (plan.meet event).Vaguer (finer.meet other) ∧ (plan.meet event).Scheduled ∧
      (plan.meet event).Untimed := by
  cases alike with
  | cycle =>
      obtain ⟨evaluated, strategies⟩ := vaguer.evaluate scheduled untimed
      refine ⟨evaluated, scheduled.evaluate, ?_⟩
      intro slot strategy computed held
      rw [Plan.meet, computes_evaluate] at computed
      rw [Plan.meet, strategies] at held
      exact untimed slot strategy computed held
  | @write element value other written =>
      refine ⟨vaguer.write element written, ?_⟩
      rw [meet_write]
      cases plan.slot element with
      | none => exact ⟨scheduled, untimed⟩
      | some slot => exact ⟨scheduled.withStates (by simp), untimed⟩

theorem Vaguer.after (vaguer : plan.Vaguer finer) (scheduled : plan.Scheduled)
    (untimed : plan.Untimed) {events others : List Event}
    (alike : List.Forall₂ Event.Vaguer events others) :
    (plan.after events).Vaguer (finer.after others) := by
  induction alike generalizing plan finer with
  | nil => exact vaguer
  | cons first _ ih =>
      obtain ⟨met, scheduled, untimed⟩ := vaguer.meet scheduled untimed first
      exact ih met scheduled untimed

end Plan

/-- Runs of a plan without computed timers, from cells and with writes that one of them leaves open
at most: whatever that one knows, the other one agrees with. -/
theorem Circuit.after_vaguer {circuit prepared : Circuit} {resolution : Nat} {plan : Plan}
    (compiled : circuit.compile resolution = .ok (plan, prepared)) (untimed : plan.Untimed)
    {cells finer : States} (vaguer : cells.Vaguer finer) (size : cells.size = plan.states.size)
    {events others : List Plan.Event} (alike : List.Forall₂ Plan.Event.Vaguer events others) :
    ({ plan with states := cells }.after events).states.Vaguer
      ({ plan with states := finer }.after others).states := by
  have started : { plan with states := cells }.Vaguer { plan with states := finer } := ⟨rfl, vaguer⟩
  exact (started.after ((scheduled_of_compile compiled).withStates size) untimed alike).cells

def Circuit.stairs : Circuit :=
  (Circuit.empty "plant").afterCalls [
    .addProject "cell", .addContext 1 "line", .addTag "left" .unknown, .addTag "right" .unknown,
    .addTag "lamp" .unknown, .addSignal 2 "left" (some 3), .addSignal 2 "right" (some 4),
    .addSignal 2 "lamp" (some 5), .addGate 2 .or "hold", .addWire 2 7 15 false false,
    .addWire 2 10 16 true false, .addWire 2 13 17 false false, .addWire 2 18 12 false false]

theorem Circuit.stairs_vaguer : ∃ plan prepared, stairs.compile 10 = .ok (plan, prepared) ∧
    plan.Untimed ∧ 0 < plan.cyclesDetected ∧
      ∃ cells finer : States, cells.Vaguer finer ∧ cells.size = plan.states.size ∧
        ∃ events others, List.Forall₂ Plan.Event.Vaguer events others ∧
          ({ plan with states := cells }.after events).states.Vaguer
              ({ plan with states := finer }.after others).states ∧
            ({ plan with states := cells }.after events).value 5 = some .true := by
  have compiled := compile_ok stairs (show 10 ≠ 0 by decide)
  have untimed : (stairs.prepared.planOf (.new 10)).Untimed := by
    have all : ∀ strategy ∈ (stairs.prepared.planOf (.new 10)).strategies,
        strategy.behaviour.isTimed = false := by decide +kernel
    exact fun _ strategy _ held => all strategy (Array.mem_of_getElem? held)
  have vaguer : States.Vaguer #[.unknown, .unknown, .unknown, .unknown]
      #[.unknown, .true, .false, .unknown] :=
    ⟨rfl, fun slot => by
      match slot with
      | 0 | 1 | 2 | 3 => decide
      | _ + 4 => exact .unknown _⟩
  have size : 4 = (stairs.prepared.planOf (.new 10)).states.size := by decide +kernel
  have alike : List.Forall₂ Plan.Event.Vaguer
      [.cycle, .write 3 .true, .write 4 .unknown, .cycle, .write 3 .unknown, .cycle]
      [.cycle, .write 3 .true, .write 4 .true, .cycle, .write 3 .false, .cycle] :=
    .cons .cycle (.cons (.write (.refl _)) (.cons (.write (.unknown _)) (.cons .cycle
      (.cons (.write (.unknown _)) (.cons .cycle .nil)))))
  exact ⟨_, _, compiled, untimed, by decide +kernel, _, _, vaguer, size, _, _, alike,
    after_vaguer compiled untimed vaguer size alike, by decide +kernel⟩

end RelayLogic
