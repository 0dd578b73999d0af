import RelayLogic.Proofs.Taking
import Mathlib.Data.Finset.Card

/-!
What the calls that add elements make of a circuit, one element at a time. Whatever pins elements
take from each other, the circuit stays a tree, and for each signal there are at most two pins that
have a direction from the start.
-/

namespace RelayLogic

structure Rules where
  holds : Kind → Prop
  names : String → Prop
  memories : Prop
  contains : ∀ kind, holds kind → kind.isContainer

theorem Kind.isContainer_of_context {kind : Kind} (isContext : kind = .context) : kind.isContainer := by
  rw [isContext]
  rfl

def Rules.any : Rules :=
  ⟨(Kind.isContainer ·), fun _ => True, True, fun _ contains => contains⟩

/-- Whether an element may own another one. Where pins may be taken, nothing is known of the pins
that an element owns. -/
def Kind.Carries (rules : Rules) (owner : Kind) : Kind → Prop
  | .solution => False
  | .project | .tag _ _ => owner = .solution
  | .context => owner = .project
  | .pin _ => owner.isSignal ∨ owner.isLogic ∨ rules.holds owner
  | .wire _ | .signal _ | .gate _ | .timer _ _ => rules.holds owner
  | .memory _ => rules.holds owner ∧ rules.memories

namespace Circuit

variable {rules : Rules} {circuit made : Circuit} {records : Nat}

def directed (circuit : Circuit) : Finset Nat :=
  {id ∈ Finset.range circuit.size | circuit.direction id ≠ .undefined}

def signalIds (circuit : Circuit) : Finset Nat :=
  {id ∈ Finset.range circuit.size | circuit.IsSignal id}

def Paired (circuit : Circuit) : Prop :=
  circuit.directed.card ≤ 2 * circuit.signalIds.card

/-- A circuit as calls that add elements leave it. -/
structure Sound (rules : Rules) (circuit : Circuit) : Prop where
  tree : circuit.Tree (Kind.Carries rules)
  named : circuit.Every fun element => element.kind.isTag → rules.names element.name
  settled : circuit.Every Element.Settled
  paired : circuit.Paired

def fixPin (circuit : Circuit) (id : ElementId) (direction : Direction) : Circuit :=
  circuit.update id fun element => { element with kind := .pin (.fixed direction) }

def takeSignal (circuit : Circuit) (owner : ElementId) (name : String) (tag : Option ElementId)
    (input output : ElementId) : Circuit :=
  ((circuit.take owner name (.signal tag) [input, output]).fixPin input .input).fixPin output
    .output

/-- What a circuit becomes by one more element or by mapping a signal onto a tag, with the number
of records that tell of it. -/
inductive Gains (rules : Rules) (circuit : Circuit) :
    Nat → Circuit → Prop
  | push {owner container name kind} (held : circuit.get? owner = some container)
      (carries : container.kind.Carries rules kind) (notSignal : kind.isSignal = false)
      (floating : ∀ pin, kind = .pin pin → pin = .floating) (named : kind.isTag → rules.names name) :
      Gains rules circuit 1 (circuit.push owner name kind)
  | bind {signal tag} (isSignal : circuit.IsSignal signal) (isTag : circuit.IsTag tag) :
      Gains rules circuit 1
        (circuit.update signal fun element => { element with kind := .signal (some tag) })
  | logic {owner container name kind pins} (held : circuit.get? owner = some container)
      (contains : rules.holds container.kind) (isLogic : kind.isLogic)
      (allowed : ∀ latch, kind = .memory latch → rules.memories)
      (arePins : ∀ pin ∈ pins, circuit.isPin pin) :
      Gains rules circuit 1 (circuit.take owner name kind pins)
  | signal {owner container name input output} {tag : Option ElementId}
      (held : circuit.get? owner = some container) (contains : rules.holds container.kind)
      (arePins : ∀ pin ∈ [input, output], circuit.isPin pin) :
      Gains rules circuit (1 + tag.toList.length)
        (circuit.takeSignal owner name tag input output)

theorem mem_directed {id : Nat} : id ∈ circuit.directed ↔
    ∃ pin, circuit.kind? id = some (.pin pin) ∧ pin.direction ≠ .undefined := by
  simp only [directed, Finset.mem_filter, Finset.mem_range]
  constructor
  · rintro ⟨bound, known⟩
    obtain ⟨element, held⟩ := exists_get? bound
    obtain ⟨name, kind, owner, children, evaluator, block⟩ := element
    cases kind with
    | pin pin =>
        rw [direction_of_pin held rfl] at known
        exact ⟨pin, kind?_eq_some.mpr ⟨_, held, rfl⟩, known⟩
    | _ => simp [direction, held] at known
  · rintro ⟨pin, isPin, known⟩
    obtain ⟨element, held, same⟩ := kind?_eq_some.mp isPin
    exact ⟨get?_lt held, by rwa [direction_of_pin held same]⟩

theorem mem_signalIds {id : Nat} : id ∈ circuit.signalIds ↔
    ∃ kind, circuit.kind? id = some kind ∧ kind.isSignal := by
  simp only [signalIds, Finset.mem_filter, Finset.mem_range]
  constructor
  · rintro ⟨_, element, held, isSignal⟩
    exact ⟨_, kind?_eq_some.mpr ⟨element, held, rfl⟩, isSignal⟩
  · rintro ⟨kind, isKind, isSignal⟩
    obtain ⟨element, held, rfl⟩ := kind?_eq_some.mp isKind
    exact ⟨get?_lt held, element, held, isSignal⟩

theorem Paired.mono (paired : circuit.Paired) (pins : made.directed ⊆ circuit.directed)
    (signals : circuit.signalIds ⊆ made.signalIds) : made.Paired :=
  (Finset.card_le_card pins).trans
    (paired.trans (Nat.mul_le_mul_left 2 (Finset.card_le_card signals)))

theorem Paired.grow (paired : circuit.Paired) {kind : Kind}
    (floating : ∀ pin, kind = .pin pin → pin = .floating)
    (kinds : ∀ id, made.kind? id = if id = circuit.size then some kind else circuit.kind? id) :
    made.Paired := by
  refine paired.mono (fun id member => ?_) fun id member => ?_
  · obtain ⟨pin, isPin, known⟩ := mem_directed.mp member
    rw [kinds] at isPin
    split at isPin
    · rw [floating pin (Option.some.inj isPin)] at known
      exact absurd rfl known
    · exact mem_directed.mpr ⟨pin, isPin, known⟩
  · obtain ⟨signal, isKind, isSignal⟩ := mem_signalIds.mp member
    obtain ⟨element, held, _⟩ := kind?_eq_some.mp isKind
    refine mem_signalIds.mpr ⟨signal, ?_, isSignal⟩
    rw [kinds, if_neg (Nat.ne_of_lt (get?_lt held)), isKind]

theorem kind?_takeSignal (owner : ElementId) (name : String) (tag : Option ElementId)
    {input output : ElementId} (arePins : ∀ pin ∈ [input, output], circuit.isPin pin)
    (id : ElementId) :
    (circuit.takeSignal owner name tag input output).kind? id =
      if id = output then some (.pin (.fixed .output))
      else if id = input then some (.pin (.fixed .input))
      else if id = circuit.size then some (.signal tag)
      else circuit.kind? id := by
  have held : ∀ pin ∈ [input, output],
      pin ≠ circuit.size ∧ ∃ kind, circuit.kind? pin = some kind := by
    intro pin member
    obtain ⟨element, point, pinHeld, _⟩ := isPin_held (arePins pin member)
    exact ⟨Nat.ne_of_lt (get?_lt pinHeld), _, kind?_eq_some.mpr ⟨element, pinHeld, rfl⟩⟩
  obtain ⟨inputOld, first, inputKind⟩ := held input (by simp)
  obtain ⟨outputOld, second, outputKind⟩ := held output (by simp)
  simp only [takeSignal, fixPin, kind?_update, kind?_take]
  by_cases isOutput : id = output
  · subst isOutput
    by_cases isInput : id = input
    · simp [isInput, inputOld, inputKind]
    · simp [isInput, outputOld, outputKind]
  · by_cases isInput : id = input
    · subst isInput
      simp [isOutput, inputOld, inputKind]
    · simp [isOutput, isInput]

theorem Paired.takeSignal (paired : circuit.Paired) (owner : ElementId) (name : String)
    (tag : Option ElementId) {input output : ElementId}
    (arePins : ∀ pin ∈ [input, output], circuit.isPin pin) :
    (circuit.takeSignal owner name tag input output).Paired := by
  have kinds := kind?_takeSignal owner name tag arePins
  have pins : (circuit.takeSignal owner name tag input output).directed ⊆
      insert input (insert output circuit.directed) := by
    intro id member
    obtain ⟨pin, isPin, directed⟩ := mem_directed.mp member
    rw [kinds] at isPin
    simp only [Finset.mem_insert]
    split at isPin
    next isOutput => exact Or.inr (Or.inl isOutput)
    next =>
      split at isPin
      next isInput => exact Or.inl isInput
      next =>
        split at isPin
        next => cases isPin
        next => exact Or.inr (Or.inr (mem_directed.mpr ⟨pin, isPin, directed⟩))
  have old : ∀ pin ∈ [input, output], pin ≠ circuit.size ∧ pin ∉ circuit.signalIds := by
    intro pin member
    obtain ⟨element, point, held, isPin⟩ := isPin_held (arePins pin member)
    refine ⟨Nat.ne_of_lt (get?_lt held), fun isSignal => ?_⟩
    obtain ⟨kind, isKind, isSignal⟩ := mem_signalIds.mp isSignal
    rw [kind?_eq_some.mpr ⟨element, held, isPin⟩] at isKind
    cases isKind
    contradiction
  have signals : insert circuit.size circuit.signalIds ⊆
      (circuit.takeSignal owner name tag input output).signalIds := by
    intro id member
    rcases Finset.mem_insert.mp member with rfl | member
    · refine mem_signalIds.mpr ⟨.signal tag, ?_, rfl⟩
      rw [kinds, if_neg (old output (by simp)).1.symm, if_neg (old input (by simp)).1.symm,
        if_pos rfl]
    · obtain ⟨kind, isKind, isSignal⟩ := mem_signalIds.mp member
      obtain ⟨element, held, _⟩ := kind?_eq_some.mp isKind
      have notOutput : id ≠ output := fun same => (old output (by simp)).2 (same ▸ member)
      have notInput : id ≠ input := fun same => (old input (by simp)).2 (same ▸ member)
      refine mem_signalIds.mpr ⟨kind, ?_, isSignal⟩
      rw [kinds, if_neg notOutput, if_neg notInput, if_neg (Nat.ne_of_lt (get?_lt held)), isKind]
  have fresh : circuit.size ∉ circuit.signalIds := by
    simp [signalIds]
  have most := (Finset.card_le_card pins).trans (Finset.card_insert_le _ _)
  have more := Finset.card_insert_le output circuit.directed
  have least := Finset.card_le_card signals
  rw [Finset.card_insert_of_notMem fresh] at least
  have before : circuit.directed.card ≤ 2 * circuit.signalIds.card := paired
  show Finset.card _ ≤ 2 * Finset.card _
  omega

theorem isPin_take (owner : ElementId) (name : String) (kind : Kind) (pins : List ElementId)
    {pin : ElementId} (isPin : circuit.isPin pin) :
    (circuit.take owner name kind pins).isPin pin := by
  obtain ⟨_, _, held, _⟩ := isPin_held isPin
  rw [isPin_eq, kind?_take, if_neg (Nat.ne_of_lt (get?_lt held)), ← isPin_eq]
  exact isPin

theorem isPin_fixPin {pin : ElementId} (isPin : circuit.isPin pin) (id : ElementId)
    (direction : Direction) : (circuit.fixPin id direction).isPin pin := by
  rw [isPin_eq] at isPin ⊢
  rw [fixPin, kind?_update]
  split
  · cases held : circuit.kind? pin with
    | none => simp [held] at isPin
    | some _ => rfl
  · exact isPin

theorem Tree.fixPin (tree : circuit.Tree (Kind.Carries rules)) {id : ElementId}
    (isPin : circuit.isPin id) (direction : Direction) :
    (circuit.fixPin id direction).Tree (Kind.Carries rules) := by
  obtain ⟨element, point, held, same⟩ := isPin_held isPin
  refine tree.update fun found isFound => ?_
  rw [held] at isFound
  cases isFound
  rw [same]
  refine ⟨rfl, rfl, rfl, fun _ carries => carries, fun kind carries => ?_, by simp⟩
  have none : ¬(rules.holds (.pin point)) := fun contains => by
    simpa [Kind.isContainer] using rules.contains _ contains
  cases kind <;> simp [Kind.Carries, Kind.isSignal, Kind.isLogic, none] at carries

theorem Tree.bind (tree : circuit.Tree (Kind.Carries rules)) {signal : ElementId}
    (isSignal : circuit.IsSignal signal) (tag : Option ElementId) :
    (circuit.update signal fun element => { element with kind := .signal tag }).Tree
      (Kind.Carries rules) := by
  obtain ⟨element, held, isSignal⟩ := isSignal
  refine tree.update fun found isFound => ?_
  rw [held] at isFound
  cases isFound
  have none : ∀ onto, ¬(rules.holds (.signal onto)) := fun onto contains => by
    simpa [Kind.isContainer] using rules.contains _ contains
  cases same : element.kind with
  | signal onto =>
      refine ⟨rfl, rfl, rfl, fun _ carries => carries, fun kind carries => ?_, by simp⟩
      cases kind <;> simp [Kind.Carries, none] at carries ⊢
      simp [Kind.isSignal]
  | _ => simp [same, Kind.isSignal] at isSignal

theorem settled_take (settled : circuit.Every Element.Settled) (owner : ElementId) (name : String)
    {kind : Kind} (floating : ∀ pin, kind = .pin pin → pin = .floating) (pins : List ElementId) :
    (circuit.take owner name kind pins).Every Element.Settled :=
  List.foldlRecOn _ _ (settled_stable.push circuit owner name kind floating settled)
    fun taken every pin _ => settled_stable.move taken circuit.size pin every

theorem named_take (named : circuit.Every fun element => element.kind.isTag → rules.names element.name)
    (owner : ElementId) (name : String) {kind : Kind} (notTag : kind.isTag = false)
    (pins : List ElementId) : (circuit.take owner name kind pins).Every
      fun element => element.kind.isTag → rules.names element.name := by
  have pushed := named.push owner name kind (by simp [notTag]) fun _ _ kept => kept
  exact List.foldlRecOn _ _ pushed fun taken every pin _ =>
    every.moveChild circuit.size pin fun _ _ _ kept => kept

theorem Gains.sound (sound : circuit.Sound rules) (gains : circuit.Gains rules records made) :
    made.Sound rules := by
  obtain ⟨tree, named, settled, paired⟩ := sound
  cases gains with
  | @push owner container name kind held carries _ floating told =>
      refine ⟨?_, named.push owner name kind told fun _ _ kept => kept,
        settled_stable.push circuit owner name kind floating settled,
        paired.grow floating (kind?_push owner name kind)⟩
      rw [push_eq_plant (get?_lt held)]
      exact tree.plant held carries (by simp)
  | @bind signal tag isSignal isTag =>
      refine ⟨tree.bind isSignal _, named.update signal fun _ _ => by simp [Kind.isTag],
        settled_stable.retag circuit signal _ settled, ?_⟩
      refine paired.mono (fun id member => ?_) fun id member => ?_
      · obtain ⟨pin, isPin, known⟩ := mem_directed.mp member
        rw [kind?_update] at isPin
        split at isPin
        · obtain ⟨_, _, same⟩ := Option.map_eq_some_iff.mp isPin
          contradiction
        · exact mem_directed.mpr ⟨pin, isPin, known⟩
      · obtain ⟨kind, isKind, wasSignal⟩ := mem_signalIds.mp member
        rw [mem_signalIds, kind?_update, isKind]
        split
        · exact ⟨_, rfl, rfl⟩
        · exact ⟨kind, rfl, wasSignal⟩
  | @logic owner container name kind pins held contains isLogic allowed arePins =>
      have floating : ∀ pin, kind = .pin pin → pin = .floating := by
        rintro pin rfl
        contradiction
      have notTag : kind.isTag = false := by
        cases kind <;> first | rfl | contradiction
      refine ⟨tree.take held ?_ (fun _ => Or.inr (Or.inl isLogic)) name arePins,
        named_take named owner name notTag pins, settled_take settled owner name floating pins,
        paired.grow floating (kind?_take owner name kind pins)⟩
      cases kind with
      | gate _ | timer _ _ => exact contains
      | memory latch => exact ⟨contains, allowed latch rfl⟩
      | _ => contradiction
  | @signal owner container name input output tag held contains arePins =>
      have taken := tree.take held (show container.kind.Carries rules (.signal tag) from contains)
        (fun _ => Or.inl rfl) name arePins
      have isInput := isPin_take owner name (.signal tag) [input, output] (arePins input (by simp))
      have isOutput := isPin_take owner name (.signal tag) [input, output] (arePins output (by simp))
      have fixed := (taken.fixPin isInput .input).fixPin
        (isPin_fixPin isOutput input .input) .output
      have floating : ∀ pin, Kind.signal tag = .pin pin → pin = .floating := by simp
      refine ⟨fixed, ?_, ?_, paired.takeSignal owner name tag arePins⟩
      · exact ((named_take named owner name rfl [input, output]).update input
          fun _ _ => by simp [Kind.isTag]).update output fun _ _ => by simp [Kind.isTag]
      · exact settled_stable.fix _ output .output (by decide) (settled_stable.fix _ input .input
          (by decide) (settled_take settled owner name floating [input, output]))

theorem sound_empty (name : String) : (empty name).Sound rules := by
  refine ⟨Tree.empty name, ?_, settled_empty name, ?_⟩
  · intro id element held isTag
    have first : id = 0 := Nat.lt_one_iff.mp (get?_lt held)
    subst first
    cases held
    contradiction
  have none : (empty name).directed = ∅ := by
    refine Finset.eq_empty_of_forall_notMem fun id member => ?_
    obtain ⟨pin, isPin, _⟩ := mem_directed.mp member
    obtain ⟨element, held, same⟩ := kind?_eq_some.mp isPin
    have first : id = 0 := Nat.lt_one_iff.mp (get?_lt held)
    subst first
    cases held
    contradiction
  rw [Paired, none, Finset.card_empty]
  exact Nat.zero_le _

end Circuit

namespace Build

variable {rules : Rules} {circuit : Circuit} {records : Nat}

def Gains (rules : Rules) (records : Nat) (build : Build α)
    (circuit : Circuit) : Prop :=
  (∃ answer made, build circuit = .ok answer made ∧ circuit.Gains rules records made) ∨
    ∃ error, build circuit = .error error circuit

theorem adopt_push (owner : ElementId) (name : String) (kind : Kind)
    {pins : List ElementId} (arePins : ∀ pin ∈ pins, circuit.isPin pin) :
    adopt circuit.size pins (circuit.push owner name kind) =
      .ok () (circuit.take owner name kind pins) := by
  refine adopt_ok (by simp) fun pin member => ?_
  obtain ⟨_, _, held, _⟩ := Circuit.isPin_held (arePins pin member)
  rw [Circuit.size_push]
  exact Nat.lt_succ_of_lt (Circuit.get?_lt held)

theorem logicFromPins_of_pins {owner : ElementId} {container : Element}
    (held : circuit.get? owner = some container) (contains : container.kind.isContainer)
    {kind : Kind} (logic : kind.isLogic) (name : String) {pins : List ElementId}
    (arePins : ∀ pin ∈ pins, circuit.isPin pin) :
    logicFromPins owner kind name pins circuit =
      .ok circuit.size (circuit.take owner name kind pins) := by
  have pushed : push owner name kind circuit =
      .ok circuit.size (circuit.push owner name kind) := rfl
  unfold logicFromPins
  simp only [logic, Bool.true_eq_false, ↓reduceIte]
  rw [bind_ok (expect_ok held contains), bind_ok (expectPins_ok arePins), bind_ok pushed,
    bind_ok (adopt_push owner name kind arePins)]
  rfl

theorem signalFromPins_of_pins {owner : ElementId} {container : Element}
    (held : circuit.get? owner = some container) (contains : container.kind.isContainer)
    (name : String) (tag : Option ElementId) {input output : ElementId}
    (arePins : ∀ pin ∈ [input, output], circuit.isPin pin) :
    signalFromPins owner name tag input output circuit =
      .ok circuit.size (circuit.takeSignal owner name tag input output) := by
  have pushed : push owner name (.signal tag) circuit =
      .ok circuit.size (circuit.push owner name (.signal tag)) := rfl
  have isInput := Circuit.isPin_take owner name (.signal tag) [input, output]
    (arePins input (by simp))
  have isOutput := Circuit.isPin_take owner name (.signal tag) [input, output]
    (arePins output (by simp))
  have last := Circuit.isPin_fixPin isOutput input .input
  rw [Circuit.fixPin] at last
  rw [signalFromPins, bind_ok (expect_ok held contains), bind_ok (expectPins_ok arePins),
    bind_ok pushed, bind_ok (adopt_push owner name (.signal tag) arePins),
    bind_ok (fixPin_ok isInput .input), bind_ok (fixPin_ok last .output)]
  rfl

section

variable {owner : Nat}
  (place : ∀ container, circuit.get? owner = some container → container.kind.isContainer →
    rules.holds container.kind)

theorem gains_push {container : Element} {kind : Kind} (name : String)
    (held : circuit.get? owner = some container) (carries : container.kind.Carries rules kind)
    (notSignal : kind.isSignal = false) (floating : ∀ pin, kind = .pin pin → pin = .floating)
    (named : kind.isTag → rules.names name) :
    Gains rules 1 (push owner name kind) circuit :=
  Or.inl ⟨circuit.size, _, rfl, .push held carries notSignal floating named⟩

theorem gains_top (tree : circuit.Tree (Kind.Carries rules)) (name : String) (kind : Kind)
    (carries : Kind.solution.Carries rules kind) (notSignal : kind.isSignal = false)
    (floating : ∀ pin, kind = .pin pin → pin = .floating)
    (named : kind.isTag → rules.names name) :
    Gains rules 1 (push Circuit.solution name kind) circuit := by
  obtain ⟨root, held, isSolution, _⟩ := tree.root
  exact gains_push name held (isSolution ▸ carries) notSignal floating named

theorem gains_addContext (project : ElementId) (name : String) :
    Gains rules 1 (addContext project name) circuit := by
  rcases addContext_cases circuit project name with ⟨container, held, isProject⟩ | failed
  · rw [Gains, addContext, bind_ok (expect_ok held (by simp [isProject]))]
    exact gains_push name held isProject rfl (by simp) (by simp [Kind.isTag])
  · exact Or.inr failed

theorem gains_bindTag (signal tag : ElementId) :
    Gains rules 1 (bindTag signal tag) circuit := by
  rcases bindTag_cases circuit signal tag with ⟨isSignal, isTag⟩ | failed
  · obtain ⟨element, held, signals⟩ := isSignal
    obtain ⟨onto, ontoHeld, tags⟩ := isTag
    rw [Gains, bindTag_ok held signals ontoHeld tags]
    exact Or.inl ⟨(), _, rfl, .bind ⟨element, held, signals⟩ ⟨onto, ontoHeld, tags⟩⟩
  · exact Or.inr failed

include place

theorem gains_addPin (name : String) : Gains rules 1 (addPin owner name) circuit := by
  rcases addPin_cases circuit owner name with ⟨container, held, contains⟩ | failed
  · rw [Gains, addPin_ok held contains]
    exact gains_push name held (Or.inr (Or.inr (place container held contains))) rfl (by simp)
      (by simp [Kind.isTag])
  · exact Or.inr failed

theorem gains_addWire (start stop : ElementId) (invertStart invertStop : Bool) :
    Gains rules 1 (addWire owner start stop invertStart invertStop) circuit := by
  rcases addWire_cases circuit owner start stop invertStart invertStop with
    ⟨container, held, contains, arePins, different⟩ | failed
  · have carries : container.kind.Carries rules (.wire ⟨start, stop, invertStart, invertStop⟩) :=
      place container held contains
    rw [Gains, addWire_ok held contains arePins different, ← Circuit.push_eq_plant (Circuit.get?_lt held)]
    exact gains_push _ held carries rfl (by simp) (by simp [Kind.isTag])
  · exact Or.inr failed

theorem gains_logicFromPins (kind : Kind) (allowed : ∀ latch, kind = .memory latch → rules.memories)
    (name : String) (pins : List ElementId) :
    Gains rules 1 (logicFromPins owner kind name pins) circuit := by
  rcases logicFromPins_cases circuit owner kind name pins with
    ⟨logic, container, held, contains, arePins⟩ | failed
  · exact Or.inl ⟨_, _, logicFromPins_of_pins held contains logic name arePins,
      .logic held (place container held contains) logic allowed arePins⟩
  · exact Or.inr failed

theorem gains_signalFromPins (name : String) (tag : Option ElementId) (input output : ElementId) :
    Gains rules (1 + tag.toList.length) (signalFromPins owner name tag input output) circuit := by
  rcases signalFromPins_cases circuit owner name tag input output with
    ⟨container, held, contains, arePins⟩ | failed
  · exact Or.inl ⟨_, _, signalFromPins_of_pins held contains name tag arePins,
      .signal held (place container held contains) arePins⟩
  · exact Or.inr failed

end

open Change (Keeps keeps_pure keeps_mapM after)

theorem keeps_gains {build : Build α} (gains : ∀ circuit : Circuit, circuit.Sound rules →
    Gains rules records build circuit) : Keeps (Circuit.Sound rules) build := by
  intro circuit sound
  rcases gains circuit sound with ⟨answer, made, done, gained⟩ | ⟨error, failed⟩
  · rw [after_ok done]
    exact gained.sound sound
  · simp only [after, failed]
    exact sound

theorem keeps_addPin (owner : ElementId) (name : String) :
    Keeps (Circuit.Sound Rules.any) (addPin owner name) :=
  keeps_gains fun _ _ =>
    gains_addPin (fun _ _ contains => contains) name

theorem keeps_signalFromPins (owner : ElementId) (name : String) (tag : Option ElementId)
    (input output : ElementId) : Keeps (Circuit.Sound Rules.any)
      (signalFromPins owner name tag input output) :=
  keeps_gains fun _ _ =>
    gains_signalFromPins (fun _ _ contains => contains) name tag input output

theorem keeps_logicFromPins (owner : ElementId) (kind : Kind) (name : String)
    (pins : List ElementId) : Keeps (Circuit.Sound Rules.any)
      (logicFromPins owner kind name pins) :=
  keeps_gains fun _ _ =>
    gains_logicFromPins (fun _ _ contains => contains) kind (fun _ _ => trivial) name pins

theorem keeps_addLogic (owner : ElementId) (kind : Kind) (name : String) :
    Keeps (Circuit.Sound Rules.any) (addLogic owner kind name) :=
  (keeps_mapM fun _ => keeps_addPin owner _).bind fun _ => keeps_logicFromPins owner kind name _

theorem keeps_addSignal (owner : ElementId) (name : String) (tag : Option ElementId) :
    Keeps (Circuit.Sound Rules.any) (addSignal owner name tag) := by
  have rest : Keeps (Circuit.Sound Rules.any) (do
      let input ← addPin owner (name ++ ".in")
      let output ← addPin owner (name ++ ".out")
      signalFromPins owner name tag input output) :=
    (keeps_addPin owner _).bind fun _ => (keeps_addPin owner _).bind fun _ =>
      keeps_signalFromPins owner name tag _ _
  cases tag with
  | none => exact rest
  | some id => exact (keeps_ask _).bind fun _ => rest

end Build

def Call.isAdding : Call → Bool
  | adopt .. | setBlock .. => false
  | _ => true

namespace Build

open Change (Keeps)

theorem keeps_adding {call : Call} (adding : call.isAdding) :
    Keeps (Circuit.Sound Rules.any) call.build := by
  cases call with
  | addProject name =>
      exact (keeps_gains fun _ sound =>
        gains_top sound.tree name .project rfl rfl (by simp) (by simp [Kind.isTag])).map _
  | addContext project name =>
      exact (keeps_gains fun _ _ => gains_addContext project name).map _
  | addTag name initial =>
      exact (keeps_gains fun _ sound =>
        gains_top sound.tree name (.tag initial []) rfl rfl (by simp) fun _ => trivial).map _
  | addPin container name => exact (keeps_addPin container name).map _
  | addSignal context name tag => exact (keeps_addSignal context name tag).map _
  | addGate context kind name => exact (keeps_addLogic context (.gate kind) name).map _
  | addTimer context kind name delay => exact (keeps_addLogic context (.timer kind delay) name).map _
  | addMemory context kind name => exact (keeps_addLogic context (.memory kind) name).map _
  | addWire context start stop invertStart invertStop =>
      exact (keeps_gains fun _ _ =>
        gains_addWire (fun _ _ contains => contains) start stop invertStart invertStop).map _
  | signalFromPins context name tag input output =>
      exact (keeps_signalFromPins context name tag input output).map _
  | logicFromPins context kind name left right top bottom =>
      exact (keeps_logicFromPins context kind name _).map _
  | bindTag signal tag =>
      exact (keeps_gains fun _ _ => gains_bindTag signal tag).bind
        fun _ => Change.keeps_pure _
  | _ => contradiction

theorem sound_afterCalls (name : String) {calls : List Call}
    (adding : ∀ call ∈ calls, call.isAdding) :
    ((Circuit.empty name).afterCalls calls).Sound Rules.any :=
  List.foldlRecOn _ _ (Circuit.sound_empty name) fun circuit sound call member =>
    keeps_adding (adding call member) circuit sound

end Build

def Call.isBuilding : Call → Bool
  | adopt .. => false
  | _ => true

namespace Build

open Change (Keeps)

theorem sound_label {circuit : Circuit} {rules : Rules} (sound : circuit.Sound rules)
    (id : ElementId) (block : BlockRef) :
    (circuit.update id fun element => { element with block := some block }).Sound rules := by
  have kinds : ∀ other, (circuit.update id fun element =>
      { element with block := some block }).kind? other = circuit.kind? other := by
    intro other
    simp only [Circuit.kind?, Circuit.get?_update]
    split <;> simp [Function.comp_def]
  refine ⟨sound.tree.update fun element _ => ⟨rfl, rfl, rfl, fun _ holds => holds,
    fun _ holds => holds, fun isSolution => isSolution⟩,
    sound.named.update id fun _ named => named,
    Circuit.settled_stable.label circuit id block sound.settled,
    sound.paired.mono (fun pin member => ?_) fun signal member => ?_⟩
  · obtain ⟨point, isPin, known⟩ := Circuit.mem_directed.mp member
    exact Circuit.mem_directed.mpr ⟨point, kinds pin ▸ isPin, known⟩
  · obtain ⟨kind, isKind, isSignal⟩ := Circuit.mem_signalIds.mp member
    exact Circuit.mem_signalIds.mpr ⟨kind, (kinds signal).trans isKind, isSignal⟩

theorem keeps_setBlock (id : ElementId) (block : BlockRef) :
    Keeps (Circuit.Sound Rules.any) (setBlock id block) :=
  (keeps_ask _).bind fun _ => Change.keeps_modify fun _ sound => sound_label sound id block

theorem keeps_building {call : Call} (building : call.isBuilding) :
    Keeps (Circuit.Sound Rules.any) call.build := by
  cases call with
  | setBlock id block => exact (keeps_setBlock id block).bind fun _ => Change.keeps_pure _
  | adopt => contradiction
  | _ => exact keeps_adding rfl

theorem sound_afterBuilding (name : String) {calls : List Call}
    (building : ∀ call ∈ calls, call.isBuilding) :
    ((Circuit.empty name).afterCalls calls).Sound Rules.any :=
  List.foldlRecOn _ _ (Circuit.sound_empty name) fun circuit sound call member =>
    keeps_building (building call member) circuit sound

end Build

end RelayLogic
