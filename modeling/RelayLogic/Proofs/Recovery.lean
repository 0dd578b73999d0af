import RelayLogic.Proofs.Clearing
import RelayLogic.Proofs.Following

/-!
When inference finds the directions that a circuit was drawn with. Where junctions have several
consumers this rests on the order in which they are followed: an input that is met before its
element has its output is taken for that output. It cannot happen where the consumers at a
junction are equally far from a signal.
-/

namespace RelayLogic

namespace Circuit

variable (circuit : Circuit) (drawn : ElementId → Direction)

/-- A pin of a signal that has a direction, or one of logic that is drawn in it. -/
def Stands (direction : Direction) (pin : ElementId) : Prop :=
  (∃ id, circuit.IsSignal id ∧ pin ∈ circuit.pinsOf id ∧ circuit.direction pin = direction) ∨
    ∃ id, circuit.IsLogic id ∧ pin ∈ circuit.pinsOf id ∧ drawn pin = direction

/-- An input that a signal is fed from through a number of elements, its own included. -/
def Consumes : Nat → ElementId → Prop
  | 0, pin => ∃ id, circuit.IsSignal id ∧ pin ∈ circuit.pinsOf id ∧ circuit.direction pin = .input
  | depth + 1, pin => ∃ id, circuit.IsLogic id ∧ pin ∈ circuit.pinsOf id ∧ drawn pin = .input ∧
      ∃ source output, Consumes depth source ∧ circuit.Joined source output ∧
        output ∈ circuit.pinsOf id ∧ drawn output = .output

/-- An element whose output is joined to an input as many elements away from a signal. -/
def Feeds (depth : Nat) (id : ElementId) : Prop :=
  ∃ source output, circuit.Consumes drawn depth source ∧ circuit.Joined source output ∧
    output ∈ circuit.pinsOf id ∧ drawn output = .output

/-- Directions that a circuit can be meant to have. -/
structure Consistent : Prop where
  directed : ∀ id, circuit.IsLogic id → ∀ pin ∈ circuit.pinsOf id, drawn pin ≠ .undefined
  output : ∀ id, circuit.IsLogic id → ∃ output ∈ circuit.pinsOf id,
    ∀ pin ∈ circuit.pinsOf id, drawn pin = .output ↔ pin = output
  single : ∀ pin, circuit.Stands drawn .input pin → ∀ first second,
    circuit.Joined pin first → circuit.Joined pin second →
      circuit.Stands drawn .output first → circuit.Stands drawn .output second → first = second
  feeds : ∀ id, circuit.IsLogic id → ∃ depth, circuit.Feeds drawn depth id

/-- Inputs that are joined to a consumer belong to elements that are no farther from a signal. -/
def Graded : Prop :=
  ∀ depth pin id input, circuit.Consumes drawn depth pin → circuit.IsLogic id →
    input ∈ circuit.pinsOf id → drawn input = .input → circuit.Joined pin input →
      ∃ less < depth, circuit.Feeds drawn less id

def Recovered (made : Circuit) : Prop :=
  ∀ id, circuit.IsLogic id → ∀ pin ∈ circuit.pinsOf id, made.direction pin = drawn pin

def Mistaken (made : Circuit) : Prop :=
  ∃ id, circuit.IsLogic id ∧ ∃ pin ∈ circuit.pinsOf id,
    drawn pin = .input ∧ made.direction pin = .output

variable {circuit : Circuit} {drawn : ElementId → Direction}

theorem exists_mem_ids {kind rest : ElementId → Prop} (known : ∀ id, kind id → id ∈ circuit.ids) :
    (∃ id ∈ circuit.ids, kind id ∧ rest id) ↔ ∃ id, kind id ∧ rest id :=
  exists_congr fun id => ⟨And.right, fun holds => ⟨known id holds.1, holds⟩⟩

instance (direction : Direction) (pin : ElementId) :
    Decidable (circuit.Stands drawn direction pin) :=
  decidable_of_iff (_ ∨ _) (or_congr (exists_mem_ids fun _ => IsSignal.mem_ids)
    (exists_mem_ids fun _ => IsLogic.mem_ids))

theorem mem_ids_of_pinsOf {pin id : ElementId} (member : pin ∈ circuit.pinsOf id) :
    pin ∈ circuit.ids := by
  obtain ⟨element, _, held, _⟩ := isPin_held (List.mem_filter.mp member).2
  exact List.mem_range.mpr (get?_lt held)

theorem Consumes.mem_ids {depth : Nat} {pin : ElementId}
    (consumes : circuit.Consumes drawn depth pin) : pin ∈ circuit.ids := by
  cases depth with
  | zero =>
      obtain ⟨id, _, member, _⟩ := consumes
      exact mem_ids_of_pinsOf member
  | succ depth =>
      obtain ⟨id, _, member, _⟩ := consumes
      exact mem_ids_of_pinsOf member

def decidableFeeds (depth : Nat) (known : ∀ pin, Decidable (circuit.Consumes drawn depth pin))
    (id : ElementId) : Decidable (circuit.Feeds drawn depth id) :=
  decidable_of_iff (∃ source ∈ circuit.ids, circuit.Consumes drawn depth source ∧
      ∃ output ∈ circuit.pinsOf id, circuit.Joined source output ∧ drawn output = .output) <| by
    rw [exists_mem_ids fun _ => Consumes.mem_ids]
    constructor
    · rintro ⟨source, consumes, output, member, joined, isOutput⟩
      exact ⟨source, output, consumes, joined, member, isOutput⟩
    · rintro ⟨source, output, consumes, joined, member, isOutput⟩
      exact ⟨source, consumes, output, member, joined, isOutput⟩

instance decidableConsumes : ∀ depth pin, Decidable (circuit.Consumes drawn depth pin)
  | 0, _ => decidable_of_iff _ (exists_mem_ids fun _ => IsSignal.mem_ids)
  | depth + 1, pin =>
    have := decidableFeeds depth (decidableConsumes depth)
    decidable_of_iff (∃ id ∈ circuit.ids, circuit.IsLogic id ∧ pin ∈ circuit.pinsOf id ∧
      drawn pin = .input ∧ circuit.Feeds drawn depth id) (exists_mem_ids fun _ => IsLogic.mem_ids)

instance (depth : Nat) (id : ElementId) : Decidable (circuit.Feeds drawn depth id) :=
  decidableFeeds depth (decidableConsumes depth) id

theorem Consistent.of_ids (depth : Nat)
    (elements : ∀ id ∈ circuit.ids, circuit.IsLogic id →
      (∀ pin ∈ circuit.pinsOf id, drawn pin ≠ .undefined) ∧
        (∃ output ∈ circuit.pinsOf id, ∀ pin ∈ circuit.pinsOf id,
          drawn pin = .output ↔ pin = output) ∧
        ∃ less ∈ List.range depth, circuit.Feeds drawn less id)
    (inputs : ∀ pin ∈ circuit.ids, circuit.Stands drawn .input pin →
      ∀ first ∈ circuit.endpoints circuit.adjacency pin,
        ∀ second ∈ circuit.endpoints circuit.adjacency pin, circuit.Stands drawn .output first →
          circuit.Stands drawn .output second → first = second) :
    circuit.Consistent drawn where
  directed id isLogic := (elements id isLogic.mem_ids isLogic).1
  output id isLogic := (elements id isLogic.mem_ids isLogic).2.1
  feeds id isLogic := by
    obtain ⟨less, _, feeds⟩ := (elements id isLogic.mem_ids isLogic).2.2
    exact ⟨less, feeds⟩
  single pin stands first second firstJoined secondJoined := by
    have listed : pin ∈ circuit.ids := by
      rcases stands with ⟨_, _, member, _⟩ | ⟨_, _, member, _⟩
      · exact mem_ids_of_pinsOf member
      · exact mem_ids_of_pinsOf member
    exact inputs pin listed stands first (mem_endpoints.mpr firstJoined) second
      (mem_endpoints.mpr secondJoined)

end Circuit

namespace Inference

open Circuit (Consistent Mistaken)

variable {circuit : Circuit} {drawn : ElementId → Direction} {done : List ElementId}
  {inference made : Inference}

/-- A state in which each element is undirected or directed as it is drawn. -/
structure Agreeing (circuit : Circuit) (drawn : ElementId → Direction) (done : List ElementId)
    (inference : Inference) : Prop where
  each : ∀ id, circuit.IsLogic id →
    (∀ pin ∈ circuit.pinsOf id, inference.circuit.direction pin = .undefined) ∨
      ∀ pin ∈ circuit.pinsOf id, inference.circuit.direction pin = drawn pin
  signals : ∀ pin, circuit.Consumes drawn 0 pin → pin ∈ done ++ inference.queue
  waiting : ∀ id, circuit.IsLogic id → ∀ pin ∈ circuit.pinsOf id, drawn pin = .input →
    inference.circuit.direction pin ≠ .undefined → circuit.adjacency.touches pin →
      pin ∈ done ++ inference.queue

def MeetsEarly (circuit : Circuit) (drawn : ElementId → Direction) (inference : Inference)
    (reached : ElementId) : Prop :=
  drawn reached = .input ∧ inference.circuit.direction reached = .undefined ∧
    ∃ id, circuit.IsLogic id ∧ reached ∈ circuit.pinsOf id

theorem Agreeing.orient (agreeing : Agreeing circuit drawn done inference)
    (tree : circuit.Tree Kind.Owns) (consistent : circuit.Consistent drawn)
    {reached : ElementId} (oriented : Oriented circuit inference reached made) :
    Agreeing circuit drawn done made ∨
      circuit.Mistaken drawn made.circuit ∧ MeetsEarly circuit drawn inference reached := by
  cases oriented with
  | closed same _ => exact Or.inl (same ▸ agreeing)
  | @opened owner isLogic member undirected alike directions queue =>
      have known := consistent.directed owner isLogic reached member
      have fresh : ∀ pin ∈ circuit.pinsOf owner, inference.circuit.direction pin = .undefined := by
        rcases agreeing.each owner isLogic with undirectedAll | directed
        · exact undirectedAll
        · exact absurd ((directed reached member).symm.trans undirected) known
      cases direction : drawn reached with
      | undefined => exact absurd direction known
      | input =>
          refine Or.inr ⟨⟨owner, isLogic, reached, member, direction, ?_⟩, direction, undirected,
            owner, isLogic, member⟩
          simp [directions]
      | output =>
          obtain ⟨output, _, only⟩ := consistent.output owner isLogic
          have isOutput : reached = output := (only reached member).mp direction
          have sibling : ∀ pin ∈ circuit.pinsOf owner, pin ≠ reached → drawn pin = .input := by
            intro pin owned different
            have notOutput : drawn pin ≠ .output := fun same =>
              different (((only pin owned).mp same).trans isOutput.symm)
            have directed := consistent.directed owner isLogic pin owned
            cases same : drawn pin <;> simp_all
          have others : ∀ id, id ≠ owner → ∀ pin ∈ circuit.pinsOf id,
              made.circuit.direction pin = inference.circuit.direction pin := by
            intro id different pin owned
            exact direction_outside member directions fun both =>
              different (tree.pinsOf_unique owned both)
          refine Or.inl ⟨?_, ?_, ?_⟩
          · intro id logic
            by_cases same : id = owner
            · subst same
              refine Or.inr fun pin owned => ?_
              by_cases isReached : pin = reached
              · simp [directions, isReached, direction]
              · simp [directions, isReached, owned, fresh pin owned, sibling pin owned isReached]
            · refine (agreeing.each id logic).imp ?_ ?_
              · exact fun all pin owned => (others id same pin owned).trans (all pin owned)
              · exact fun all pin owned => (others id same pin owned).trans (all pin owned)
          · intro pin consumes
            rw [queue, ← List.append_assoc]
            exact List.mem_append_left _ (agreeing.signals pin consumes)
          · intro id logic pin owned input directed touches
            rw [queue, ← List.append_assoc]
            by_cases same : id = owner
            · subst same
              have notReached : pin ≠ reached := by
                rintro rfl
                rw [direction] at input
                contradiction
              refine List.mem_append_right _ (List.mem_filter.mpr ⟨owned, ?_⟩)
              simp [becomesInput, notReached, fresh pin owned, touches]
            · rw [others id same pin owned] at directed
              exact List.mem_append_left _
                (agreeing.waiting id logic pin owned input directed touches)

theorem Grows.mistaken (grows : Grows inference made)
    (mistaken : circuit.Mistaken drawn inference.circuit) :
    circuit.Mistaken drawn made.circuit := by
  obtain ⟨id, isLogic, pin, member, input, output⟩ := mistaken
  exact ⟨id, isLogic, pin, member, input, by rw [grows pin (by simp [output]), output]⟩

theorem Oriented.directs {reached id : ElementId} (tree : circuit.Tree Kind.Owns)
    (oriented : Oriented circuit inference reached made) (isLogic : circuit.IsLogic id)
    (member : reached ∈ circuit.pinsOf id) : made.circuit.direction reached ≠ .undefined := by
  cases oriented with
  | closed same directed =>
      rw [same]
      refine directed.resolve_left ?_
      simp [(tree.logic_pin isLogic member).1]
  | opened _ _ _ _ directions _ => simp [directions]

structure Followed (circuit : Circuit) (drawn : ElementId → Direction) (done : List ElementId)
    (endpoints : List ElementId) (start made : Inference) : Prop where
  queued : Queued circuit done made
  grows : Grows start made
  directs : ∀ reached ∈ endpoints, ∀ id, circuit.IsLogic id → reached ∈ circuit.pinsOf id →
    made.circuit.direction reached ≠ .undefined
  agrees : Agreeing circuit drawn done made ∨
    circuit.Mistaken drawn made.circuit ∧ (circuit.Mistaken drawn start.circuit ∨
      ∃ reached ∈ endpoints, MeetsEarly circuit drawn start reached)
  added : ∃ added, made.queue = start.queue ++ added ∧
    ∀ pin ∈ added, ∃ id, circuit.IsLogic id ∧ pin ∈ circuit.pinsOf id ∧
      made.circuit.direction pin = .input ∧ ∃ reached ∈ endpoints,
        reached ∈ circuit.pinsOf id ∧ made.circuit.direction reached = .output

theorem followed (tree : circuit.Tree Kind.Owns) (valid : circuit.validate = .ok ())
    (consistent : circuit.Consistent drawn) {start : Inference}
    (queued : Queued circuit done start)
    (agrees : Agreeing circuit drawn done start ∨ circuit.Mistaken drawn start.circuit)
    {pin : ElementId} {endpoints : List ElementId}
    (joined : ∀ reached ∈ endpoints, circuit.Joined pin reached) :
    Followed circuit drawn done endpoints start
      (endpoints.foldl (Inference.orient circuit.adjacency) start) := by
  induction endpoints using List.reverseRecOn with
  | nil =>
      exact ⟨queued, fun _ _ => rfl, by simp,
        agrees.imp_right fun mistaken => ⟨mistaken, Or.inl mistaken⟩, [], by simp, by simp⟩
  | append_singleton endpoints reached ih =>
      have before := ih fun other member => joined other (List.mem_append_left _ member)
      rw [List.foldl_append]
      generalize endpoints.foldl (Inference.orient circuit.adjacency) start = middle at before
      simp only [List.foldl_cons, List.foldl_nil]
      have oriented := oriented tree valid before.queued.alike (joined reached (by simp))
      generalize Inference.orient circuit.adjacency middle reached = made at oriented
      have grows := oriented.grows
      constructor
      case queued => exact before.queued.orient tree oriented
      case grows => exact before.grows.trans grows
      case directs =>
        intro other member id isLogic owned
        rcases List.mem_append.mp member with old | last
        · have directed := before.directs other old id isLogic owned
          rw [grows other directed]
          exact directed
        · rw [List.mem_singleton.mp last] at owned ⊢
          exact oriented.directs tree isLogic owned
      case agrees =>
        rcases before.agrees with agreeing | ⟨mistaken, cause⟩
        · refine (agreeing.orient tree consistent oriented).imp_right ?_
          rintro ⟨mistaken, input, undirected, logic⟩
          refine ⟨mistaken, Or.inr ⟨reached, by simp, input, ?_, logic⟩⟩
          by_contra directed
          exact directed ((before.grows reached directed).symm.trans undirected)
        · refine Or.inr ⟨grows.mistaken mistaken, cause.imp_right ?_⟩
          rintro ⟨other, member, early⟩
          exact ⟨other, List.mem_append_left _ member, early⟩
      case added =>
        obtain ⟨added, queue, each⟩ := before.added
        have kept : ∀ pin ∈ added, ∃ id, circuit.IsLogic id ∧ pin ∈ circuit.pinsOf id ∧
            made.circuit.direction pin = .input ∧ ∃ other ∈ endpoints ++ [reached],
              other ∈ circuit.pinsOf id ∧ made.circuit.direction other = .output := by
          intro pin member
          obtain ⟨id, isLogic, owned, input, other, listed, otherOwned, output⟩ := each pin member
          refine ⟨id, isLogic, owned, ?_, other, List.mem_append_left _ listed, otherOwned, ?_⟩
          · rw [grows pin (by simp [input]), input]
          · rw [grows other (by simp [output]), output]
        cases oriented with
        | closed same _ => exact ⟨added, same ▸ queue, kept⟩
        | @opened owner isLogic member undirected alike directions queueMade =>
            refine ⟨_, by rw [queueMade, queue, List.append_assoc], fun pin listed => ?_⟩
            rcases List.mem_append.mp listed with old | new
            · exact kept pin old
            · rw [List.mem_filter, Bool.and_eq_true, becomesInput, Bool.and_eq_true, bne_iff_ne,
                beq_iff_eq] at new
              obtain ⟨owned, ⟨different, undirected⟩, _⟩ := new
              refine ⟨owner, isLogic, owned, ?_, reached, by simp, member, ?_⟩
              · simp [directions, different, owned, undirected]
              · simp [directions]

theorem Agreeing.not_mistaken (agreeing : Agreeing circuit drawn done inference) :
    ¬circuit.Mistaken drawn inference.circuit := by
  rintro ⟨id, isLogic, pin, member, input, output⟩
  rcases agreeing.each id isLogic with undirected | directed
  · rw [undirected pin member] at output
    contradiction
  · rw [directed pin member, input] at output
    contradiction

structure Between (circuit : Circuit) (drawn : ElementId → Direction) (done : List ElementId)
    (inference : Inference) : Prop where
  queued : Queued circuit done inference
  directs : ∀ source ∈ done, ∀ reached, circuit.Joined source reached → ∀ id,
    circuit.IsLogic id → reached ∈ circuit.pinsOf id →
      inference.circuit.direction reached ≠ .undefined
  agrees : Agreeing circuit drawn done inference ∨ circuit.Mistaken drawn inference.circuit

structure Stepped (circuit : Circuit) (drawn : ElementId → Direction) (done : List ElementId)
    (pin : ElementId) (queue : List ElementId) (inference made : Inference) : Prop where
  between : Between circuit drawn (done ++ [pin]) made
  grows : Grows inference made
  cause : circuit.Mistaken drawn made.circuit → circuit.Mistaken drawn inference.circuit ∨
    ∃ reached, circuit.Joined pin reached ∧ MeetsEarly circuit drawn inference reached
  added : ∃ added, made.queue = queue ++ added ∧
    ∀ other ∈ added, ∃ id, circuit.IsLogic id ∧ other ∈ circuit.pinsOf id ∧
      made.circuit.direction other = .input ∧ ∃ reached, circuit.Joined pin reached ∧
        reached ∈ circuit.pinsOf id ∧ made.circuit.direction reached = .output

theorem Between.round (between : Between circuit drawn done inference)
    (tree : circuit.Tree Kind.Owns) (valid : circuit.validate = .ok ())
    (consistent : circuit.Consistent drawn) {pin : ElementId} {queue : List ElementId}
    (waiting : inference.queue = pin :: queue) :
    Stepped circuit drawn done pin queue inference (Inference.round circuit inference pin queue) := by
  have order : done ++ inference.queue = done ++ [pin] ++ queue := by
    rw [waiting]
    simp
  have queued : Queued circuit (done ++ [pin]) { inference with queue := queue } :=
    ⟨between.queued.alike, order ▸ between.queued.inputs, order ▸ between.queued.unique⟩
  have agrees : Agreeing circuit drawn (done ++ [pin]) { inference with queue := queue } ∨
      circuit.Mistaken drawn inference.circuit :=
    between.agrees.imp_left fun agreeing =>
      ⟨agreeing.each, order ▸ agreeing.signals, order ▸ agreeing.waiting⟩
  have joined : ∀ reached, reached ∈ circuit.endpoints circuit.adjacency pin ↔
      circuit.Joined pin reached := fun _ => Circuit.mem_endpoints
  have followed := followed tree valid consistent queued agrees fun reached => (joined reached).mp
  refine ⟨⟨followed.queued, ?_, ?_⟩, followed.grows, ?_, ?_⟩
  · intro source member reached reachedJoined id isLogic owned
    rcases List.mem_append.mp member with old | last
    · have directed := between.directs source old reached reachedJoined id isLogic owned
      rw [Inference.round, followed.grows reached directed]
      exact directed
    · rw [List.mem_singleton.mp last] at reachedJoined
      exact followed.directs reached ((joined reached).mpr reachedJoined) id isLogic owned
  · exact followed.agrees.imp_right And.left
  · intro mistaken
    rcases followed.agrees with agreeing | ⟨_, before | ⟨reached, member, early⟩⟩
    · exact absurd mistaken agreeing.not_mistaken
    · exact Or.inl before
    · exact Or.inr ⟨reached, (joined reached).mp member, early⟩
  · obtain ⟨added, equal, each⟩ := followed.added
    refine ⟨added, equal, fun other member => ?_⟩
    obtain ⟨id, isLogic, owned, input, reached, listed, reachedOwned, output⟩ := each other member
    exact ⟨id, isLogic, owned, input, reached, (joined reached).mp listed, reachedOwned, output⟩

theorem Between.recovered (between : Between circuit drawn done inference)
    (consistent : circuit.Consistent drawn) (emptied : inference.queue = [])
    (right : ¬circuit.Mistaken drawn inference.circuit) :
    circuit.Recovered drawn inference.circuit := by
  have agreeing := between.agrees.resolve_right right
  have fed : ∀ depth id, circuit.IsLogic id → circuit.Feeds drawn depth id →
      ∀ pin ∈ circuit.pinsOf id, inference.circuit.direction pin = drawn pin := by
    intro depth
    induction depth with
    | zero =>
        rintro id isLogic ⟨source, output, consumes, joined, member, isOutput⟩
        have followed : source ∈ done := by simpa [emptied] using agreeing.signals source consumes
        have directed := between.directs source followed output joined id isLogic member
        exact (agreeing.each id isLogic).resolve_left fun all => directed (all output member)
    | succ depth ih =>
        rintro id isLogic ⟨source, output, consumes, joined, member, isOutput⟩
        obtain ⟨next, nextLogic, sourceOwned, sourceInput, feeds⟩ := consumes
        have sourceDirected := ih next nextLogic feeds source sourceOwned
        have followed : source ∈ done := by
          have waits := agreeing.waiting next nextLogic source sourceOwned sourceInput
            (by rw [sourceDirected, sourceInput]; decide) joined.touches
          simpa [emptied] using waits
        have directed := between.directs source followed output joined id isLogic member
        exact (agreeing.each id isLogic).resolve_left fun all => directed (all output member)
  intro id isLogic
  obtain ⟨depth, feeds⟩ := consistent.feeds id isLogic
  exact fed depth id isLogic feeds

theorem between_start (tree : circuit.Tree Kind.Owns) (drawn : ElementId → Direction) :
    Between circuit drawn [] ⟨circuit, circuit.pinsDirected .input, 0⟩ := by
  refine ⟨⟨rfl, ?_, ?_⟩, by simp, Or.inl ⟨?_, ?_, ?_⟩⟩
  · intro pin member
    simp only [List.nil_append, Circuit.pinsDirected, List.mem_filter, Bool.and_eq_true,
      beq_iff_eq] at member
    exact member.2.2
  · exact List.nodup_range.filter _
  · intro id isLogic
    exact Or.inl fun pin member => (tree.logic_pin isLogic member).2
  · rintro pin ⟨id, _, member, input⟩
    have isPin := (tree.mem_pinsOf.mp member).1
    obtain ⟨element, _, held, _⟩ := Circuit.isPin_held isPin
    have bound := Circuit.get?_lt held
    simp [Circuit.pinsDirected, Circuit.ids, isPin, input, bound]
  · intro id isLogic pin member _ directed
    exact absurd (tree.logic_pin isLogic member).2 directed

/-- A queue of which the first pins are `depth` elements away from a signal and the others one
more, with all elements directed that are nearer. -/
structure Levels (circuit : Circuit) (drawn : ElementId → Direction) (done : List ElementId)
    (inference : Inference) (depth : Nat) (first second : List ElementId) : Prop where
  queue : inference.queue = first ++ second
  near : ∀ pin ∈ first, circuit.Consumes drawn depth pin
  far : ∀ pin ∈ second, circuit.Consumes drawn (depth + 1) pin
  listed : ∀ pin, circuit.Consumes drawn depth pin → circuit.adjacency.touches pin →
    pin ∈ done ++ first
  nearer : ∀ less < depth, ∀ id, circuit.IsLogic id → circuit.Feeds drawn less id →
    ∀ pin ∈ circuit.pinsOf id, inference.circuit.direction pin = drawn pin

theorem Levels.next {depth : Nat} {second : List ElementId}
    (levels : Levels circuit drawn done inference depth [] second)
    (between : Between circuit drawn done inference)
    (agreeing : Agreeing circuit drawn done inference) :
    Levels circuit drawn done inference (depth + 1) second [] := by
  have directed : ∀ id, circuit.IsLogic id → circuit.Feeds drawn depth id →
      ∀ pin ∈ circuit.pinsOf id, inference.circuit.direction pin = drawn pin := by
    rintro id isLogic ⟨source, output, consumes, joined, member, _⟩
    have followed : source ∈ done := by
      simpa using levels.listed source consumes joined.touches
    have known := between.directs source followed output joined id isLogic member
    exact (agreeing.each id isLogic).resolve_left fun all => known (all output member)
  refine ⟨by simpa using levels.queue, levels.far, by simp, ?_, ?_⟩
  · rintro pin ⟨id, isLogic, owned, input, feeds⟩ touches
    have same := directed id isLogic feeds pin owned
    have waits := agreeing.waiting id isLogic pin owned input (by rw [same, input]; decide) touches
    simpa [levels.queue] using waits
  · intro less below id isLogic feeds
    rcases Nat.lt_succ_iff_lt_or_eq.mp below with lower | rfl
    · exact levels.nearer less lower id isLogic feeds
    · exact directed id isLogic feeds

theorem Levels.round {depth : Nat} {pin : ElementId} {first second : List ElementId}
    (levels : Levels circuit drawn done inference depth (pin :: first) second)
    (consistent : circuit.Consistent drawn) (graded : circuit.Graded drawn)
    (agreeing : Agreeing circuit drawn done inference)
    (stepped : Stepped circuit drawn done pin (first ++ second) inference made) :
    Agreeing circuit drawn (done ++ [pin]) made ∧
      ∃ second, Levels circuit drawn (done ++ [pin]) made depth first second := by
  have consumes := levels.near pin List.mem_cons_self
  have right : ¬circuit.Mistaken drawn made.circuit := by
    intro mistaken
    rcases stepped.cause mistaken with before | ⟨reached, joined, input, undirected, id, isLogic,
      owned⟩
    · exact agreeing.not_mistaken before
    · obtain ⟨less, below, feeds⟩ := graded depth pin id reached consumes isLogic owned input joined
      rw [levels.nearer less below id isLogic feeds reached owned, input] at undirected
      contradiction
  have agrees := stepped.between.agrees.resolve_right right
  refine ⟨agrees, ?_⟩
  obtain ⟨added, queue, each⟩ := stepped.added
  refine ⟨second ++ added, by rw [queue, List.append_assoc], ?_, ?_, ?_, ?_⟩
  · exact fun other member => levels.near other (List.mem_cons_of_mem _ member)
  · intro other member
    rcases List.mem_append.mp member with old | new
    · exact levels.far other old
    · obtain ⟨id, isLogic, owned, input, reached, joined, reachedOwned, output⟩ := each other new
      have drawnAs : ∀ pin ∈ circuit.pinsOf id, made.circuit.direction pin = drawn pin :=
        (agrees.each id isLogic).resolve_left fun all => by simp [all other owned] at input
      refine ⟨id, isLogic, owned, (drawnAs other owned).symm.trans input, pin, reached, consumes,
        joined, reachedOwned, (drawnAs reached reachedOwned).symm.trans output⟩
  · intro other consumesOther touches
    have listed := levels.listed other consumesOther touches
    simpa using listed
  · intro less below id isLogic feeds other owned
    have same := levels.nearer less below id isLogic feeds other owned
    have known := consistent.directed id isLogic other owned
    rw [stepped.grows other (by rwa [same]), same]

theorem Levels.step {depth : Nat} {pin : ElementId} {queue first second : List ElementId}
    (levels : Levels circuit drawn done inference depth first second)
    (between : Between circuit drawn done inference) (consistent : circuit.Consistent drawn)
    (graded : circuit.Graded drawn) (agreeing : Agreeing circuit drawn done inference)
    (waiting : inference.queue = pin :: queue)
    (stepped : Stepped circuit drawn done pin queue inference made) :
    Agreeing circuit drawn (done ++ [pin]) made ∧
      ∃ depth first second, Levels circuit drawn (done ++ [pin]) made depth first second := by
  have head : ∀ depth first second, Levels circuit drawn done inference depth (pin :: first) second →
      Agreeing circuit drawn (done ++ [pin]) made ∧
        ∃ depth first second, Levels circuit drawn (done ++ [pin]) made depth first second := by
    intro depth first second levels
    have rest : queue = first ++ second := by
      have same := waiting.symm.trans levels.queue
      simpa using same
    obtain ⟨agrees, second, next⟩ := levels.round consistent graded agreeing (rest ▸ stepped)
    exact ⟨agrees, depth, first, second, next⟩
  have order := waiting.symm.trans levels.queue
  cases first with
  | cons other first =>
      have same : pin = other := (List.cons.inj order).1
      exact head depth first second (same ▸ levels)
  | nil =>
      have same : second = pin :: queue := order.symm
      subst same
      exact head (depth + 1) queue [] (levels.next between agreeing)

theorem levels_start (tree : circuit.Tree Kind.Owns) (drawn : ElementId → Direction) :
    Levels circuit drawn [] ⟨circuit, circuit.pinsDirected .input, 0⟩ 0
      (circuit.pinsDirected .input) [] := by
  have agreeing := (between_start tree drawn).agrees
  refine ⟨by simp, ?_, by simp, ?_, by simp⟩
  · intro pin member
    simp only [Circuit.pinsDirected, List.mem_filter, Bool.and_eq_true, beq_iff_eq] at member
    obtain ⟨_, isPin, input⟩ := member
    obtain ⟨owner, owned, pinOf⟩ := tree.pinOf isPin
    cases pinOf with
    | relay _ _ undirected =>
        rw [input] at undirected
        contradiction
    | signal isSignal _ _ => exact ⟨owner, isSignal, owned, input⟩
    | logic _ _ _ undirected =>
        rw [input] at undirected
        contradiction
  · rintro pin ⟨id, _, member, input⟩ _
    have isPin := (tree.mem_pinsOf.mp member).1
    obtain ⟨element, _, held, _⟩ := Circuit.isPin_held isPin
    have bound := Circuit.get?_lt held
    simp [Circuit.pinsDirected, Circuit.ids, isPin, input, bound]

end Inference

namespace Circuit

open Inference

variable {circuit : Circuit} {drawn : ElementId → Direction}

theorem Tree.recovered_iff (tree : circuit.Tree Kind.Owns) (valid : circuit.validate = .ok ())
    (consistent : circuit.Consistent drawn) :
    circuit.Recovered drawn (circuit.resolveDirections circuit.adjacency).1 ↔
      ¬circuit.Mistaken drawn (circuit.resolveDirections circuit.adjacency).1 := by
  constructor
  · rintro recovered ⟨id, isLogic, pin, member, input, output⟩
    rw [recovered id isLogic pin member, input] at output
    contradiction
  · intro right
    obtain ⟨done, between, emptied⟩ := run_keeps
      (fun _ _ (between : Between circuit drawn _ _) => between.queued)
      (fun _ _ _ _ between waiting => (between.round tree valid consistent waiting).between)
      (between_start tree drawn) (Nat.le_add_left _ _)
    exact between.recovered consistent emptied right

theorem Tree.recovered_of_graded (tree : circuit.Tree Kind.Owns)
    (valid : circuit.validate = .ok ()) (consistent : circuit.Consistent drawn)
    (graded : circuit.Graded drawn) :
    circuit.Recovered drawn (circuit.resolveDirections circuit.adjacency).1 := by
  let kept (done : List ElementId) (inference : Inference) : Prop :=
    Between circuit drawn done inference ∧ Agreeing circuit drawn done inference ∧
      ∃ depth first second, Levels circuit drawn done inference depth first second
  have start := between_start tree drawn
  have agreeing : Agreeing circuit drawn [] ⟨circuit, circuit.pinsDirected .input, 0⟩ :=
    start.agrees.resolve_right fun ⟨id, isLogic, pin, member, _, output⟩ => by
      rw [(tree.logic_pin isLogic member).2] at output
      contradiction
  have step : ∀ done inference pin queue, kept done inference → inference.queue = pin :: queue →
      kept (done ++ [pin]) (round circuit inference pin queue) := by
    rintro done inference pin queue ⟨between, agreeing, depth, first, second, levels⟩ waiting
    have stepped := between.round tree valid consistent waiting
    exact ⟨stepped.between, levels.step between consistent graded agreeing waiting stepped⟩
  obtain ⟨done, ⟨between, agrees, _⟩, emptied⟩ := run_keeps
    (fun _ _ (holds : kept _ _) => holds.1.queued) step
    ⟨start, agreeing, 0, _, _, levels_start tree drawn⟩ (Nat.le_add_left _ _)
  exact between.recovered consistent emptied agrees.not_mistaken

/--
In a valid drawn circuit, inference finds the directions that are meant unless it makes an input
an output, and it does find them where the inputs that meet at a junction are graded.
-/
theorem resolveDirections_recovers (name : String) (calls : List Call)
    (drawing : ∀ call ∈ calls, call.isDrawing)
    (built : circuit = ((empty name).afterCalls calls).clearInferred)
    (valid : circuit.validate = .ok ()) (consistent : circuit.Consistent drawn) :
    (circuit.Recovered drawn (circuit.resolveDirections circuit.adjacency).1 ↔
      ¬circuit.Mistaken drawn (circuit.resolveDirections circuit.adjacency).1) ∧
    (circuit.Graded drawn →
      circuit.Recovered drawn (circuit.resolveDirections circuit.adjacency).1) := by
  have settled := settled_stable.afterCalls (settled_empty name) calls
  have tree : circuit.Tree Kind.Owns := by
    rw [built, clearInferred_of_settled settled]
    exact tree_afterCalls name drawing
  exact ⟨tree.recovered_iff valid consistent, tree.recovered_of_graded valid consistent⟩

def meeting (more : List Call) : List Call :=
  [.addProject "cell", .addContext 1 "line", .addSignal 2 "lamp" none, .addSignal 2 "motor" none,
    .addPin 2 "joint", .addGate 2 .and "hold"] ++ more

def forked : List Call :=
  meeting [.addGate 2 .or "pass", .addWire 2 7 9 false false, .addWire 2 9 10 false false,
    .addWire 2 9 15 false false, .addWire 2 13 6 false false, .addWire 2 18 3 false false]

def shadowed : List Call :=
  meeting [.addWire 2 7 9 false false, .addWire 2 9 3 false false, .addWire 2 9 10 false false,
    .addWire 2 13 6 false false]

def outputsAt (outputs : List ElementId) (pin : ElementId) : Direction :=
  if pin ∈ outputs then .output else .input

theorem forked_recovered : ∃ circuit, (∀ call ∈ forked, call.isDrawing) ∧
    circuit = ((empty "plant").afterCalls forked).clearInferred ∧ circuit.validate = .ok () ∧
      circuit.Consistent (outputsAt [13, 18]) ∧ circuit.Graded (outputsAt [13, 18]) ∧
        circuit.Recovered (outputsAt [13, 18]) (circuit.resolveDirections circuit.adjacency).1 := by
  have drawing : ∀ call ∈ forked, call.isDrawing := by decide
  let circuit := ((empty "plant").afterCalls forked).clearInferred
  have valid : circuit.validate = .ok () := by decide +kernel
  have consistent : circuit.Consistent (outputsAt [13, 18]) :=
    .of_ids 1 (by decide +kernel) (by decide +kernel)
  have near : ∀ id ∈ circuit.ids, circuit.IsLogic id → circuit.Feeds (outputsAt [13, 18]) 0 id := by
    decide +kernel
  have apart : ∀ pin ∈ circuit.ids, circuit.Consumes (outputsAt [13, 18]) 0 pin →
      ∀ id ∈ circuit.ids, circuit.IsLogic id → ∀ input ∈ circuit.pinsOf id,
        outputsAt [13, 18] input = .input → ¬circuit.Joined pin input := by
    decide +kernel
  have graded : circuit.Graded (outputsAt [13, 18]) := by
    intro depth pin id input consumes isLogic member isInput joined
    cases depth with
    | zero =>
        exact absurd joined
          (apart pin consumes.mem_ids consumes id isLogic.mem_ids isLogic input member isInput)
    | succ depth => exact ⟨0, depth.succ_pos, near id isLogic.mem_ids isLogic⟩
  exact ⟨circuit, drawing, rfl, valid, consistent, graded,
    (resolveDirections_recovers "plant" forked drawing rfl valid consistent).2 graded⟩

/--
Consistent directions need not be found: the lamp's input meets the gate's before the gate is known
to feed the motor.
-/
theorem shadowed_mistaken : ∃ circuit, (∀ call ∈ shadowed, call.isDrawing) ∧
    circuit = ((empty "plant").afterCalls shadowed).clearInferred ∧ circuit.validate = .ok () ∧
      circuit.Consistent (outputsAt [13]) ∧
        ¬circuit.Recovered (outputsAt [13]) (circuit.resolveDirections circuit.adjacency).1 := by
  refine ⟨_, by decide, rfl, by decide +kernel, ?_, ?_⟩
  · exact .of_ids 1 (by decide +kernel) (by decide +kernel)
  · intro recovered
    have made := recovered 14 (by decide +kernel) 10 (by decide +kernel)
    revert made
    decide +kernel

end Circuit

end RelayLogic
