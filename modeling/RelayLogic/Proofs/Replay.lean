import RelayLogic.Proofs.Mirror

/-!
Adding the records of a circuit that is laid out. Each element comes to stand under the number of
its record, in a copy that is planted as the original was.
-/

namespace RelayLogic

open Netlist (Assembly Record solutionName)

namespace Netlist.Assembly

variable {circuit : Circuit} {project : Option ElementId} {context : Nat} {container : Element}

theorem add_project (known : Circuit.solution < circuit.size) (current : Option ElementId)
    (number : Nat) :
    add ⟨circuit, project, current⟩ number .project =
      .ok (⟨circuit.plant Circuit.solution [] ("Project" ++ toString number) .project,
        some circuit.size, none⟩, some circuit.size) := by
  have done := Build.run_ok (Build.push_ok known ("Project" ++ toString number) .project)
  simp only [add]
  rw [show (Build.addProject _).run circuit = _ from done]
  rfl

theorem add_context (held : circuit.get? context = some container)
    (isProject : container.kind = .project) (current : Option ElementId) (number : Nat) :
    add ⟨circuit, some context, current⟩ number .context =
      .ok (⟨circuit.plant context [] ("Context" ++ toString number) .context,
        some context, some circuit.size⟩, some circuit.size) := by
  have done := Build.run_ok (Build.addContext_ok held isProject ("Context" ++ toString number))
  simp only [add, done]
  rfl

theorem add_tag (known : Circuit.solution < circuit.size) (current : Option ElementId)
    (number : Nat) (name : String) (initial : Tri) :
    add ⟨circuit, project, current⟩ number (.tag name initial) =
      .ok (⟨circuit.plant Circuit.solution [] name (.tag initial []), project, current⟩,
        some circuit.size) := by
  have done := Build.run_ok (Build.push_ok known name (.tag initial []))
  simp only [add]
  rw [show (Build.addTag _ _).run circuit = _ from done]
  rfl

theorem place_ok {command : Command} {build : ElementId → Build ElementId} {id : ElementId}
    {grown : Circuit} (done : build context circuit = .ok id grown) :
    place ⟨circuit, project, some context⟩ command build =
      .ok (⟨grown, project, some context⟩, some id) := by
  simp only [place, currentContext, bind, Except.bind, Build.run_ok done]
  rfl

theorem add_pin (held : circuit.get? context = some container)
    (contains : container.kind.isContainer) (number : Nat) :
    add ⟨circuit, project, some context⟩ number .pin =
      .ok (⟨circuit.push context ("P" ++ toString number) (.pin .floating), project,
        some context⟩, some circuit.size) :=
  place_ok (Build.addPin_ok held contains _)

theorem add_connect (held : circuit.get? context = some container)
    (contains : container.kind.isContainer) {start stop : ElementId}
    (arePins : ∀ pin ∈ [start, stop], circuit.isPin pin) (different : start ≠ stop)
    (invertStart invertStop : Bool) (number : Nat) :
    add ⟨circuit, project, some context⟩ number (.connect start stop invertStart invertStop) =
      .ok (⟨circuit.plant context [] (circuit.nameOf start ++ "-" ++ circuit.nameOf stop)
        (.wire ⟨start, stop, invertStart, invertStop⟩), project, some context⟩,
        some circuit.size) :=
  place_ok (Build.addWire_ok held contains arePins different invertStart invertStop)

def pinNames (number count : Nat) : List String :=
  (List.range' number count).map fun number => "P" ++ toString number

@[simp] theorem length_pinNames (number count : Nat) : (pinNames number count).length = count := by
  simp [pinNames]

theorem adds_pins (count : Nat) {more : List (Record Nat)} {final : Assembly}
    (held : circuit.get? context = some container) (contains : container.kind.isContainer)
    (rest : Adds (circuit.size + count) (circuit.size + count)
      ⟨circuit.pushPins context (pinNames circuit.size count), project, some context⟩ more final) :
    Adds circuit.size circuit.size ⟨circuit, project, some context⟩
      (List.replicate count .pin ++ more) final := by
  induction count generalizing circuit container with
  | zero => exact rest
  | succ count ih =>
      rw [List.replicate_succ, List.cons_append]
      refine .declare trivial (add_pin held contains circuit.size) ?_
      have kept := Circuit.get?_push_owner held ("P" ++ toString circuit.size) (.pin .floating)
      have onward := ih kept contains
      rw [Circuit.size_push, Nat.add_right_comm, Nat.add_assoc] at onward
      exact onward (by simpa [pinNames, List.range'_succ, Circuit.pushPins] using rest)

theorem adds_owner {count : Nat} {record : Record Nat} {planted : Circuit}
    {more : List (Record Nat)} {final : Assembly} (held : circuit.get? context = some container)
    (contains : container.kind.isContainer) (fits : record.Fits (circuit.size + count))
    (added : add ⟨circuit.pushPins context (pinNames circuit.size count), project, some context⟩
      (circuit.size + count) record =
        .ok (⟨planted, project, some context⟩, some (circuit.size + count)))
    (rest : Adds (circuit.size + count + 1) (circuit.size + count + 1)
      ⟨planted, project, some context⟩ more final) :
    Adds circuit.size circuit.size ⟨circuit, project, some context⟩
      (List.replicate count .pin ++ record :: more) final :=
  adds_pins count held contains (.declare fits added rest)

end Netlist.Assembly

namespace Circuit

variable {circuit copy : Circuit} {visited remaining : List ElementId}

open Netlist.Assembly (Adds add_project add_context add_tag add_pin add_connect adds_owner)

theorem numberOf_solution (circuit : Circuit) : circuit.numberOf solution = solution := by
  simp [numberOf, order, inOrder]
  rfl

theorem numberOf_lt (parts : circuit.order = visited ++ remaining) {id : ElementId}
    (member : id ∈ visited) : circuit.numberOf id < visited.length := by
  rw [numberOf, parts, List.idxOf_append_of_mem member]
  exact List.idxOf_lt_length_of_mem member

namespace Mirrors

variable (mirrors : circuit.Mirrors [] visited copy)

include mirrors

theorem twin {id : ElementId} {element : Element} (member : id ∈ visited)
    (held : circuit.get? id = some element) :
    ∃ twin, copy.get? (circuit.numberOf id) = some twin ∧
      twin.kind = element.kind.unbound.renamed circuit.numberOf := by
  obtain ⟨found, twin, foundHeld, twinHeld, isTwin⟩ := mirrors.each id member
  rw [held] at foundHeld
  cases foundHeld
  exact ⟨twin, twinHeld, by simpa using isTwin.kind⟩

theorem isPin_twin {id : ElementId} (member : id ∈ visited) (isPin : circuit.isPin id) :
    copy.isPin (circuit.numberOf id) := by
  unfold Circuit.isPin at isPin
  split at isPin
  next element held =>
    obtain ⟨twin, twinHeld, kind⟩ := mirrors.twin member held
    simp only [Circuit.isPin, twinHeld, kind]
    cases same : element.kind <;> simp [same, Kind.isPin] at isPin
    rfl
  next => contradiction

theorem fits (parts : circuit.order = visited ++ remaining)
    {id : ElementId} {twin : Element} (member : id ∈ visited)
    (held : copy.get? (circuit.numberOf id) = some twin) (child : Nat)
    (listed : child ∈ twin.children) : child < copy.size := by
  obtain ⟨element, other, _, otherHeld, isTwin⟩ := mirrors.each id member
  rw [held] at otherHeld
  cases otherHeld
  rw [isTwin.children] at listed
  obtain ⟨original, originalMember, rfl⟩ := List.mem_map.mp listed
  rw [mirrors.size]
  exact numberOf_lt parts (List.mem_filter.mp originalMember).1

end Mirrors

def recordsOf (circuit : Circuit) (ids : List ElementId) : List (Record Nat) :=
  ids.map fun id => (circuit.recordOf id).map circuit.numberOf

def ShortTags (circuit : Circuit) : Prop :=
  ∀ id element, circuit.get? id = some element → element.kind.isTag →
    (Text.encodeUtf8 element.name).length < 2 ^ 32

/-- Whether the records of what remains lead from a copy of what was visited to one of all. -/
def Replays (circuit : Circuit) (project context : Option ElementId)
    (visited remaining : List ElementId) (copy : Circuit) : Prop :=
  ∃ copy' project' context', circuit.Mirrors [] circuit.order copy' ∧ ∀ more final,
    Adds circuit.order.length circuit.order.length ⟨copy', project', context'⟩ more final →
      Adds visited.length visited.length
        ⟨copy, project.map circuit.numberOf, context.map circuit.numberOf⟩
        (circuit.recordsOf remaining ++ more) final

theorem Replays.alone {id owner : ElementId} {element : Element}
    {project context project' context' : Option ElementId} (tree : circuit.Tree Kind.Nests)
    (mirrors : circuit.Mirrors [] visited copy) (parts : circuit.order = visited ++ id :: remaining)
    (next : circuit.Next visited [] id owner element) (name : String)
    (named : element.kind.isTag → name = element.name) (record : Record Nat)
    (recorded : (circuit.recordOf id).map circuit.numberOf = record)
    (fits : record.Fits copy.size)
    (added : Netlist.Assembly.add
      ⟨copy, project.map circuit.numberOf, context.map circuit.numberOf⟩ copy.size record =
        .ok (⟨copy.plant (circuit.numberOf owner) [] name
          (element.kind.unbound.renamed circuit.numberOf), project'.map circuit.numberOf,
            context'.map circuit.numberOf⟩, some copy.size))
    (rest : ∀ copy, circuit.order = visited ++ [id] ++ remaining →
      circuit.Mirrors [] (visited ++ [id]) copy →
        circuit.Replays project' context' (visited ++ [id]) remaining copy) :
    circuit.Replays project context visited (id :: remaining) copy := by
  obtain ⟨copy', last, lastContext, whole, adds⟩ :=
    rest _ (by simp [parts]) (mirrors.plant_alone tree next parts name named)
  refine ⟨copy', last, lastContext, whole, fun more final onto => ?_⟩
  have onward := adds more final onto
  rw [List.length_append, List.length_singleton, ← mirrors.size] at onward
  rw [recordsOf, List.map_cons, recorded, List.cons_append, ← mirrors.size]
  exact .declare fits added onward

theorem Replays.owner {id context : ElementId} {element twin : Element}
    {project : Option ElementId} (tree : circuit.Tree Kind.Nests)
    (mirrors : circuit.Mirrors [] visited copy)
    (parts : circuit.order = visited ++ (circuit.inOrder 0 id ++ remaining))
    (next : circuit.Next visited (circuit.children id) id context element)
    (twinHeld : copy.get? (circuit.numberOf context) = some twin)
    (contains : twin.kind.isContainer)
    (plain : ∀ pin ∈ circuit.children id, circuit.recordOf pin = .pin)
    {points : List (String × Pin)}
    (twins : List.Forall₂ (fun pin (point : String × Pin) => ∃ element,
      circuit.get? pin = some element ∧ element.kind = .pin point.2) (circuit.children id) points)
    (name : String) (named : element.kind.isTag → name = element.name) (record : Record Nat)
    (recorded : (circuit.recordOf id).map circuit.numberOf = record)
    (fits : record.Fits (copy.size + points.length))
    (added : Netlist.Assembly.add ⟨copy.pushPins (circuit.numberOf context)
      (Netlist.Assembly.pinNames copy.size points.length), project.map circuit.numberOf,
        some (circuit.numberOf context)⟩ (copy.size + points.length) record =
        .ok (⟨copy.plant (circuit.numberOf context) points name
          (element.kind.unbound.renamed circuit.numberOf), project.map circuit.numberOf,
            some (circuit.numberOf context)⟩, some (copy.size + points.length)))
    (rest : ∀ copy, circuit.order = visited ++ circuit.inOrder 0 id ++ remaining →
      circuit.Mirrors [] (visited ++ circuit.inOrder 0 id) copy →
        circuit.Replays project (some context) (visited ++ circuit.inOrder 0 id) remaining copy) :
    circuit.Replays project (some context) visited (circuit.inOrder 0 id ++ remaining) copy := by
  obtain ⟨copy', last, lastContext, whole, adds⟩ :=
    rest _ (by rw [parts, List.append_assoc]) (mirrors.plant tree next parts twins named)
  refine ⟨copy', last, lastContext, whole, fun more final onto => ?_⟩
  have count : (circuit.children id).length = points.length := twins.length_eq
  have pins : circuit.recordsOf (circuit.children id) = List.replicate points.length .pin := by
    rw [← count, recordsOf, ← List.map_const']
    exact List.map_congr_left fun pin member => by rw [plain pin member]; rfl
  have onward := adds more final onto
  have length : (visited ++ circuit.inOrder 0 id).length = copy.size + points.length + 1 := by
    rw [List.length_append, inOrder, List.length_append, count, mirrors.size]
    rfl
  rw [length] at onward
  have records : circuit.recordsOf (circuit.inOrder 0 id ++ remaining) =
      List.replicate points.length .pin ++ record :: circuit.recordsOf remaining := by
    rw [← pins, ← recorded, inOrder]
    simp [recordsOf]
  rw [records, List.append_assoc, ← mirrors.size]
  exact adds_owner twinHeld contains fits added onward

section Member

variable {id context : ElementId} {element twin : Element} {project : Option ElementId}
  (tree : circuit.Tree Kind.Nests) (valid : circuit.validate = .ok ())
  (mirrors : circuit.Mirrors [] visited copy)
  (parts : circuit.order = visited ++ (circuit.inOrder 0 id ++ remaining))
  (next : circuit.Next visited (circuit.children id) id context element)
  (twinHeld : copy.get? (circuit.numberOf context) = some twin) (contains : twin.kind.isContainer)
  (fits : ∀ child : Nat, child ∈ twin.children → child < copy.size)
  (rest : ∀ copy, circuit.order = visited ++ circuit.inOrder 0 id ++ remaining →
    circuit.Mirrors [] (visited ++ circuit.inOrder 0 id) copy →
      circuit.Replays project (some context) (visited ++ circuit.inOrder 0 id) remaining copy)

include tree mirrors parts next twinHeld contains rest

theorem replays_relay {point : Pin} (nests : Kind.context.Nests element.kind)
    (isPin : element.kind = .pin point) :
    circuit.Replays project (some context) visited (circuit.inOrder 0 id ++ remaining) copy := by
  have floating : point = .floating := by
    rw [isPin] at nests
    simpa [Kind.Nests, Kind.isSignal, Kind.isLogic] using nests
  have none := tree.children_eq_nil next.held (by rw [isPin]; rfl)
  rw [none] at next
  rw [inOrder, none] at parts rest ⊢
  refine .alone tree mirrors parts next ("P" ++ toString copy.size)
    (by simp [isPin, Kind.isTag]) .pin (by simp only [recordOf, next.held, isPin, Record.map])
    trivial ?_ rest
  have added : Netlist.Assembly.add ⟨copy, project.map circuit.numberOf,
      some (circuit.numberOf context)⟩ copy.size .pin = _ := add_pin twinHeld contains copy.size
  rw [push_eq_plant (get?_lt twinHeld)] at added
  rw [isPin, floating]
  exact added

include valid

theorem replays_wire {wire : Wire} (isWire : element.kind = .wire wire)
    (known : ∀ target ∈ (circuit.recordOf id).references,
      target ∈ visited ++ circuit.children id) :
    circuit.Replays project (some context) visited (circuit.inOrder 0 id ++ remaining) copy := by
  have none := tree.children_eq_nil next.held (by rw [isWire]; rfl)
  rw [none, List.append_nil] at known
  rw [none] at next
  rw [inOrder, none] at parts rest ⊢
  simp only [recordOf, next.held, isWire, Record.references, List.mem_cons, List.not_mem_nil,
    or_false, forall_eq_or_imp, forall_eq] at known
  obtain ⟨startKnown, stopKnown⟩ := known
  have needs := (validate_ok_iff.mp valid id element next.held).2
  rw [isWire] at needs
  obtain ⟨startPin, stopPin, different⟩ := needs
  have arePins : ∀ pin ∈ [circuit.numberOf wire.start, circuit.numberOf wire.stop],
      copy.isPin pin := by
    simp [mirrors.isPin_twin startKnown startPin, mirrors.isPin_twin stopKnown stopPin]
  have apart : circuit.numberOf wire.start ≠ circuit.numberOf wire.stop := by
    intro same
    refine different (numberOf_inj ?_ same)
    rw [parts]
    exact List.mem_append_left _ startKnown
  have small : ∀ pin ∈ visited, circuit.numberOf pin < copy.size := by
    intro pin member
    rw [mirrors.size]
    exact numberOf_lt parts member
  refine .alone tree mirrors parts next (copy.nameOf (circuit.numberOf wire.start) ++ "-" ++
      copy.nameOf (circuit.numberOf wire.stop)) (by simp [isWire, Kind.isTag])
    (.connect (circuit.numberOf wire.start) (circuit.numberOf wire.stop) wire.invertStart
      wire.invertStop) (by simp only [recordOf, next.held, isWire, Record.map])
    ⟨small _ startKnown, small _ stopKnown⟩ ?_ rest
  rw [isWire]
  exact add_connect twinHeld contains arePins apart _ _ _

include fits

theorem replays_signal {tag : Option ElementId} (isSignal : element.kind = .signal tag) :
    circuit.Replays project (some context) visited (circuit.inOrder 0 id ++ remaining) copy := by
  obtain ⟨input, output, pins, isInput, isOutput⟩ := tree.owns.signal_pins valid next.held isSignal
  have owner : element.kind.isSignal ∨ element.kind.isLogic := by
    rw [isSignal]
    exact Or.inl rfl
  have numbers : (circuit.pinsOf id).map circuit.numberOf = [copy.size, copy.size + 1] := by
    have split : circuit.order = visited ++ (circuit.children id ++ (id :: remaining)) := by
      simp [parts, inOrder]
    rw [tree.owns.pinsOf_eq_children next.held owner, tree.map_numberOf split, pins, mirrors.size]
    rfl
  have built := Build.signalFromPins_ok twinHeld contains fits ("P" ++ toString copy.size)
    ("P" ++ toString (copy.size + 1)) ("S" ++ toString (copy.size + 2)) none
  have twins : List.Forall₂ (fun pin (point : String × Pin) => ∃ element,
      circuit.get? pin = some element ∧ element.kind = .pin point.2) (circuit.children id)
      [("P" ++ toString copy.size, .fixed .input),
        ("P" ++ toString (copy.size + 1), .fixed .output)] := by
    rw [pins]
    exact .cons isInput (.cons isOutput .nil)
  refine .owner tree mirrors parts next twinHeld contains
    (fun pin member => tree.recordOf_child next.held owner member) twins
    ("S" ++ toString (copy.size + 2)) (by simp [isSignal, Kind.isTag])
    (.signal [copy.size, copy.size + 1])
    (by simp only [recordOf, next.held, isSignal, Record.map, numbers]) ⟨rfl, by simp⟩ ?_ rest
  rw [isSignal]
  exact Netlist.Assembly.place_ok built

theorem replays_logic (logic : element.kind.isLogic) (record : List Nat → Record Nat)
    (command : Netlist.Command) (letter : String)
    (recorded : (circuit.recordOf id).map circuit.numberOf =
      record ((circuit.pinsOf id).map circuit.numberOf))
    (small : ∀ pins count, pins.length = 4 → (∀ pin ∈ pins, pin < count) →
      (record pins).Fits count)
    (placed : ∀ assembly number pins, Netlist.Assembly.add assembly number (record pins) =
      assembly.place command fun context =>
        Build.logicFromPins context element.kind (letter ++ toString number) pins) :
    circuit.Replays project (some context) visited (circuit.inOrder 0 id ++ remaining) copy := by
  obtain ⟨four, floating⟩ := tree.owns.logic_pins valid next.held logic
  have owner : element.kind.isSignal ∨ element.kind.isLogic := Or.inr logic
  have numbers : (circuit.pinsOf id).map circuit.numberOf = List.range' copy.size 4 := by
    have split : circuit.order = visited ++ (circuit.children id ++ (id :: remaining)) := by
      simp [parts, inOrder]
    rw [tree.owns.pinsOf_eq_children next.held owner, tree.map_numberOf split, four, mirrors.size]
  have same : element.kind.unbound.renamed circuit.numberOf = element.kind := by
    cases kind : element.kind with
    | gate _ | timer _ _ | memory _ => rfl
    | _ => simp [kind, Kind.isLogic] at logic
  have built := Build.logicFromPins_ok twinHeld contains fits logic
    (Netlist.Assembly.pinNames copy.size 4) (letter ++ toString (copy.size + 4))
  have twins : List.Forall₂ (fun pin (point : String × Pin) => ∃ element,
      circuit.get? pin = some element ∧ element.kind = .pin point.2) (circuit.children id)
      ((Netlist.Assembly.pinNames copy.size 4).map (·, .floating)) := by
    refine List.forall₂_iff_get.mpr ⟨by simp [four], ?_⟩
    intro index bound _
    simpa using floating _ (List.get_mem _ ⟨index, bound⟩)
  refine .owner tree mirrors parts next twinHeld contains
    (fun pin member => tree.recordOf_child next.held owner member) twins
    (letter ++ toString (copy.size + 4)) ?_ (record (List.range' copy.size 4))
    (by rw [recorded, numbers]) (small _ _ (by simp) ?_) ?_ rest
  · intro isTag
    cases kind : element.kind <;> simp [kind, Kind.isLogic, Kind.isTag] at logic isTag
  · intro pin member
    simpa using (List.mem_range'_1.mp member).2
  · rw [placed, same]
    exact Netlist.Assembly.place_ok built

theorem replays_member (nests : Kind.context.Nests element.kind)
    (known : ∀ target ∈ (circuit.recordOf id).references,
      target ∈ visited ++ circuit.children id) :
    circuit.Replays project (some context) visited (circuit.inOrder 0 id ++ remaining) copy := by
  have held := next.held
  cases kind : element.kind with
  | pin point => exact replays_relay tree mirrors parts next twinHeld contains rest nests kind
  | wire wire => exact replays_wire tree valid mirrors parts next twinHeld contains rest kind known
  | signal tag =>
      exact replays_signal tree valid mirrors parts next twinHeld contains fits rest kind
  | gate gate =>
      refine replays_logic tree valid mirrors parts next twinHeld contains fits rest
        (by rw [kind]; rfl) (.gate gate) (.gate gate) "G" ?_ (fun _ _ => And.intro) ?_
      · simp only [recordOf, held, kind, Record.map]
      · rw [kind]
        exact fun _ _ _ => rfl
  | timer timer delay =>
      refine replays_logic tree valid mirrors parts next twinHeld contains fits rest
        (by rw [kind]; rfl) (.timer timer · delay) (.timer timer) "T" ?_ (fun _ _ => And.intro) ?_
      · simp only [recordOf, held, kind, Record.map]
      · rw [kind]
        exact fun _ _ _ => rfl
  | _ =>
      rw [kind] at nests
      simp [Kind.Nests] at nests

end Member

def Current (circuit : Circuit) (kind : Kind) (visited : List ElementId)
    (current : Option ElementId) : Prop :=
  ∀ id ∈ current, id ∈ visited ∧ ∃ element, circuit.get? id = some element ∧ element.kind = kind

theorem Current.append {kind : Kind} {current : Option ElementId}
    (holds : circuit.Current kind visited current) (more : List ElementId) :
    circuit.Current kind (visited ++ more) current :=
  fun id isCurrent => ⟨List.mem_append_left _ (holds id isCurrent).1, (holds id isCurrent).2⟩

theorem current_none (circuit : Circuit) (kind : Kind) (visited : List ElementId) :
    circuit.Current kind visited none := by
  simp [Current]

theorem current_new {kind : Kind} {id : ElementId} {element : Element}
    (held : circuit.get? id = some element) (same : element.kind = kind) :
    circuit.Current kind (visited ++ [id]) (some id) := by
  intro other isCurrent
  cases isCurrent
  exact ⟨by simp, element, held, same⟩

theorem Visits.replay (tree : circuit.Tree Kind.Nests) (valid : circuit.validate = .ok ())
    (short : circuit.ShortTags) {project context : Option ElementId}
    (visits : circuit.Visits project context visited remaining)
    (parts : circuit.order = visited ++ remaining) (root : solution ∈ visited)
    (inProject : circuit.Current .project visited project)
    (inContext : circuit.Current .context visited context)
    (mirrors : circuit.Mirrors [] visited copy) :
    circuit.Replays project context visited remaining copy := by
  have first := circuit.numberOf_solution
  -- The copy grows with the visit: it holds the twins of what was visited, and the project and the
  -- context that are open in it are the twins of the current ones.
  induction visits generalizing copy with
  | done =>
      rw [List.append_nil] at parts
      exact ⟨copy, _, _, parts ▸ mirrors, fun more final rest => parts ▸ rest⟩
  | @tag project context visited id remaining isTag _ ih =>
      obtain ⟨element, held, isTag⟩ := isTag
      have known : solution < copy.size := mirrors.size ▸ List.length_pos_of_mem root
      cases kind : element.kind with
      | tag initial properties =>
          have owned := tree.owner_top held (by rw [kind]; rfl)
          refine .alone tree mirrors parts ⟨held, owned, root, by simp⟩ element.name (fun _ => rfl)
            (.tag element.name initial) (by simp only [recordOf, held, kind, Record.map])
            (short id element held isTag) ?_ fun copy parts mirrors =>
              ih parts (List.mem_append_left _ root) (inProject.append _) (inContext.append _) mirrors
          rw [kind, first]
          exact add_tag known _ _ _ _
      | _ => simp [kind, Kind.isTag] at isTag
  | @project project context visited id element remaining held isProject _ ih =>
      have known : solution < copy.size := mirrors.size ▸ List.length_pos_of_mem root
      have owned := tree.owner_top held (by rw [isProject]; rfl)
      refine .alone tree mirrors parts ⟨held, owned, root, by simp⟩ ("Project" ++ toString copy.size)
        (by simp [isProject, Kind.isTag]) .project
        (by simp only [recordOf, held, isProject, Record.map]) trivial ?_ fun copy parts mirrors =>
          ih parts (List.mem_append_left _ root) (current_new held isProject)
            (circuit.current_none _ _) mirrors
      rw [isProject, first, Option.map_some, tree.numberOf_next parts, ← mirrors.size]
      exact add_project known _ _
  | @context project context visited id element remaining held isContext owned _ ih =>
      obtain ⟨member, container, containerHeld, isProject⟩ := inProject project rfl
      obtain ⟨twin, twinHeld, twinKind⟩ := mirrors.twin member containerHeld
      rw [isProject] at twinKind
      refine .alone tree mirrors parts ⟨held, owned, member, by simp⟩
        ("Context" ++ toString copy.size) (by simp [isContext, Kind.isTag]) .context
        (by simp only [recordOf, held, isContext, Record.map]) trivial ?_ fun copy parts mirrors =>
          ih parts (List.mem_append_left _ root) (inProject.append _) (current_new held isContext)
            mirrors
      rw [isContext, Option.map_some, Option.map_some, tree.numberOf_next parts, ← mirrors.size]
      exact add_context twinHeld twinKind _ _
  | @member project context visited id element remaining held nests owned known _ ih =>
      obtain ⟨member, container, containerHeld, isContext⟩ := inContext context rfl
      obtain ⟨twin, twinHeld, twinKind⟩ := mirrors.twin member containerHeld
      rw [isContext] at twinKind
      have contains : twin.kind.isContainer := by rw [twinKind]; rfl
      have fits := mirrors.fits parts member twinHeld
      have next : circuit.Next visited (circuit.children id) id context element :=
        ⟨held, owned, member, fun pin listed => tree.mem_children.mp listed⟩
      have onward : ∀ copy, circuit.order = visited ++ circuit.inOrder 0 id ++ remaining →
          circuit.Mirrors [] (visited ++ circuit.inOrder 0 id) copy → circuit.Replays project
            (some context) (visited ++ circuit.inOrder 0 id) remaining copy :=
        fun copy parts mirrors => ih parts (List.mem_append_left _ root) (inProject.append _)
          (inContext.append _) mirrors
      exact replays_member tree valid mirrors parts next twinHeld contains fits onward nests known

end Circuit

end RelayLogic
