import RelayLogic.Proofs.Saving

/-!
What is loaded from a netlist. Whatever the order of its records, a netlist that can be read gives
a circuit that calls could have built, in which contexts hold all that is drawn and no element
takes more than its record to tell. Such a circuit can be saved again if its wires look back.
-/

namespace RelayLogic

def Rules.netlist : Rules :=
  ⟨(· = .context), fun name => (Text.encodeUtf8 name).length < 2 ^ 32, False,
    fun _ => Kind.isContainer_of_context⟩

namespace Netlist

theorem ofBytes_lt (bytes : List UInt8) : ofBytes bytes < 256 ^ bytes.length := by
  induction bytes with
  | nil => simp [ofBytes]
  | cons byte bytes ih =>
      have small := byte.toNat_lt
      rw [ofBytes, List.length_cons, Nat.pow_succ]
      omega

namespace Read

variable {reader later : Reader}

theorem bind_ok_iff {first : Read α} {next : α → Read β} {answer : β} :
    (first >>= next) reader = .ok (answer, later) ↔ ∃ middle between,
      first reader = .ok (middle, between) ∧ next middle between = .ok (answer, later) := by
  show StateT.bind first next reader = _ ↔ _
  simp only [StateT.bind]
  cases first reader with
  | error error => simp [bind, Except.bind]
  | ok found =>
      obtain ⟨middle, between⟩ := found
      simp [bind, Except.bind]

theorem length_bytes_le {length : Nat} {taken : List UInt8}
    (done : Read.bytes length reader = .ok (taken, later)) : taken.length ≤ length := by
  obtain ⟨_, _, known, done⟩ := bind_ok_iff.mp done
  cases known
  split at done
  next => contradiction
  next =>
    cases done
    exact List.length_take_le _ _

theorem number_lt {width number : Nat} (done : Read.number width reader = .ok (number, later)) :
    number < 256 ^ width := by
  obtain ⟨bytes, _, taken, done⟩ := bind_ok_iff.mp done
  cases done
  exact (ofBytes_lt bytes).trans_le (Nat.pow_le_pow_right (by decide) (length_bytes_le taken))

theorem text_short {text : String} (done : Read.text reader = .ok (text, later)) :
    (Text.encodeUtf8 text).length < 2 ^ 32 := by
  obtain ⟨length, _, counted, done⟩ := bind_ok_iff.mp done
  obtain ⟨_, _, known, done⟩ := bind_ok_iff.mp done
  split at done
  next => contradiction
  next =>
    obtain ⟨bytes, _, taken, done⟩ := bind_ok_iff.mp done
    cases decoded : Text.decodeUtf8 bytes with
    | error error =>
        rw [decoded] at done
        contradiction
    | ok found =>
        rw [decoded] at done
        cases done
        exact ((Text.length_encodeUtf8_le decoded).trans (length_bytes_le taken)).trans_lt
          (number_lt counted)

theorem record_tag_short {number : Nat} {command : Command} {name : String} {initial : Tri}
    (done : Read.record number command reader = .ok (.tag name initial, later)) :
    (Text.encodeUtf8 name).length < 2 ^ 32 := by
  cases command with
  | solution | project | context | pin => cases done
  | signal | gate _ =>
      obtain ⟨_, _, _, done⟩ := bind_ok_iff.mp done
      cases done
  | timer _ | bindTag =>
      obtain ⟨_, _, _, done⟩ := bind_ok_iff.mp done
      obtain ⟨_, _, _, done⟩ := bind_ok_iff.mp done
      cases done
  | connect =>
      obtain ⟨_, _, _, done⟩ := bind_ok_iff.mp done
      obtain ⟨_, _, _, done⟩ := bind_ok_iff.mp done
      obtain ⟨_, _, _, done⟩ := bind_ok_iff.mp done
      obtain ⟨_, _, _, done⟩ := bind_ok_iff.mp done
      cases done
  | tag =>
      obtain ⟨text, _, taken, done⟩ := bind_ok_iff.mp done
      obtain ⟨code, _, _, done⟩ := bind_ok_iff.mp done
      cases coded : triOfCode? code with
      | none =>
          rw [coded] at done
          contradiction
      | some value =>
          rw [coded] at done
          cases done
          exact text_short taken

end Read

end Netlist

namespace Circuit

variable {rules : Rules} {circuit made : Circuit} {records : Nat}

def boundIds (circuit : Circuit) : Finset Nat :=
  {id ∈ Finset.range circuit.size | (circuit.tagOf id).isSome}

def weight (circuit : Circuit) : Nat :=
  circuit.size + circuit.boundIds.card

theorem mem_boundIds {id : Nat} :
    id ∈ circuit.boundIds ↔ ∃ tag, circuit.kind? id = some (.signal (some tag)) := by
  simp only [boundIds, Finset.mem_filter, Finset.mem_range, Option.isSome_iff_exists,
    tagOf_eq_some, kind?_eq_some]
  constructor
  · rintro ⟨_, tag, element, held, isSignal⟩
    exact ⟨tag, element, held, isSignal⟩
  · rintro ⟨tag, element, held, isSignal⟩
    exact ⟨get?_lt held, tag, element, held, isSignal⟩

theorem weight_grow {more : Nat} (bound : List Nat) (size : made.size = circuit.size + more)
    (kinds : ∀ id tag, made.kind? id = some (.signal (some tag)) →
      id ∈ bound ∨ circuit.kind? id = some (.signal (some tag))) :
    made.weight ≤ circuit.weight + (more + bound.length) := by
  have subset : made.boundIds ⊆ bound.toFinset ∪ circuit.boundIds := by
    intro id member
    obtain ⟨tag, isSignal⟩ := mem_boundIds.mp member
    exact Finset.mem_union.mpr ((kinds id tag isSignal).imp List.mem_toFinset.mpr
      fun before => mem_boundIds.mpr ⟨tag, before⟩)
  have card := (Finset.card_le_card subset).trans (Finset.card_union_le _ _)
  have few := bound.toFinset_card_le
  simp only [weight, size]
  omega

theorem Gains.weight (gains : circuit.Gains rules records made) :
    made.weight ≤ circuit.weight + records := by
  have plain : ∀ {kind : Kind}, kind.isSignal = false →
      (∀ id, made.kind? id = if id = circuit.size then some kind else circuit.kind? id) →
        ∀ id tag, made.kind? id = some (.signal (some tag)) →
          id ∈ [] ∨ circuit.kind? id = some (.signal (some tag)) := by
    intro kind notSignal kinds id tag isSignal
    rw [kinds] at isSignal
    split at isSignal
    · cases isSignal
      contradiction
    · exact Or.inr isSignal
  cases gains with
  | push held _ notSignal _ _ =>
      exact weight_grow [] (size_push circuit _ _ _) (plain notSignal (kind?_push _ _ _))
  | @logic owner container name kind pins held _ isLogic _ =>
      have notSignal : kind.isSignal = false := by
        cases kind <;> first | rfl | contradiction
      exact weight_grow [] (size_take circuit owner name kind pins)
        (plain notSignal (kind?_take owner name kind pins))
  | @bind signal tag _ _ =>
      have size : (circuit.update signal fun element =>
          { element with kind := .signal (some tag) }).size = circuit.size + 0 :=
        size_update circuit signal _
      refine weight_grow [signal] size fun id other isSignal => ?_
      rw [kind?_update] at isSignal
      split at isSignal
      next same => exact Or.inl (List.mem_singleton.mpr same)
      next => exact Or.inr isSignal
  | @signal owner container name input output tag held _ arePins =>
      have kinds := kind?_takeSignal owner name tag arePins
      have size : (circuit.takeSignal owner name tag input output).size = circuit.size + 1 := by
        simp only [takeSignal, fixPin, size_update, size_take]
      have bound := weight_grow (tag.toList.map fun _ => circuit.size) size ?_
      · simpa using bound
      · intro id other isSignal
        rw [kinds] at isSignal
        split at isSignal
        · cases isSignal
        · split at isSignal
          · cases isSignal
          · split at isSignal
            next same =>
              cases isSignal
              simp [same]
            next => exact Or.inr isSignal

theorem Gains.kind? (gains : circuit.Gains rules records made) {id : Nat} {kind : Kind}
    (held : circuit.kind? id = some kind) (contains : kind.isContainer) :
    made.kind? id = some kind := by
  have bound : id < circuit.size := by
    obtain ⟨element, found, _⟩ := kind?_eq_some.mp held
    exact get?_lt found
  have notPin : ∀ pin, circuit.isPin pin → id ≠ pin := by
    rintro pin isPin rfl
    rw [isPin_eq, held] at isPin
    cases kind <;> simp [Kind.isPin, Kind.isContainer] at isPin contains
  cases gains with
  | push ownerHeld _ _ _ _ =>
      rw [kind?_push, if_neg (Nat.ne_of_lt bound), held]
  | bind isSignal _ =>
      obtain ⟨element, found, isSignal⟩ := isSignal
      rw [kind?_update, if_neg, held]
      rintro rfl
      rw [kind?_eq_some.mpr ⟨element, found, rfl⟩] at held
      cases held
      cases same : element.kind <;> simp [same, Kind.isSignal, Kind.isContainer] at isSignal contains
  | logic ownerHeld _ _ _ =>
      rw [kind?_take, if_neg (Nat.ne_of_lt bound), held]
  | @signal owner container name input output tag ownerHeld _ arePins =>
      rw [kind?_takeSignal owner name tag arePins,
        if_neg (notPin output (arePins output (by simp))),
        if_neg (notPin input (arePins input (by simp))), if_neg (Nat.ne_of_lt bound), held]

theorem Tree.entries_le (tree : circuit.Tree Kind.Nests) :
    circuit.entries.length ≤ circuit.weight := by
  have unique : circuit.order.Nodup := tree.nodup_order tree.shallow
  have listed : circuit.order.toFinset = Finset.range circuit.size := by
    ext id
    rw [List.mem_toFinset, Finset.mem_range]
    exact tree.mem_order_iff tree.shallow fun _ _ => tree.reach
  have order : circuit.order.length = circuit.size := by
    rw [← List.toFinset_card_of_nodup unique, listed, Finset.card_range]
  have bound : (circuit.order.filterMap circuit.bindingOf).length = circuit.boundIds.card := by
    rw [List.length_filterMap_eq_countP, List.countP_eq_length_filter,
      ← List.toFinset_card_of_nodup (unique.filter _), List.toFinset_filter, listed]
    simp [boundIds, bindingOf]
  rw [tree.entries_eq]
  simp only [List.length_map, List.length_append, weight]
  omega

end Circuit

namespace Netlist

namespace Assembly

variable {assembly grown : Assembly} {records number : Nat}
  {record : Record ElementId} {element : Option ElementId}

/-- What is known of a circuit after so many records were read. -/
structure Loads (assembly : Assembly) (records : Nat) : Prop where
  sound : assembly.circuit.Sound Rules.netlist
  weight : assembly.circuit.weight ≤ records
  project : ∀ id ∈ assembly.project, assembly.circuit.kind? id = some .project
  context : ∀ id ∈ assembly.context, assembly.circuit.kind? id = some .context

theorem Loads.gain (loads : assembly.Loads records) {made : Circuit}
    (gains : assembly.circuit.Gains Rules.netlist 1 made) {project context : Option ElementId}
    (inProject : ∀ id ∈ project, id ∈ assembly.project ∨ made.kind? id = some .project)
    (inContext : ∀ id ∈ context, id ∈ assembly.context ∨ made.kind? id = some .context) :
    Loads ⟨made, project, context⟩ (records + 1) where
  sound := gains.sound loads.sound
  weight := gains.weight.trans (Nat.add_le_add_right loads.weight 1)
  project id member := (inProject id member).elim
    (fun before => gains.kind? (loads.project id before) rfl) fun new => new
  context id member := (inContext id member).elim
    (fun before => gains.kind? (loads.context id before) rfl) fun new => new

theorem gains_of_run {build : Build α} {circuit made : Circuit} {answer : α}
    (gains : Build.Gains Rules.netlist 1 build circuit)
    (done : build.run circuit = .ok (answer, made)) : circuit.Gains Rules.netlist 1 made := by
  unfold Build.run at done
  rcases gains with ⟨found, changed, same, gained⟩ | ⟨error, failed⟩
  · rw [same] at done
    cases done
    exact gained
  · rw [failed] at done
    contradiction

theorem Loads.place (loads : assembly.Loads records) {command : Command}
    {build : ElementId → Build ElementId}
    (gains : ∀ context, (∀ container, assembly.circuit.get? context = some container →
      container.kind.isContainer → container.kind = .context) →
        Build.Gains Rules.netlist 1 (build context) assembly.circuit)
    (placed : assembly.place command build = .ok (grown, element)) :
    grown.Loads (records + 1) := by
  obtain ⟨context, inContext, placed⟩ := Check.bind_ok_iff.mp placed
  obtain ⟨⟨id, made⟩, done, placed⟩ := Check.bind_ok_iff.mp placed
  cases placed
  have current : assembly.context = some context := by
    unfold currentContext at inContext
    split at inContext
    next found =>
      cases inContext
      exact found
    next => contradiction
  refine loads.gain (gains_of_run (gains context fun container held _ => ?_) done)
    (fun _ member => Or.inl member) fun _ member => Or.inl member
  have isContext := loads.context context current
  rw [Circuit.kind?_eq_some.mpr ⟨container, held, rfl⟩] at isContext
  exact Option.some.inj isContext

theorem Loads.add (loads : assembly.Loads records)
    (named : ∀ name initial, record = .tag name initial →
      (Text.encodeUtf8 name).length < 2 ^ 32)
    (added : assembly.add number record = .ok (grown, element)) :
    grown.Loads (records + 1) := by
  cases record with
  | solution => contradiction
  | project =>
      obtain ⟨⟨id, made⟩, done, added⟩ := Check.bind_ok_iff.mp added
      cases added
      have known : Circuit.solution < assembly.circuit.size := loads.sound.tree.size_pos
      have gains : assembly.circuit.Gains Rules.netlist 1 made :=
        gains_of_run (Build.gains_top loads.sound.tree _ .project rfl rfl (by simp) nofun) done
      cases done
      refine loads.gain gains (fun id member => Or.inr ?_) (by simp)
      obtain rfl := Option.some.inj member
      rw [Circuit.kind?_push, if_pos rfl]
  | context =>
      simp only [add] at added
      split at added
      next => contradiction
      next project current =>
        obtain ⟨⟨id, made⟩, done, added⟩ := Check.bind_ok_iff.mp added
        cases added
        have gains : assembly.circuit.Gains Rules.netlist 1 made :=
          gains_of_run (Build.gains_addContext project _) done
        obtain ⟨container, held, isProject⟩ :=
          Circuit.kind?_eq_some.mp (loads.project project current)
        rw [Build.run_ok (Build.addContext_ok held isProject _)] at done
        cases done
        refine loads.gain gains (fun id member => Or.inl (current.trans member))
          fun id member => Or.inr ?_
        obtain rfl := Option.some.inj member
        exact Circuit.kind?_eq_some.mpr ⟨_, Circuit.get?_plant_new _ project [] _ .context, rfl⟩
  | pin => exact loads.place (fun context inContext => Build.gains_addPin inContext _) added
  | signal pins =>
      exact loads.place (fun context inContext =>
        Build.gains_signalFromPins inContext _ none _ _) added
  | gate kind pins =>
      exact loads.place (fun context inContext =>
        Build.gains_logicFromPins inContext (.gate kind) (by simp) _ _) added
  | timer kind pins delay =>
      exact loads.place (fun context inContext =>
        Build.gains_logicFromPins inContext (.timer kind delay) (by simp) _ _) added
  | connect start stop invertStart invertStop =>
      exact loads.place (fun context inContext =>
        Build.gains_addWire inContext _ _ _ _) added
  | tag name initial =>
      obtain ⟨⟨id, made⟩, done, added⟩ := Check.bind_ok_iff.mp added
      cases added
      refine loads.gain (gains_of_run (Build.gains_top loads.sound.tree name (.tag initial []) rfl rfl
        (by simp) fun _ => named name initial rfl) done) (fun _ member => Or.inl member)
          fun _ member => Or.inl member
  | bindTag signal tag =>
      obtain ⟨⟨_, made⟩, done, added⟩ := Check.bind_ok_iff.mp added
      cases added
      exact loads.gain (gains_of_run (Build.gains_bindTag signal tag) done)
        (fun _ member => Or.inl member) fun _ member => Or.inl member

end Assembly

namespace Read

variable {reader later : Reader}

theorem step_loads {assembly? : Option Assembly} {assembly : Assembly} {records : Nat}
    (loads : ∀ before ∈ assembly?, before.Loads records)
    (done : Read.step assembly? reader = .ok (assembly, later)) :
    assembly.Loads (records + 1) := by
  obtain ⟨_, _, _, done⟩ := bind_ok_iff.mp done
  obtain ⟨code, _, _, done⟩ := bind_ok_iff.mp done
  obtain ⟨number, _, _, done⟩ := bind_ok_iff.mp done
  cases known : Command.ofCode? code with
  | none =>
      rw [known] at done
      contradiction
  | some command =>
      rw [known] at done
      cases assembly? with
      | none =>
          cases command with
          | solution =>
              cases done
              refine ⟨Circuit.sound_empty solutionName, ?_, nofun, nofun⟩
              exact Nat.le_add_left 1 records
          | _ => contradiction
      | some before =>
          simp only at done
          obtain ⟨record, _, taken, done⟩ := bind_ok_iff.mp done
          obtain ⟨⟨grown, element⟩, _, added, done⟩ := bind_ok_iff.mp done
          have same : grown = assembly := by
            cases element with
            | none =>
                cases done
                rfl
            | some element =>
                cases done
                rfl
          have succeeded : before.add number record = .ok (grown, element) := by
            cases result : before.add number record with
            | error error =>
                rw [result] at added
                contradiction
            | ok answer =>
                rw [result] at added
                cases added
                rfl
          rw [← same]
          refine (loads before rfl).add (fun name initial isTag => ?_) succeeded
          subst isTag
          exact record_tag_short taken

theorem records_load {count : Nat} {assembly? final : Option Assembly} {records : Nat}
    (loads : ∀ before ∈ assembly?, before.Loads records)
    (done : Read.records count assembly? reader = .ok (final, later)) :
    ∀ assembly ∈ final, assembly.Loads (records + count) := by
  induction count generalizing assembly? reader records with
  | zero =>
      cases done
      exact loads
  | succ count ih =>
      obtain ⟨assembly, _, first, done⟩ := bind_ok_iff.mp done
      intro last isLast
      have rest := ih (fun before same => Option.some.inj same ▸ step_loads loads first) done
      rw [Nat.add_comm count 1, ← Nat.add_assoc]
      exact rest last isLast

end Read

theorem decode_loads {bytes : List UInt8} {circuit : Circuit} (decoded : decode bytes = .ok circuit) :
    circuit.Sound Rules.netlist ∧ circuit.validate = .ok () ∧
      circuit.weight < 2 ^ 32 := by
  unfold decode at decoded
  split at decoded
  next => contradiction
  next enough =>
    obtain ⟨⟨assembly?, reader⟩, read, decoded⟩ := Check.bind_ok_iff.mp decoded
    dsimp only at decoded
    split at decoded
    next => contradiction
    next =>
      cases assembly? with
      | none => contradiction
      | some assembly =>
          obtain ⟨⟨⟩, valid, decoded⟩ := Check.bind_ok_iff.mp decoded
          cases decoded
          have loads : assembly.Loads (0 + _) := Read.records_load (by simp) read assembly rfl
          have few := ofBytes_lt (bytes.drop (bytes.length - 4))
          have four : (bytes.drop (bytes.length - 4)).length = 4 := by
            rw [List.length_drop]
            omega
          rw [four] at few
          refine ⟨loads.sound, valid, ?_⟩
          have weight := loads.weight
          omega

end Netlist

namespace Circuit

open Netlist (decode decode_loads recordsBytes toBytes)

variable {circuit copy : Circuit} {bytes : List UInt8}

theorem Sound.noMemory_netlist (sound : circuit.Sound Rules.netlist) : ∀ id element kind,
    circuit.get? id = some element → element.kind ≠ .memory kind := by
  intro id element latch held isMemory
  have notRoot := sound.tree.notSolution (kind?_eq_some.mpr ⟨element, held, isMemory⟩) (by simp)
  obtain ⟨_, _, _, _, _, carries⟩ := sound.tree.owned id element held notRoot
  rw [isMemory] at carries
  exact carries.2

/-- A circuit that was loaded can be saved if and only if its wires look back, and what is saved
then is the circuit under other handles. -/
theorem saved_again (loaded : decode bytes = .ok circuit) :
    ((∃ again, circuit.encode = .ok again) ↔ circuit.Backward) ∧
      ∀ again, circuit.encode = .ok again →
        ∃ copy, decode again = .ok copy ∧ circuit.Renames circuit.numberOf copy := by
  obtain ⟨sound, valid, light⟩ := decode_loads loaded
  have tree := sound.nests valid (fun _ same => same) sound.noMemory_netlist
  have few := tree.entries_le.trans_lt light
  refine ⟨⟨fun ⟨again, saved⟩ => tree.backward_of_encode valid saved, fun backward => ?_⟩,
    fun again saved => sound.decode_encode (fun _ same => same) valid few sound.named saved⟩
  exact ⟨_, tree.encode_ok backward valid⟩

def switched : List UInt8 :=
  recordsBytes 0 [.solution, .project, .context, .pin, .pin, .signal [3, 4], .pin,
    .connect 4 6 true false] ++ toBytes 4 8

theorem switched_saved : ∃ circuit, decode switched = .ok circuit ∧
    (∃ again, circuit.encode = .ok again) ∧
      ((∃ again, circuit.encode = .ok again) ↔ circuit.Backward) ∧
        ∀ again, circuit.encode = .ok again →
          ∃ copy, decode again = .ok copy ∧ circuit.Renames circuit.numberOf copy := by
  have saves : (decode switched).toOption.map (·.encode.toOption.isSome) = some true := by
    decide +kernel
  cases loaded : decode switched with
  | error error =>
      rw [loaded] at saves
      contradiction
  | ok circuit =>
      rw [loaded] at saves
      refine ⟨circuit, rfl, ?_, saved_again loaded⟩
      cases saved : circuit.encode with
      | error error =>
          simp [Except.toOption, saved] at saves
      | ok again => exact ⟨again, rfl⟩

def hasty : List UInt8 :=
  recordsBytes 0 [.solution, .project, .context, .pin, .pin, .connect 3 4 false false,
    .signal [3, 4]] ++ toBytes 4 7

theorem hasty_unsaved : ∃ circuit, decode hasty = .ok circuit ∧
    circuit.encode = .error (.netlist (.unwritten 3)) := by
  have fails : (decode hasty).toOption.map (·.encode) = some (.error (.netlist (.unwritten 3))) := by
    decide +kernel
  cases loaded : decode hasty with
  | error error =>
      rw [loaded] at fails
      contradiction
  | ok circuit =>
      rw [loaded] at fails
      exact ⟨circuit, rfl, Option.some.inj fails⟩

theorem Renames.shown {rename : Nat → Nat} (renames : circuit.Renames rename copy)
    (loaded : decode bytes = .ok copy) : circuit.Shown := by
  obtain ⟨sound, _, _⟩ := decode_loads loaded
  intro id _ element held owner owned container ownerHeld
  obtain ⟨twin, twinHeld, isTwin⟩ := renames.each id element held
  obtain ⟨above, aboveHeld, isAbove⟩ := renames.each owner container ownerHeld
  have twinOwned := isTwin.owner
  rw [show element.owner = some owner from owned, Option.map_some] at twinOwned
  have notRoot : rename id ≠ solution := by
    rintro isRoot
    obtain ⟨root, rootHeld, _, noOwner⟩ := sound.tree.root
    rw [isRoot, rootHeld] at twinHeld
    rw [← Option.some.inj twinHeld, noOwner] at twinOwned
    contradiction
  obtain ⟨parent, parentElement, parentOwns, parentHeld, _, carries⟩ :=
    sound.tree.owned _ twin twinHeld notRoot
  rw [twinOwned] at parentOwns
  cases parentOwns
  rw [aboveHeld] at parentHeld
  cases parentHeld
  rw [isTwin.kind, isAbove.kind] at carries
  constructor
  · intro isSolution
    rw [isSolution] at carries
    cases kind : element.kind <;>
      simp [kind, Kind.renamed, Kind.Carries, Kind.isSignal, Kind.isLogic, Rules.netlist,
        Kind.isTag] at carries ⊢
  · intro isProject
    rw [isProject] at carries
    cases kind : element.kind <;>
      simp [kind, Kind.renamed, Kind.Carries, Kind.isSignal, Kind.isLogic, Rules.netlist]
        at carries ⊢

/-- What calls that add elements build, and what can then be written, comes back whole if and only
if all of it stands where netlists tell of it. -/
theorem comesBack_iff_shown (name : String) {calls : List Call}
    (adding : ∀ call ∈ calls, call.isAdding)
    (valid : ((empty name).afterCalls calls).validate = .ok ())
    (few : ((empty name).afterCalls calls).entries.length < 2 ^ 32)
    (short : ((empty name).afterCalls calls).ShortTags)
    (encoded : ((empty name).afterCalls calls).encode = .ok bytes) :
    (∃ copy rename, decode bytes = .ok copy ∧
      ((empty name).afterCalls calls).Renames rename copy) ↔
        ((empty name).afterCalls calls).Shown := by
  constructor
  · rintro ⟨copy, rename, loaded, renames⟩
    exact renames.shown loaded
  · intro shown
    have sound := (Build.sound_afterCalls name adding).shown shown
    obtain ⟨copy, loaded, renames⟩ :=
      sound.decode_encode (fun _ same => same) valid few short encoded
    exact ⟨copy, _, loaded, renames⟩

def bench : List Call :=
  [.addTag "glow" .false, .addProject "shed", .addContext 2 "bench", .addGate 3 .and "hold",
    .addPin 3 "plug", .addPin 3 "socket", .signalFromPins 3 "lamp" none 9 10, .bindTag 11 1,
    .addWire 3 10 4 true false]

theorem bench_comesBack : (∀ call ∈ bench, call.isAdding) ∧
    ∃ circuit bytes, circuit = (empty "yard").afterCalls bench ∧ circuit.validate = .ok () ∧
      circuit.entries.length < 2 ^ 32 ∧ circuit.ShortTags ∧ circuit.encode = .ok bytes ∧
        circuit.Shown ∧
          ((∃ copy rename, decode bytes = .ok copy ∧ circuit.Renames rename copy) ↔
            circuit.Shown) := by
  have adding : ∀ call ∈ bench, call.isAdding := by decide
  have valid : ((empty "yard").afterCalls bench).validate = .ok () := by decide +kernel
  have few : ((empty "yard").afterCalls bench).entries.length < 2 ^ 32 := by decide +kernel
  have shown : ((empty "yard").afterCalls bench).Shown := by decide +kernel
  have short : ((empty "yard").afterCalls bench).ShortTags := by
    have all : ∀ id ∈ ((empty "yard").afterCalls bench).ids,
        ∀ element ∈ ((empty "yard").afterCalls bench).get? id,
          (Text.encodeUtf8 element.name).length < 2 ^ 32 := by decide +kernel
    exact fun id element held _ => all id (List.mem_range.mpr (get?_lt held)) element held
  have written : ((empty "yard").afterCalls bench).encode.toOption.isSome := by decide +kernel
  cases encoded : ((empty "yard").afterCalls bench).encode with
  | error error =>
      rw [encoded] at written
      contradiction
  | ok bytes =>
      exact ⟨adding, _, bytes, rfl, valid, few, short, encoded, shown,
        comesBack_iff_shown "yard" adding valid few short encoded⟩

/-- A pin in the solution is not written, and nothing tells of it. -/
theorem stray_lost : ((empty "yard").afterCalls [.addPin solution "joint"]).validate = .ok () ∧
    ∃ bytes, ((empty "yard").afterCalls [.addPin solution "joint"]).encode = .ok bytes ∧
      ¬∃ copy rename, decode bytes = .ok copy ∧
        ((empty "yard").afterCalls [.addPin solution "joint"]).Renames rename copy := by
  have hidden : ¬((empty "yard").afterCalls [.addPin solution "joint"]).Shown := by
    decide +kernel
  refine ⟨by decide +kernel, _, rfl, ?_⟩
  rintro ⟨copy, rename, loaded, renames⟩
  exact hidden (renames.shown loaded)

end Circuit

end RelayLogic
