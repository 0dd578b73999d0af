import RelayLogic.Diagram.Circuit
import RelayLogic.Proofs.Laying
import RelayLogic.Proofs.Roundtrip

/-!
The circuits of diagrams. They are laid out, so their netlists are read back as the same circuits;
where the contexts of each project follow each other, even the handles are the same.
-/

namespace RelayLogic

namespace Build

variable {circuit final : Circuit}

theorem bind_eq_ok {first : Build α} {next : α → Build β} {answer : β}
    (done : (first >>= next) circuit = .ok answer final) :
    ∃ middle changed, first circuit = .ok middle changed ∧
      next middle changed = .ok answer final := by
  change EStateM.bind first next circuit = _ at done
  unfold EStateM.bind at done
  split at done
  next middle changed succeeded => exact ⟨middle, changed, succeeded, done⟩
  next => contradiction

theorem pure_eq_ok {value answer : α} (done : (pure value : Build α) circuit = .ok answer final) :
    value = answer ∧ circuit = final := by
  cases done
  exact ⟨rfl, rfl⟩

theorem run_eq_ok {build : Build α} {answer : α} (done : build.run circuit = .ok (answer, final)) :
    build circuit = .ok answer final := by
  unfold run at done
  split at done
  next succeeded =>
    cases done
    exact succeeded
  next => contradiction

theorem change_eq_ok {id : ElementId} {edit : Element → Element} {answer : Unit}
    (done : change id edit circuit = .ok answer final) : final = circuit.update id edit := by
  obtain ⟨element, changed, asked, done⟩ := bind_eq_ok done
  unfold ask at asked
  split at asked
  · cases asked
    cases done
    rfl
  · contradiction

theorem setBlock_eq_ok {id : ElementId} {block : BlockRef} {answer : Unit}
    (done : setBlock id block circuit = .ok answer final) :
    ∃ change, circuit.Retouches id change ∧ final = circuit.update id change := by
  refine ⟨fun element => { element with block := some block }, fun _ _ => ?_, change_eq_ok done⟩
  exact ⟨rfl, rfl, rfl, rfl, rfl⟩

theorem setProperties_eq_ok {id : ElementId} {properties : List (String × String)} {answer : Unit}
    (done : setProperties id properties circuit = .ok answer final) :
    ∃ change, circuit.Retouches id change ∧ final = circuit.update id change := by
  refine ⟨_, fun element _ => ?_, change_eq_ok done⟩
  obtain ⟨name, kind, owner, children, evaluator, block⟩ := element
  cases kind <;> exact ⟨rfl, rfl, rfl, rfl, rfl⟩

end Build

namespace Diagram

open Circuit (Sketch)

variable {named : String → Prop} {sorted : Prop} {circuit grown final : Circuit}
  {tags blocks projects names : Names} {context : Nat}

theorem mem_of_lookup {name : String} {id : ElementId} (found : names.lookup name = some id) :
    (name, id) ∈ names := by
  obtain ⟨before, after, rfl, _⟩ := List.lookup_eq_some_iff.mp found
  exact List.mem_append_right _ List.mem_cons_self

structure Tagged (named : String → Prop) (sorted : Prop) (tags : Names) (circuit : Circuit) :
    Prop where
  sketch : Sketch named sorted circuit
  tags : ∀ pair ∈ tags, circuit.IsTag pair.2

theorem addTag_grows (sketch : Sketch named sorted circuit) (only : circuit.OnlyTags) {name : String}
    (isNamed : named name) {initial : Tri} {id : ElementId}
    (done : Build.addTag name initial circuit = .ok id grown) :
    Sketch.Grows named sorted 2 Circuit.solution (.tag initial []) circuit id grown ∧
      id = circuit.size ∧ grown.size = circuit.size + 1 := by
  obtain ⟨root, held, isSolution, _⟩ := sketch.laid.tree.root
  have pushed := Build.push_ok (Circuit.get?_lt held) name (.tag initial [])
  change Build.push Circuit.solution name (.tag initial []) circuit = _ at done
  rw [pushed] at done
  cases done
  have nests : root.kind.Nests (.tag initial []) := isSolution
  have reaches : circuit.Reaches Circuit.solution (.tag initial []) := fun _ same => nomatch same
  refine ⟨?_, rfl, by rw [Circuit.size_plant]; rfl⟩
  exact sketch.plant held (by rw [isSolution]; rfl) nests (by simp) reaches (Or.inr rfl)
    (fun _ => .here) (fun _ => ⟨isNamed, only⟩)

theorem addTags_tagged (decls : List TagDecl) (isNamed : ∀ decl ∈ decls, named decl.name)
    (tagged : Tagged named sorted names circuit) (only : circuit.OnlyTags)
    (done : addTags decls names circuit = .ok tags final) : Tagged named sorted tags final := by
  induction decls generalizing circuit names with
  | nil =>
      obtain ⟨rfl, rfl⟩ := Build.pure_eq_ok done
      exact tagged
  | cons decl decls ih =>
      unfold addTags at done
      by_cases known : (names.lookup decl.name).isSome
      · simp only [known, ↓reduceIte] at done
        contradiction
      · simp only [known, Bool.false_eq_true, ↓reduceIte] at done
        obtain ⟨id, planted, added, done⟩ := Build.bind_eq_ok done
        obtain ⟨_, _, isSet, done⟩ := Build.bind_eq_ok done
        obtain ⟨properties, first, rfl⟩ := Build.setProperties_eq_ok isSet
        obtain ⟨_, _, isSet, done⟩ := Build.bind_eq_ok done
        obtain ⟨block, second, rfl⟩ := Build.setBlock_eq_ok isSet
        obtain ⟨alone, last, size⟩ :=
          addTag_grows tagged.sketch only (isNamed decl List.mem_cons_self) added
        have grows := (alone.update first).update second
        have newIsTag : ((planted.update id properties).update id block).IsTag id := by
          obtain ⟨element, held, _, bare⟩ := grows.held
          exact ⟨element, held, Kind.isTag_of_bare bare rfl⟩
        refine ih (fun other member => isNamed other (List.mem_cons_of_mem _ member))
          ⟨grows.sketch, fun pair member => ?_⟩ (fun other bound notRoot => ?_) done
        · rcases List.mem_append.mp member with old | new
          · exact grows.keeps.isTag (tagged.tags pair old)
          · rw [List.mem_singleton.mp new]
            exact newIsTag
        · rw [Circuit.size_update, Circuit.size_update, size] at bound
          rcases Nat.lt_succ_iff_lt_or_eq.mp bound with old | rfl
          · exact grows.keeps.isTag (only other old notRoot)
          · exact last ▸ newIsTag

structure Filling (named : String → Prop) (sorted : Prop) (tags : Names) (context : Nat)
    (circuit : Circuit) : Prop extends Tagged named sorted tags circuit where
  isContext : ∃ element, circuit.get? context = some element ∧ element.kind = .context
  edge : sorted → circuit.Edge 3 Circuit.solution 1 context

namespace Filling

theorem grows (filling : Filling named sorted tags context circuit) {kind : Kind} {new : Nat}
    (grows : Sketch.Grows named sorted 0 context kind circuit new grown) :
    Filling named sorted tags context grown := by
  obtain ⟨element, held, isContext⟩ := filling.isContext
  exact ⟨⟨grows.sketch, fun pair member => grows.keeps.isTag (filling.tags pair member)⟩,
    grows.keeps.kind rfl held isContext, grows.edge⟩

theorem plant (filling : Filling named sorted tags context circuit) (pins : List (String × Pin))
    {kind : Kind} (nests : Kind.context.Nests kind)
    (pinsNest : ∀ pin ∈ pins, kind.Nests (.pin pin.2)) (reaches : circuit.Reaches context kind)
    (name : String) :
    Sketch.Grows named sorted 0 context kind circuit (circuit.size + pins.length)
      (circuit.plant context pins name kind) := by
  obtain ⟨element, held, isContext⟩ := filling.isContext
  refine filling.sketch.plant held (by rw [isContext]; rfl) (by rwa [isContext]) pinsNest reaches
    (Or.inl rfl) filling.edge fun isTag => ?_
  cases kind <;> simp [Kind.isTag, Kind.Nests] at isTag nests

variable {id : ElementId} {name : String}

theorem addLogic_grows (filling : Filling named sorted tags context circuit) {kind : Kind}
    (nests : Kind.context.Nests kind) (logic : kind.isLogic)
    (done : Build.addLogic context kind name circuit = .ok id grown) :
    Sketch.Grows named sorted 0 context kind circuit id grown := by
  obtain ⟨element, held, isContext⟩ := filling.isContext
  rw [Build.addLogic_ok held (by rw [isContext]; rfl) (filling.sketch.laid.tree.fits held) logic]
    at done
  cases done
  have pinsNest : ∀ pin ∈ GatePoint.all.map fun point =>
      (name ++ "." ++ point.name, Pin.floating), kind.Nests (.pin pin.2) := by
    intro pin member
    obtain ⟨point, _, rfl⟩ := List.mem_map.mp member
    exact Or.inr ⟨Or.inr logic, rfl⟩
  have reaches : circuit.Reaches context kind := by
    rintro wire rfl
    contradiction
  have grows := filling.plant _ nests pinsNest reaches name
  rwa [List.length_map] at grows

theorem addSignal_grows (filling : Filling named sorted tags context circuit)
    {tag : Option ElementId} (tagged : ∀ id ∈ tag, circuit.IsTag id)
    (done : Build.addSignal context name tag circuit = .ok id grown) :
    Sketch.Grows named sorted 0 context (.signal tag) circuit id grown := by
  obtain ⟨element, held, isContext⟩ := filling.isContext
  rw [Build.addSignal_ok held (by rw [isContext]; rfl) (filling.sketch.laid.tree.fits held) tagged]
    at done
  cases done
  have nests : Kind.context.Nests (.signal tag) := rfl
  have reaches : circuit.Reaches context (.signal tag) := fun _ same => nomatch same
  refine filling.plant [(name ++ ".in", .fixed .input), (name ++ ".out", .fixed .output)] nests
    (fun pin member => ?_) reaches name
  rcases List.mem_pair.mp member with rfl | rfl
  · exact Or.inl ⟨rfl, Or.inl rfl⟩
  · exact Or.inl ⟨rfl, Or.inr rfl⟩

theorem addPin_grows (filling : Filling named sorted tags context circuit)
    (done : Build.addPin context name circuit = .ok id grown) :
    Sketch.Grows named sorted 0 context (.pin .floating) circuit id grown := by
  obtain ⟨element, held, isContext⟩ := filling.isContext
  rw [Build.addPin_ok held (by rw [isContext]; rfl),
    Circuit.push_eq_plant (Circuit.get?_lt held)] at done
  cases done
  have nests : Kind.context.Nests (.pin .floating) := Or.inr ⟨Or.inl rfl, rfl⟩
  have reaches : circuit.Reaches context (.pin .floating) := fun _ same => nomatch same
  exact filling.plant [] nests (by simp) reaches name

theorem resolveTag_isTag (filling : Filling named sorted tags context circuit) {block : BlockDecl}
    {tag : Option ElementId} (done : block.resolveTag tags circuit = .ok tag final) :
    circuit = final ∧ ∀ id ∈ tag, circuit.IsTag id := by
  unfold BlockDecl.resolveTag at done
  cases mapped : block.tag with
  | none =>
      simp only [mapped] at done
      obtain ⟨rfl, rfl⟩ := Build.pure_eq_ok done
      exact ⟨rfl, fun _ none => nomatch none⟩
  | some name =>
      simp only [mapped] at done
      cases found : tags.lookup name with
      | none =>
          simp only [found] at done
          contradiction
      | some onto =>
          simp only [found] at done
          obtain ⟨rfl, rfl⟩ := Build.pure_eq_ok done
          refine ⟨rfl, fun id isId => ?_⟩
          cases isId
          exact filling.tags _ (mem_of_lookup found)

theorem addBlock_grows (filling : Filling named sorted tags context circuit) {block : BlockDecl}
    (done : addBlock context tags block circuit = .ok id grown) :
    ∃ kind, Sketch.Grows named sorted 0 context kind circuit id grown := by
  unfold addBlock at done
  cases isKind : BlockKind.ofName? block.kind with
  | none =>
      simp only [isKind] at done
      contradiction
  | some kind =>
      cases kind with
      | signal =>
          simp only [isKind] at done
          obtain ⟨tag, _, resolved, done⟩ := Build.bind_eq_ok done
          obtain ⟨rfl, tagged⟩ := filling.resolveTag_isTag resolved
          exact ⟨_, filling.addSignal_grows tagged done⟩
      | gate gate =>
          simp only [isKind] at done
          exact ⟨.gate gate, filling.addLogic_grows rfl rfl done⟩
      | timer timer =>
          simp only [isKind] at done
          cases given : block.delay? with
          | none =>
              simp only [given] at done
              contradiction
          | some delay =>
              simp only [given] at done
              exact ⟨.timer timer (.ofFloat delay), filling.addLogic_grows rfl rfl done⟩
      | pin =>
          simp only [isKind] at done
          exact ⟨_, filling.addPin_grows done⟩

end Filling

theorem addBlocks_filling (decls : List BlockDecl)
    (filling : Filling named sorted tags context circuit)
    (owned : ∀ pair ∈ names, circuit.owner pair.2 = some context)
    (done : addBlocks context tags decls names circuit = .ok blocks final) :
    Filling named sorted tags context final ∧ circuit.Extends final ∧
      ∀ pair ∈ blocks, final.owner pair.2 = some context := by
  induction decls generalizing circuit names with
  | nil =>
      obtain ⟨rfl, rfl⟩ := Build.pure_eq_ok done
      exact ⟨filling, .refl circuit, owned⟩
  | cons block decls ih =>
      unfold addBlocks at done
      by_cases known : (names.lookup block.name).isSome
      · simp only [known, ↓reduceIte] at done
        contradiction
      · simp only [known, Bool.false_eq_true, ↓reduceIte] at done
        obtain ⟨id, planted, added, done⟩ := Build.bind_eq_ok done
        obtain ⟨_, _, isSet, done⟩ := Build.bind_eq_ok done
        obtain ⟨change, retouches, rfl⟩ := Build.setBlock_eq_ok isSet
        obtain ⟨kind, alone⟩ := filling.addBlock_grows added
        have grows := alone.update retouches
        have stillOwned : ∀ pair ∈ names ++ [(block.name, id)],
            (planted.update id change).owner pair.2 = some context := by
          intro pair member
          rcases List.mem_append.mp member with old | new
          · exact grows.keeps.owned (owned pair old)
          · obtain ⟨element, held, owner, _⟩ := grows.held
            rw [List.mem_singleton.mp new, Circuit.owner, held]
            exact owner
        obtain ⟨filled, keeps, all⟩ := ih (filling.grows grows) stillOwned done
        exact ⟨filled, grows.keeps.trans keeps, all⟩

theorem pinAt_within {id pin : ElementId} {point : Option String}
    (tree : circuit.Tree Kind.Nests) (owned : circuit.owner id = some context)
    (found : pinAt? circuit id point = some pin) :
    circuit.isPin pin ∧ circuit.Within context pin := by
  obtain ⟨element, held, found⟩ := Option.bind_eq_some_iff.mp found
  cases point with
  | none =>
      simp only [Option.ite_none_right_eq_some, Option.some.injEq] at found
      obtain ⟨isPin, rfl⟩ := found
      exact ⟨by simpa only [Circuit.isPin, held] using isPin, id, owned, Or.inl rfl⟩
  | some name =>
      obtain ⟨index, _, listed⟩ := Option.bind_eq_some_iff.mp found
      obtain ⟨member, isPin⟩ := List.mem_filter.mp (List.mem_of_getElem? listed)
      exact ⟨isPin, id, owned, Or.inr (tree.mem_children.mp member)⟩

theorem resolvePoint_within {ref : PointRef} {line : Nat} {pin : ElementId}
    (tree : circuit.Tree Kind.Nests)
    (owned : ∀ pair ∈ blocks, circuit.owner pair.2 = some context)
    (done : resolvePoint blocks ref line circuit = .ok pin final) :
    circuit = final ∧ circuit.isPin pin ∧ circuit.Within context pin := by
  simp only [resolvePoint, Build.ask] at done
  cases found : (blocks.lookup ref.block).bind (pinAt? circuit · ref.point) with
  | none =>
      simp only [found] at done
      contradiction
  | some reached =>
      simp only [found] at done
      cases done
      obtain ⟨id, known, isAt⟩ := Option.bind_eq_some_iff.mp found
      exact ⟨rfl, pinAt_within tree (owned _ (mem_of_lookup known)) isAt⟩

namespace Filling

theorem addWire_grows (filling : Filling named sorted tags context circuit)
    {start stop id : ElementId} {invertStart invertStop : Bool}
    (arePins : ∀ pin ∈ [start, stop], circuit.isPin pin)
    (within : ∀ pin ∈ [start, stop], circuit.Within context pin)
    (done : Build.addWire context start stop invertStart invertStop circuit = .ok id grown) :
    ∃ kind, Sketch.Grows named sorted 0 context kind circuit id grown := by
  obtain ⟨element, held, isContext⟩ := filling.isContext
  have contains : element.kind.isContainer := by rw [isContext]; rfl
  by_cases same : start = stop
  · rw [Build.addWire_loop held contains arePins same] at done
    contradiction
  · rw [Build.addWire_ok held contains arePins same] at done
    cases done
    have nests : Kind.context.Nests (.wire ⟨start, stop, invertStart, invertStop⟩) := rfl
    have reaches : circuit.Reaches context (.wire ⟨start, stop, invertStart, invertStop⟩) := by
      intro wire isWire
      cases isWire
      exact ⟨within start (by simp), within stop (by simp)⟩
    exact ⟨_, filling.plant [] nests (by simp) reaches _⟩

theorem addWire (filling : Filling named sorted tags context circuit) {wire : WireDecl}
    (owned : ∀ pair ∈ blocks, circuit.owner pair.2 = some context) {answer : Unit}
    (done : Diagram.addWire context blocks wire circuit = .ok answer final) :
    Filling named sorted tags context final ∧ circuit.Extends final := by
  have tree := filling.sketch.laid.tree
  unfold Diagram.addWire at done
  obtain ⟨start, _, resolved, done⟩ := Build.bind_eq_ok done
  obtain ⟨rfl, startPin, startWithin⟩ := resolvePoint_within tree owned resolved
  obtain ⟨stop, _, resolved, done⟩ := Build.bind_eq_ok done
  obtain ⟨rfl, stopPin, stopWithin⟩ := resolvePoint_within tree owned resolved
  obtain ⟨id, planted, added, isSet⟩ := Build.bind_eq_ok done
  obtain ⟨change, retouches, rfl⟩ := Build.setBlock_eq_ok isSet
  obtain ⟨kind, alone⟩ := filling.addWire_grows (by simp [startPin, stopPin])
    (by simp [startWithin, stopWithin]) added
  have grows := alone.update retouches
  exact ⟨filling.grows grows, grows.keeps⟩

theorem addWires (filling : Filling named sorted tags context circuit) (wires : List WireDecl)
    (owned : ∀ pair ∈ blocks, circuit.owner pair.2 = some context) {answer : Unit}
    (done : wires.forM (Diagram.addWire context blocks) circuit = .ok answer final) :
    Filling named sorted tags context final ∧ circuit.Extends final := by
  induction wires generalizing circuit with
  | nil =>
      obtain ⟨-, rfl⟩ := Build.pure_eq_ok done
      exact ⟨filling, .refl circuit⟩
  | cons wire wires ih =>
      obtain ⟨_, _, added, done⟩ := Build.bind_eq_ok done
      obtain ⟨filled, first⟩ := filling.addWire owned added
      obtain ⟨filling, rest⟩ :=
        ih filled (fun pair member => first.owned (owned pair member)) done
      exact ⟨filling, first.trans rest⟩

end Filling

def Together (names : List String) : Prop :=
  ∀ first middle last, [first, middle, last].Sublist names → first = last → middle = first

theorem Together.last {before : List String} {current name : String}
    (together : Together (before ++ [current] ++ [name])) (member : name ∈ before ++ [current]) :
    current = name := by
  rcases List.mem_append.mp member with early | late
  · refine together name current name ?_ rfl
    exact (List.singleton_sublist.mpr early |>.append (.refl [current])).append (.refl [name])
  · exact (List.mem_singleton.mp late).symm

/-- A sketch in which contexts of some projects were laid out one after the other. -/
structure Opened (named : String → Prop) (sorted : Prop) (tags projects : Names)
    (seen : List String) (circuit : Circuit) : Prop extends Tagged named sorted tags circuit where
  isProject : ∀ pair ∈ projects, pair.1 ∈ seen ∧
    ∃ element, circuit.get? pair.2 = some element ∧ element.kind = .project
  last : ∀ name, seen.getLast? = some name → ∃ id, projects.lookup name = some id ∧
    (sorted → circuit.Edge 3 Circuit.solution 2 id)

namespace Opened

variable {seen : List String} {name : String}

theorem addProject_grows (sketch : Sketch named sorted circuit) {id : ElementId}
    (done : Build.addProject name circuit = .ok id grown) :
    Sketch.Grows named sorted 2 Circuit.solution .project circuit id grown := by
  obtain ⟨root, held, isSolution, _⟩ := sketch.laid.tree.root
  change Build.push Circuit.solution name .project circuit = _ at done
  rw [Build.push_ok (Circuit.get?_lt held)] at done
  cases done
  have nests : root.kind.Nests .project := isSolution
  have reaches : circuit.Reaches Circuit.solution .project := fun _ same => nomatch same
  exact sketch.plant held (by rw [isSolution]; rfl) nests (by simp) reaches (Or.inr rfl)
    (fun _ => .here) (fun isTag => nomatch isTag)

theorem ensureProject (opened : Opened named sorted tags projects seen circuit)
    (together : sorted → Together (seen ++ [name])) {answer : ElementId × Names}
    (done : Diagram.ensureProject name projects circuit = .ok answer final) :
    Opened named sorted tags answer.2 (seen ++ [name]) final ∧
      answer.2.lookup name = some answer.1 := by
  have onward : ∀ {other}, other ∈ seen → other ∈ seen ++ [name] := List.mem_append_left _
  unfold Diagram.ensureProject at done
  cases known : projects.lookup name with
  | some id =>
      simp only [known] at done
      obtain ⟨rfl, rfl⟩ := Build.pure_eq_ok done
      refine ⟨⟨opened.toTagged, fun pair member => ?_, fun other isLast => ?_⟩, known⟩
      · exact ⟨onward (opened.isProject pair member).1, (opened.isProject pair member).2⟩
      · rw [List.getLast?_concat] at isLast
        cases isLast
        refine ⟨id, known, fun inOrder => ?_⟩
        have member := (opened.isProject _ (mem_of_lookup known)).1
        obtain ⟨before, current, rfl⟩ := List.eq_nil_or_concat seen |>.resolve_left
          (List.ne_nil_of_mem member)
        obtain ⟨other, found, edge⟩ := opened.last current (by simp)
        -- A known project other than the latest one would stand on both sides of that one.
        rw [List.concat_eq_append] at together member
        rw [(together inOrder).last member, known] at found
        cases found
        exact edge inOrder
  | none =>
      simp only [known] at done
      obtain ⟨id, planted, added, done⟩ := Build.bind_eq_ok done
      obtain ⟨rfl, rfl⟩ := Build.pure_eq_ok done
      have grows := addProject_grows opened.sketch added
      have found : (projects ++ [(name, id)]).lookup name = some id := by
        simp [List.lookup_append, known]
      refine ⟨⟨⟨grows.sketch, fun pair member => grows.keeps.isTag (opened.tags pair member)⟩,
        fun pair member => ?_, fun other isLast => ?_⟩, found⟩
      · rcases List.mem_append.mp member with old | new
        · obtain ⟨isSeen, element, held, isProject⟩ := opened.isProject pair old
          exact ⟨onward isSeen, grows.keeps.kind rfl held isProject⟩
        · obtain ⟨element, held, _, bare⟩ := grows.held
          rw [List.mem_singleton.mp new]
          exact ⟨by simp, element, held, (Kind.bare_eq_iff rfl).mp bare⟩
      · rw [List.getLast?_concat] at isLast
        cases isLast
        exact ⟨id, found, grows.newEdge⟩

theorem addContext_filling (opened : Opened named sorted tags projects (seen ++ [name]) circuit)
    {project id : ElementId} (known : projects.lookup name = some project) {label : String}
    (done : Build.addContext project label circuit = .ok id grown) :
    Filling named sorted tags id grown ∧ circuit.Extends grown ∧ grown.owner id = some project := by
  obtain ⟨_, element, held, isProject⟩ := opened.isProject _ (mem_of_lookup known)
  rw [Build.addContext_ok held isProject] at done
  cases done
  obtain ⟨other, found, edge⟩ := opened.last name (by simp)
  rw [known] at found
  cases found
  have nests : element.kind.Nests .context := isProject
  have reaches : circuit.Reaches project .context := fun _ same => nomatch same
  have grows : Sketch.Grows named sorted 1 project .context circuit circuit.size
      (circuit.plant project [] label .context) :=
    opened.sketch.plant held (by rw [isProject]; rfl) nests (by simp) reaches (Or.inr rfl) edge
      (fun isTag => nomatch isTag)
  obtain ⟨twin, twinHeld, owner, bare⟩ := grows.held
  refine ⟨⟨⟨grows.sketch, fun pair member => grows.keeps.isTag (opened.tags pair member)⟩,
    ⟨twin, twinHeld, (Kind.bare_eq_iff rfl).mp bare⟩, grows.newEdge⟩, grows.keeps, ?_⟩
  rw [Circuit.owner, twinHeld]
  exact owner

theorem close (opened : Opened named sorted tags projects (seen ++ [name]) circuit)
    {project : ElementId} (known : projects.lookup name = some project)
    (filling : Filling named sorted tags context final) (keeps : circuit.Extends final)
    (owned : final.owner context = some project) :
    Opened named sorted tags projects (seen ++ [name]) final := by
  refine ⟨filling.toTagged, fun pair member => ?_, fun other isLast => ?_⟩
  · obtain ⟨isSeen, element, held, isProject⟩ := opened.isProject pair member
    exact ⟨isSeen, keeps.kind rfl held isProject⟩
  · rw [List.getLast?_concat] at isLast
    cases isLast
    refine ⟨project, known, fun inOrder => ?_⟩
    exact (filling.edge inOrder).up filling.sketch.laid.tree (by decide) owned

end Opened

theorem addContexts_sketch (decls : List ContextDecl) {seen : List String}
    (opened : Opened named sorted tags projects seen circuit)
    (together : sorted → Together (seen ++ decls.map (·.project))) {answer : Unit}
    (done : addContexts tags decls projects circuit = .ok answer final) :
    Sketch named sorted final := by
  induction decls generalizing circuit projects seen with
  | nil =>
      obtain ⟨-, rfl⟩ := Build.pure_eq_ok done
      exact opened.sketch
  | cons decl decls ih =>
      rw [List.map_cons, List.append_cons] at together
      have first : sorted → Together (seen ++ [decl.project]) := fun inOrder one two three among =>
        together inOrder one two three (among.trans (List.sublist_append_left _ _))
      unfold addContexts at done
      obtain ⟨⟨project, known⟩, _, ensured, done⟩ := Build.bind_eq_ok done
      obtain ⟨opened, found⟩ := opened.ensureProject first ensured
      obtain ⟨context, _, added, done⟩ := Build.bind_eq_ok done
      obtain ⟨filling, keeps, owned⟩ := opened.addContext_filling found added
      obtain ⟨blocks, _, filled, done⟩ := Build.bind_eq_ok done
      obtain ⟨filling, blocksKeep, blocksOwned⟩ :=
        addBlocks_filling decl.blocks filling (by simp) filled
      obtain ⟨_, _, wired, done⟩ := Build.bind_eq_ok done
      obtain ⟨filling, wiresKeep⟩ := filling.addWires decl.wires blocksOwned wired
      have closed := opened.close found filling (keeps.trans (blocksKeep.trans wiresKeep))
        ((blocksKeep.trans wiresKeep).owned owned)
      exact ih closed together done

/-- Whether the contexts of each project follow each other. -/
def Contiguous (diagram : Diagram) : Prop :=
  Together (diagram.contexts.map (·.project))

theorem build_sketch {diagram : Diagram} {name : String} {answer : Unit}
    (done : diagram.build (.empty name) = .ok answer circuit) :
    Sketch (fun name => ∃ tag ∈ diagram.tags, tag.name = name) diagram.Contiguous circuit := by
  obtain ⟨tags, _, tagged, opened⟩ := Build.bind_eq_ok done
  have start : Tagged (fun name => ∃ tag ∈ diagram.tags, tag.name = name) diagram.Contiguous []
      (.empty name) := ⟨.empty _, by simp⟩
  have only : (Circuit.empty name).OnlyTags :=
    fun id bound notRoot => absurd (Nat.lt_one_iff.mp bound) notRoot
  have tagged :=
    addTags_tagged diagram.tags (fun tag member => ⟨tag, member, rfl⟩) start only tagged
  have closed : Opened _ diagram.Contiguous tags [] [] _ := ⟨tagged, by simp, by simp⟩
  exact addContexts_sketch diagram.contexts closed (fun contiguous => contiguous) opened

theorem toCircuit_ok_iff {diagram : Diagram} : diagram.toCircuit = .ok circuit ↔
    (∃ answer, diagram.build (.empty (diagram.solution.getD defaultSolution)) =
      .ok answer circuit) ∧ circuit.validate = .ok () := by
  unfold toCircuit
  rw [Check.bind_ok_iff]
  constructor
  · rintro ⟨⟨answer, built⟩, ran, done⟩
    obtain ⟨_, valid, done⟩ := Check.bind_ok_iff.mp done
    cases done
    exact ⟨⟨answer, Build.run_eq_ok ran⟩, valid⟩
  · rintro ⟨⟨answer, built⟩, valid⟩
    exact ⟨(answer, circuit), Build.run_ok built, Check.bind_ok_iff.mpr ⟨(), valid, rfl⟩⟩

theorem toCircuit_sketch {diagram : Diagram} (done : diagram.toCircuit = .ok circuit) :
    Sketch (fun name => ∃ tag ∈ diagram.tags, tag.name = name) diagram.Contiguous circuit ∧
      circuit.validate = .ok () := by
  obtain ⟨⟨answer, built⟩, valid⟩ := toCircuit_ok_iff.mp done
  exact ⟨build_sketch built, valid⟩

theorem numberOf_sketch (sketch : Sketch named sorted circuit) (inOrder : sorted) {id : Nat}
    (bound : id < circuit.size) : circuit.numberOf id = id := by
  have range := sketch.inRange inOrder
  have early : id < circuit.order.length := by rwa [range, List.length_range]
  have same : circuit.order[id] = id := by simp [range]
  have number := sketch.laid.tree.numberOf_getElem early
  rwa [same] at number

/-- The netlist of a translated diagram is written and read back as the same circuit under other
handles, and under the same ones if the contexts of each project follow each other. -/
theorem netlist_roundTrip {diagram : Diagram} (done : diagram.toCircuit = .ok circuit)
    (few : circuit.entries.length < 2 ^ 32)
    (short : ∀ tag ∈ diagram.tags, (Text.encodeUtf8 tag.name).length < 2 ^ 32) :
    ∃ bytes copy rename, circuit.encode = .ok bytes ∧ Netlist.decode bytes = .ok copy ∧
      circuit.Renames rename copy ∧
        (diagram.Contiguous → ∀ id < circuit.size, rename id = id) := by
  obtain ⟨sketch, valid⟩ := toCircuit_sketch done
  have shortTags : circuit.ShortTags := by
    intro id element held isTag
    obtain ⟨tag, member, same⟩ := sketch.named id element held isTag
    exact same ▸ short tag member
  obtain ⟨bytes, copy, encoded, decoded, renames⟩ := sketch.laid.decode_encode valid few shortTags
  exact ⟨bytes, copy, circuit.numberOf, encoded, decoded, renames,
    fun contiguous _ bound => numberOf_sketch sketch contiguous bound⟩

def chime : Diagram :=
  ⟨none, [⟨"ring", .unknown, [], 1⟩],
    [⟨"House", "Hall", [⟨"signal", "bell", none, some "ring", [], 2⟩,
      ⟨"and", "quiet", none, none, [], 3⟩],
      [⟨⟨"bell", some "out", false⟩, ⟨"quiet", some "left", true⟩, 4⟩], 2⟩,
      ⟨"House", "Attic", [⟨"pin", "loose", none, none, [], 6⟩], [], 5⟩,
      ⟨"Shed", "Door", [], [], 7⟩]⟩

theorem chime_roundTrip : ∃ circuit bytes copy rename, chime.toCircuit = .ok circuit ∧
    circuit.encode = .ok bytes ∧ Netlist.decode bytes = .ok copy ∧ circuit.size = 17 ∧
      circuit.Renames rename copy ∧ ∀ id < circuit.size, rename id = id := by
  have counts : chime.toCircuit.toOption.map (fun circuit => (circuit.size, circuit.entries.length)) =
      some (17, 18) := by decide +kernel
  have short : ∀ tag ∈ chime.tags, (Text.encodeUtf8 tag.name).length < 2 ^ 32 := by decide +kernel
  have contiguous : chime.Contiguous := by
    intro first middle last among same
    cases among.eq_of_length rfl
    contradiction
  cases done : chime.toCircuit with
  | error error =>
      rw [done] at counts
      contradiction
  | ok circuit =>
      rw [done] at counts
      obtain ⟨size, few⟩ := Prod.ext_iff.mp (Option.some.inj counts)
      have small : circuit.entries.length < 2 ^ 32 := by
        rw [show circuit.entries.length = 18 from few]
        decide
      obtain ⟨bytes, copy, rename, encoded, decoded, renames, fixed⟩ :=
        netlist_roundTrip done small short
      exact ⟨circuit, bytes, copy, rename, rfl, encoded, decoded, size, renames, fixed contiguous⟩

end Diagram

end RelayLogic
