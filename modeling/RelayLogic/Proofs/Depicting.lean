import RelayLogic.Proofs.Drafting
import RelayLogic.Proofs.Translation
import Mathlib.Data.List.Forall2

/-!
What diagrams depict. A diagram without faults says of every block which element it is and with
which pins, of every wire which two of these pins it joins, and of every context what stands in it.
The elements of blocks are added one after the other, and the earlier ones stay as they are.
-/

namespace RelayLogic.Diagram

def BlockDecl.Drawable (block : BlockDecl) (tags : List String) : Prop :=
  match BlockKind.ofName? block.kind with
  | none => False
  | some .signal => ∀ name ∈ block.tag, name ∈ tags
  | some (.timer _) => block.delay?.isSome
  | some (.gate _) | some .pin => True

def BlockDecl.Lasts (block : BlockDecl) : Prop :=
  ∀ timer delay, BlockKind.ofName? block.kind = some (.timer timer) → block.delay? = some delay →
    (Seconds.ofFloat delay).isFinite ∧ (Seconds.ofFloat delay).isNegative = false

/-- Where on a block a point is: at the block itself if that is a relay pin, otherwise at the pin
of an index. -/
def BlockDecl.position? (block : BlockDecl) (point : Option String) : Option (Option Nat) :=
  match BlockKind.ofName? block.kind, point with
  | some .pin, none => some none
  | some .signal, some name => (SignalPoint.ofName? name).map fun point => some point.index
  | some (.gate _), some name | some (.timer _), some name =>
    (GatePoint.ofName? name).map fun point => some point.index
  | _, _ => none

def PointRef.place? (ref : PointRef) (blocks : List BlockDecl) : Option (String × Option Nat) := do
  let block ← blocks.find? (·.name == ref.block)
  let position ← block.position? ref.point
  return (ref.block, position)

def WireDecl.Drawable (wire : WireDecl) (blocks : List BlockDecl) : Prop :=
  ∃ start stop, wire.start.place? blocks = some start ∧ wire.stop.place? blocks = some stop ∧
    start ≠ stop

structure ContextDecl.Drawable (decl : ContextDecl) (tags : List String) : Prop where
  distinct : (decl.blocks.map (·.name)).Nodup
  blocks : ∀ block ∈ decl.blocks, block.Drawable tags
  wires : ∀ wire ∈ decl.wires, wire.Drawable decl.blocks

/-- Whether a diagram has no faults. -/
structure WellDrawn (diagram : Diagram) : Prop where
  distinct : (diagram.tags.map (·.name)).Nodup
  contexts : ∀ context ∈ diagram.contexts, context.Drawable (diagram.tags.map (·.name))
  delays : ∀ context ∈ diagram.contexts, ∀ block ∈ context.blocks, block.Lasts

def TagDecl.DepictedBy (tag : TagDecl) (circuit : Circuit) (named : String × ElementId) : Prop :=
  named.1 = tag.name ∧ circuit.get? named.2 = some ⟨tag.name, .tag tag.initial tag.properties,
    some Circuit.solution, [], none, some ⟨tag.name, tag.line⟩⟩

def BlockDecl.points (block : BlockDecl) : List (String × Pin) :=
  GatePoint.all.map fun point => (block.name ++ "." ++ point.name, .floating)

inductive BlockDecl.Shape (block : BlockDecl) (tags : Names) : Kind → List (String × Pin) → Prop
  | signal {tag} (isKind : BlockKind.ofName? block.kind = some .signal)
      (mapped : Option.Rel (fun name id => tags.lookup name = some id) block.tag tag) :
      Shape block tags (.signal tag)
        [(block.name ++ ".in", .fixed .input), (block.name ++ ".out", .fixed .output)]
  | gate {kind} (isKind : BlockKind.ofName? block.kind = some (.gate kind)) :
      Shape block tags (.gate kind) block.points
  | timer {kind delay} (isKind : BlockKind.ofName? block.kind = some (.timer kind))
      (given : block.delay? = some delay) :
      Shape block tags (.timer kind (.ofFloat delay)) block.points
  | pin (isKind : BlockKind.ofName? block.kind = some .pin) :
      Shape block tags (.pin .floating) []

def BlockDecl.DepictedBy (block : BlockDecl) (circuit : Circuit) (tags : Names)
    (context : ElementId) (named : String × ElementId) : Prop :=
  named.1 = block.name ∧ ∃ kind points pins, block.Shape tags kind points ∧ pins.Nodup ∧
    circuit.get? named.2 =
      some ⟨block.name, kind, some context, pins, none, some ⟨block.name, block.line⟩⟩ ∧
    List.Forall₂ (fun point pin =>
      circuit.get? pin = some ⟨point.1, .pin point.2, some named.2, [], none, none⟩) points pins

def pinOn? (circuit : Circuit) (id : ElementId) : Option Nat → Option ElementId
  | none => some id
  | some index => (circuit.children id)[index]?

/-- Whether a pin is what the end of a wire names, where some elements stand for the blocks. -/
def PointRef.DepictedBy (ref : PointRef) (circuit : Circuit) (blocks : List BlockDecl)
    (names : Names) (pin : ElementId) : Prop :=
  ∃ place id, ref.place? blocks = some place ∧ names.lookup place.1 = some id ∧
    pinOn? circuit id place.2 = some pin

def WireDecl.DepictedBy (wire : WireDecl) (circuit : Circuit) (blocks : List BlockDecl)
    (names : Names) (context id : ElementId) : Prop :=
  ∃ start stop, wire.start.DepictedBy circuit blocks names start ∧
    wire.stop.DepictedBy circuit blocks names stop ∧ start ≠ stop ∧
    circuit.get? id = some ⟨circuit.nameOf start ++ "-" ++ circuit.nameOf stop,
      .wire ⟨start, stop, wire.start.inverted, wire.stop.inverted⟩, some context, [], none,
      some ⟨wireBlock, wire.line⟩⟩

def ContextDecl.DepictedBy (decl : ContextDecl) (circuit : Circuit) (tags projects : Names)
    (id : ElementId) : Prop :=
  ∃ project blocks wires, projects.lookup decl.project = some project ∧
    circuit.get? id =
      some ⟨decl.name, .context, some project, blocks.map (·.2) ++ wires, none, none⟩ ∧
    List.Forall₂ (fun block named => block.DepictedBy circuit tags id named) decl.blocks blocks ∧
    List.Forall₂ (fun wire wireId => wire.DepictedBy circuit decl.blocks blocks id wireId)
      decl.wires wires

/-- A circuit in which tags and contexts are drawn, and a project for each of some names. -/
structure Drawn (solution : String) (tagDecls : List TagDecl) (seen : List String)
    (decls : List ContextDecl) (tags projects : Names) (contexts : List ElementId)
    (circuit : Circuit) : Prop where
  root : circuit.get? Circuit.solution = some
    ⟨solution, .solution, none, tags.map (·.2) ++ projects.map (·.2), none, none⟩
  eachTag : List.Forall₂ (fun tag named => tag.DepictedBy circuit named) tagDecls tags
  named : projects.map (·.1) = seen.eraseDups
  eachProject : ∀ project ∈ projects, circuit.get? project.2 = some ⟨project.1, .project,
    some Circuit.solution, ((decls.zip contexts).filter (·.1.project == project.1)).map (·.2),
    none, none⟩
  eachContext : List.Forall₂ (fun decl context => decl.DepictedBy circuit tags projects context)
    decls contexts
  ascending : (tags.map (·.2)).Pairwise (· < ·) ∧ contexts.Pairwise (· < ·)

variable {circuit final : Circuit} {tags names : Names} {context : Nat} {block : BlockDecl}

theorem exists_related {related : α → β → Prop} {list : List α} {others : List β}
    (each : List.Forall₂ related list others) {other : β} (member : other ∈ others) :
    ∃ item ∈ list, related item other := by
  induction each with
  | nil => contradiction
  | cons first _ ih =>
      rcases List.mem_cons.mp member with rfl | later
      · exact ⟨_, List.mem_cons_self, first⟩
      · obtain ⟨item, listed, isRelated⟩ := ih later
        exact ⟨item, List.mem_cons_of_mem _ listed, isRelated⟩

theorem isSome_lookup {name : String} :
    (names.lookup name).isSome ↔ name ∈ names.map (·.1) := by
  induction names with
  | nil => simp
  | cons pair names ih =>
      rw [List.lookup_cons, List.map_cons, List.mem_cons, ← ih]
      by_cases same : name = pair.1
      · simp [same]
      · have other : (name == pair.1) = false := by simpa using same
        simp [other, same]

theorem not_distinct {name : String} (known : (names.lookup name).isSome) (rest : List String) :
    ¬(names.map (·.1) ++ name :: rest).Nodup := fun distinct =>
  List.disjoint_of_nodup_append distinct (isSome_lookup.mp known) List.mem_cons_self

theorem distinct_append {name : String} (unique : (names.map (·.1)).Nodup)
    (unknown : ¬(names.lookup name).isSome) (id : ElementId) :
    ((names ++ [(name, id)]).map (·.1)).Nodup := by
  rw [List.map_append]
  refine List.nodup_append.mpr ⟨unique, List.nodup_singleton _, ?_⟩
  rintro old isOld _ isNew rfl
  obtain rfl : old = name := List.mem_singleton.mp isNew
  exact unknown (isSome_lookup.mpr isOld)

theorem BlockDecl.Shape.plain {kind : Kind} {points : List (String × Pin)}
    (shape : block.Shape tags kind points) : kind.isContainer = false := by
  cases shape <;> rfl

theorem BlockDecl.DepictedBy.settles {named : String × ElementId}
    (depicted : block.DepictedBy circuit tags context named) (settles : circuit.Settles final) :
    block.DepictedBy final tags context named := by
  obtain ⟨same, kind, points, pins, shape, unique, held, each⟩ := depicted
  refine ⟨same, kind, points, pins, shape, unique, settles _ _ held shape.plain, ?_⟩
  exact each.imp fun point pin pinHeld => settles pin _ pinHeld rfl

theorem BlockDecl.DepictedBy.named {name : String} {id : Nat}
    (depicted : block.DepictedBy circuit tags context (name, id)) : name = circuit.nameOf id := by
  obtain ⟨same, _, _, _, _, _, held, _⟩ := depicted
  rw [Circuit.nameOf, held]
  exact same

theorem isTag_settles {id : Nat} (settles : circuit.Settles final) (isTag : circuit.IsTag id) :
    final.IsTag id := by
  obtain ⟨element, held, isTag⟩ := isTag
  refine ⟨element, settles id element held ?_, isTag⟩
  cases kind : element.kind <;> simp [kind, Kind.isTag, Kind.isContainer] at isTag ⊢

structure Ready (tags : Names) (context : Nat) (circuit : Circuit) : Prop where
  held : ∃ element, circuit.get? context = some element ∧ element.kind = .context ∧
    ∀ child : Nat, child ∈ element.children → child < circuit.size
  tagged : ∀ tag ∈ tags, circuit.IsTag tag.2

theorem Ready.settles (ready : Ready tags context circuit) {new : List Nat}
    (adds : circuit.Appends context new final) : circuit.Settles final := by
  obtain ⟨element, held, isContext, _⟩ := ready.held
  exact adds.settles held (by rw [isContext]; rfl)

theorem Ready.adds (ready : Ready tags context circuit) {new : List Nat}
    (adds : circuit.Appends context new final) : Ready tags context final := by
  obtain ⟨element, held, isContext, fits⟩ := ready.held
  refine ⟨⟨_, adds.atOwner held, isContext, fun child member => ?_⟩, fun tag member => ?_⟩
  · rcases List.mem_append.mp member with old | isNew
    · exact (fits child old).trans_le adds.size
    · exact (adds.fresh child isNew).2
  · exact isTag_settles (ready.settles adds) (ready.tagged tag member)

theorem Ready.notContext (ready : Ready tags context circuit) {name : String} {id : Nat}
    (depicted : block.DepictedBy circuit tags context (name, id)) : id ≠ context := by
  rintro rfl
  obtain ⟨-, kind, _, _, shape, -, held, _⟩ := depicted
  obtain ⟨element, contextHeld, isContext, _⟩ := ready.held
  have same : kind = .context := by
    rw [← isContext, ← Option.some.inj (held.symm.trans contextHeld)]
  have plain := shape.plain
  rw [same] at plain
  contradiction

theorem resolveTag_yields (block : BlockDecl) :
    Build.Yields (block.resolveTag tags) circuit (∀ name ∈ block.tag, name ∈ tags.map (·.1))
      fun tag final => circuit = final ∧
        Option.Rel (fun name id => tags.lookup name = some id) block.tag tag := by
  unfold BlockDecl.resolveTag
  cases mapped : block.tag with
  | none => exact (Build.yields_ok rfl ⟨rfl, .none⟩).iff (by simp)
  | some name =>
      simp only
      have known := @isSome_lookup tags name
      cases found : tags.lookup name with
      | none =>
          rw [found] at known
          exact (Build.yields_error rfl).iff (by simpa using known)
      | some id =>
          rw [found] at known
          exact (Build.yields_ok rfl ⟨rfl, .some found⟩).iff (by simpa using known)

theorem isTag_of_mapped (tagged : ∀ tag ∈ tags, circuit.IsTag tag.2) {name : Option String}
    {tag : Option ElementId} (mapped : Option.Rel (fun name id => tags.lookup name = some id)
      name tag) : ∀ id ∈ tag, circuit.IsTag id := by
  rintro id ⟨⟩
  cases mapped with
  | some found => exact tagged _ (mem_of_lookup found)

theorem addBlock_yields (ready : Ready tags context circuit) (block : BlockDecl) :
    Build.Yields (addBlock context tags block) circuit (block.Drawable (tags.map (·.1)))
      fun id final => ∃ kind points, block.Shape tags kind points ∧
        id = circuit.size + points.length ∧
        final = circuit.plant context points block.name kind := by
  obtain ⟨element, held, isContext, fits⟩ := ready.held
  have contains : element.kind.isContainer := by rw [isContext]; rfl
  unfold addBlock BlockDecl.Drawable
  cases isKind : BlockKind.ofName? block.kind with
  | none => exact Build.yields_error rfl
  | some kind =>
      cases kind with
      | signal =>
          refine ((resolveTag_yields block).bind fun tag final _ ⟨same, mapped⟩ => ?_).iff
            (and_true _).symm.to_iff
          subst same
          exact Build.yields_ok
            (Build.addSignal_ok held contains fits (isTag_of_mapped ready.tagged mapped) block.name)
            ⟨_, _, .signal isKind mapped, rfl, rfl⟩
      | gate kind =>
          exact Build.yields_ok (Build.addLogic_ok held contains fits rfl block.name)
            ⟨_, _, .gate isKind, rfl, rfl⟩
      | timer kind =>
          simp only
          cases given : block.delay? with
          | none => exact (Build.yields_error rfl).iff (by simp)
          | some delay =>
              exact (Build.yields_ok (Build.addLogic_ok held contains fits rfl block.name)
                ⟨_, _, .timer isKind given, rfl, rfl⟩).iff (by simp)
      | pin =>
          have added := Build.addPin_ok held contains block.name
          rw [Circuit.push_eq_plant (Circuit.get?_lt held)] at added
          exact Build.yields_ok added ⟨_, _, .pin isKind, rfl, rfl⟩

theorem depictedBy_plant {kind : Kind} {points : List (String × Pin)}
    (shape : block.Shape tags kind points) (circuit : Circuit) (context : Nat) :
    block.DepictedBy ((circuit.plant context points block.name kind).ascribed
        (circuit.size + points.length) ⟨block.name, block.line⟩)
      tags context (block.name, circuit.size + points.length) := by
  refine ⟨rfl, kind, points, List.range' circuit.size points.length, shape, List.nodup_range',
    Circuit.get?_mark .., List.forall₂_iff_get.mpr ⟨by simp, fun index bound _ => ?_⟩⟩
  have different : circuit.size + index ≠ circuit.size + points.length := by omega
  have listed : points[index]? = some (points[index].1, points[index].2) :=
    List.getElem?_eq_getElem bound
  simp only [List.get_eq_getElem, List.getElem_range', one_mul]
  rw [Circuit.ascribed, Circuit.get?_update_ne different,
    Circuit.get?_plant_pin circuit context listed]
  rfl

/-- What a context is after blocks were added to it. -/
structure DrawnBlocks (tags : Names) (context : Nat) (blocks : List BlockDecl) (circuit : Circuit)
    (new : Names) (final : Circuit) : Prop where
  adds : circuit.Appends context (new.map (·.2)) final
  each : List.Forall₂ (fun block named => block.DepictedBy final tags context named) blocks new

theorem DrawnBlocks.cons (ready : Ready tags context circuit) {kind : Kind}
    {points : List (String × Pin)} (shape : block.Shape tags kind points) {made : Circuit}
    (isMade : made = (circuit.plant context points block.name kind).ascribed
      (circuit.size + points.length) ⟨block.name, block.line⟩) {blocks : List BlockDecl}
    {new : Names} (rest : DrawnBlocks tags context blocks made new final) :
    DrawnBlocks tags context (block :: blocks) circuit
      ((block.name, circuit.size + points.length) :: new) final := by
  subst isMade
  have adds :=
    Circuit.Appends.mark circuit context points block.name kind ⟨block.name, block.line⟩
  have depicted := depictedBy_plant shape circuit context
  exact ⟨adds.trans rest.adds,
    .cons (depicted.settles ((ready.adds adds).settles rest.adds)) rest.each⟩

theorem addBlocks_yields (blocks : List BlockDecl) (ready : Ready tags context circuit)
    (unique : (names.map (·.1)).Nodup) :
    Build.Yields (addBlocks context tags blocks names) circuit
      ((names.map (·.1) ++ blocks.map (·.name)).Nodup ∧
        ∀ block ∈ blocks, block.Drawable (tags.map (·.1)))
      fun all final =>
        ∃ new, all = names ++ new ∧ DrawnBlocks tags context blocks circuit new final := by
  induction blocks generalizing circuit names with
  | nil =>
      refine (Build.yields_ok rfl ⟨[], (List.append_nil names).symm, .refl circuit context,
        .nil⟩).iff ?_
      simpa using unique
  | cons block blocks ih =>
      unfold addBlocks
      by_cases known : (names.lookup block.name).isSome
      · simp only [known, ↓reduceIte]
        exact (Build.yields_error rfl).iff
          (iff_false_intro fun both => not_distinct known _ both.1)
      · simp only [known, Bool.false_eq_true, ↓reduceIte]
        have same : ((names.map (·.1) ++ (block :: blocks).map (·.name)).Nodup ∧
            ∀ other ∈ block :: blocks, other.Drawable (tags.map (·.1))) ↔
            block.Drawable (tags.map (·.1)) ∧
              (names.map (·.1) ++ (block :: blocks).map (·.name)).Nodup ∧
                ∀ block ∈ blocks, block.Drawable (tags.map (·.1)) := by
          rw [List.forall_mem_cons]
          exact and_left_comm
        refine Build.Yields.iff ((addBlock_yields ready block).bind ?_) same
        rintro _ _ - ⟨kind, points, shape, rfl, rfl⟩
        have planted := Circuit.get?_plant_new circuit context points block.name kind
        refine Build.Yields.after (Build.setBlock_ok planted _) ?_
        have adds :=
          Circuit.Appends.mark circuit context points block.name kind ⟨block.name, block.line⟩
        refine ((ih (ready.adds adds) (distinct_append unique known _)).mono ?_).iff ?_
        · rintro all final - ⟨new, rfl, rest⟩
          exact ⟨_, List.append_assoc _ _ _, .cons ready shape rfl rest⟩
        · rw [List.map_append, List.append_assoc]
          rfl

end RelayLogic.Diagram
