import RelayLogic.Proofs.Assembling
import RelayLogic.Proofs.Descending
import RelayLogic.Proofs.Showing

/-!
Diagrams are translated faithfully. A diagram without faults becomes a circuit in which all that it
declares is drawn, in the order in which it declares it, and in which there is nothing else; any
other diagram is refused. The last check concerns the delays of timers, which no call looks at.
-/

namespace RelayLogic.Diagram

/-- Whether a circuit is a drawing of a diagram that holds nothing else. -/
def Depicts (diagram : Diagram) (circuit : Circuit) : Prop :=
  ∃ tags projects contexts, Drawn (diagram.solution.getD defaultSolution) diagram.tags
      (diagram.contexts.map (·.project)) diagram.contexts tags projects contexts circuit ∧
    circuit.tags.map (·.1) = tags.map (·.2) ∧ circuit.contexts = contexts ∧
    (circuit.descendants Circuit.solution).Perm (circuit.ids.erase Circuit.solution)

variable {circuit : Circuit} {solution : String} {before : List TagDecl} {seen : List String}
  {decls : List ContextDecl} {tags projects names : Names} {contexts : List ElementId}
  {id owner : Nat}

namespace Drawn

section Standing

variable (drawn : Drawn solution before seen decls tags projects contexts circuit)
  (tree : circuit.Tree Kind.Nests)

include drawn tree

theorem mem_top {element : Element} (held : circuit.get? id = some element)
    (top : element.kind.isTag ∨ element.kind = .project) :
    id ∈ tags.map (·.2) ∨ ∃ project ∈ projects, project.2 = id := by
  have notSolution : element.kind ≠ .solution := by
    rintro same
    simp [same, Kind.isTag] at top
  obtain ⟨owner, container, owned, containerHeld, nests⟩ := tree.owner_nests held notSolution
  have isSolution : container.kind = .solution := by
    cases kind : element.kind <;> simp [kind, Kind.isTag, Kind.Nests] at top nests ⊢ <;>
      exact nests
  obtain rfl := tree.solution_of_kind containerHeld isSolution
  have listed := tree.mem_children.mpr owned
  rw [Circuit.children, drawn.root] at listed
  exact (List.mem_append.mp listed).imp_right List.mem_map.mp

theorem isTag_iff : circuit.IsTag id ↔ id ∈ tags.map (·.2) := by
  constructor
  · rintro ⟨element, held, isTag⟩
    refine (drawn.mem_top tree held (Or.inl isTag)).resolve_right ?_
    rintro ⟨project, member, rfl⟩
    rw [drawn.eachProject project member] at held
    cases held
    contradiction
  · intro member
    obtain ⟨named, listed, rfl⟩ := List.mem_map.mp member
    exact drawn.tagged named listed

theorem isProject_iff : (∃ element, circuit.get? id = some element ∧ element.kind = .project) ↔
    ∃ project ∈ projects, project.2 = id := by
  constructor
  · rintro ⟨element, held, isProject⟩
    refine (drawn.mem_top tree held (Or.inr isProject)).resolve_left fun member => ?_
    obtain ⟨other, found, isTag⟩ := (drawn.isTag_iff tree).mpr member
    rw [held] at found
    rw [← Option.some.inj found, isProject] at isTag
    contradiction
  · rintro ⟨project, member, rfl⟩
    exact ⟨_, drawn.eachProject project member, rfl⟩

theorem isContext_iff : (∃ element, circuit.get? id = some element ∧ element.kind = .context) ↔
    id ∈ contexts := by
  constructor
  · rintro ⟨element, held, isContext⟩
    obtain ⟨owner, container, owned, containerHeld, nests⟩ :=
      tree.owner_nests held (by simp [isContext])
    rw [isContext] at nests
    obtain ⟨project, member, rfl⟩ := (drawn.isProject_iff tree).mp ⟨container, containerHeld, nests⟩
    have listed := tree.mem_children.mpr owned
    rw [Circuit.children, drawn.eachProject project member] at listed
    obtain ⟨pair, kept, rfl⟩ := List.mem_map.mp listed
    exact (List.of_mem_zip (List.mem_of_mem_filter kept)).2
  · intro member
    obtain ⟨decl, _, depicted⟩ := exists_related drawn.eachContext member
    exact ContextDecl.DepictedBy.isContext depicted

theorem member_cases
    (isContext : ∃ element, circuit.get? owner = some element ∧ element.kind = .context)
    (owned : circuit.owner id = some owner) : ∃ decl ∈ decls, ∃ blocks,
      Stands circuit tags owner decl.blocks blocks ∧
        ((∃ block ∈ decl.blocks, ∃ name, block.DepictedBy circuit tags owner (name, id)) ∨
          ∃ wire ∈ decl.wires, wire.DepictedBy circuit decl.blocks blocks owner id) := by
  have member := (drawn.isContext_iff tree).mp isContext
  obtain ⟨decl, declared, _, blocks, wires, _, held, eachBlock, eachWire⟩ :=
    exists_related drawn.eachContext member
  refine ⟨decl, declared, blocks, eachBlock, ?_⟩
  have listed := tree.mem_children.mpr owned
  rw [Circuit.children, held] at listed
  -- A context lists the elements of its blocks and then those of its wires.
  rcases List.mem_append.mp listed with isBlock | isWire
  · obtain ⟨⟨name, _⟩, among, rfl⟩ := List.mem_map.mp isBlock
    obtain ⟨block, drawnBlock, depicted⟩ := exists_related eachBlock among
    exact Or.inl ⟨block, drawnBlock, name, depicted⟩
  · obtain ⟨wire, drawnWire, depicted⟩ := exists_related eachWire isWire
    exact Or.inr ⟨wire, drawnWire, depicted⟩

end Standing

end Drawn

theorem BlockDecl.DepictedBy.held {block : BlockDecl} {name : String}
    (depicted : block.DepictedBy circuit tags owner (name, id)) :
    ∃ element, circuit.get? id = some element := by
  obtain ⟨_, _, _, _, _, _, held, _⟩ := depicted
  exact ⟨_, held⟩

theorem WireDecl.DepictedBy.hasParts {blocks : List BlockDecl} {wire : WireDecl}
    (stands : Stands circuit tags owner blocks names)
    (depicted : wire.DepictedBy circuit blocks names owner id) {element : Element}
    (held : circuit.get? id = some element) : circuit.HasParts id element.kind := by
  obtain ⟨start, stop, atStart, atStop, different, found⟩ := depicted
  rw [held] at found
  cases found
  exact ⟨atStart.isPin stands, atStop.isPin stands, different⟩

theorem BlockDecl.DepictedBy.hasParts_iff {block : BlockDecl} {name : String}
    (depicted : block.DepictedBy circuit tags owner (name, id))
    (tagged : ∀ named ∈ tags, circuit.IsTag named.2) {element : Element}
    (held : circuit.get? id = some element) : circuit.HasParts id element.kind ↔ block.Lasts := by
  obtain ⟨-, kind, points, pins, shape, -, found, each⟩ := depicted
  rw [held] at found
  cases found
  have pinsOf : circuit.pinsOf id = pins := pinsOf_eq held each
  have count := each.length_eq
  cases shape with
  | signal isKind mapped =>
      refine iff_of_true ⟨?_, isTag_of_mapped tagged mapped⟩
        fun timer delay isTimer => by simp [isKind] at isTimer
      obtain _ | ⟨input, _ | ⟨output, _ | _⟩⟩ := each
      rw [pinsOf]
      simp [Circuit.areSignalPins, Circuit.direction, input, output, Pin.fixed]
  | gate isKind =>
      refine iff_of_true ?_ fun timer delay isTimer => by simp [isKind] at isTimer
      rw [Circuit.HasParts, pinsOf, ← count]
      rfl
  | timer isKind given =>
      rw [Circuit.HasParts, pinsOf, ← count]
      simp [BlockDecl.Lasts, isKind, given, BlockDecl.points, GatePoint.all]
  | pin isKind =>
      exact iff_of_true trivial fun timer delay isTimer => by simp [isKind] at isTimer

theorem needs_context {owner kind : Kind} (nests : owner.Nests kind) :
    owner = .context ∨ circuit.HasParts id kind := by
  cases kind with
  | solution | memory _ => exact nests.elim
  | wire _ | signal _ | gate _ | timer _ _ => exact Or.inl nests
  | pin _ | tag _ _ | project | context => exact Or.inr trivial

/-- What is drawn is valid if all delays last: nothing else is left to the last check. -/
theorem Drawn.validate_ok_iff
    (drawn : Drawn solution before seen decls tags projects contexts circuit)
    (tree : circuit.Tree Kind.Nests) :
    circuit.validate = .ok () ↔ ∀ decl ∈ decls, ∀ block ∈ decl.blocks, block.Lasts := by
  rw [Circuit.validate_ok_iff]
  constructor
  · intro good decl declared block within
    obtain ⟨context, _, _, blocks, _, _, _, eachBlock, _⟩ :=
      exists_related drawn.eachContext.flip declared
    obtain ⟨⟨name, id⟩, _, depicted⟩ := exists_related eachBlock.flip within
    obtain ⟨element, held⟩ := BlockDecl.DepictedBy.held depicted
    exact (BlockDecl.DepictedBy.hasParts_iff depicted drawn.tagged held).mp
      (good id element held).2
  · intro lasts id element held
    refine ⟨fun child member => tree.mem_children.mp ?_, ?_⟩
    · rwa [Circuit.children, held]
    · by_cases isSolution : element.kind = .solution
      · rw [isSolution]
        trivial
      · obtain ⟨owner, container, owned, containerHeld, nests⟩ := tree.owner_nests held isSolution
        refine (needs_context nests).elim (fun isContext => ?_) fun has => has
        obtain ⟨decl, declared, blocks, stands, isMember⟩ :=
          drawn.member_cases tree ⟨container, containerHeld, isContext⟩ owned
        rcases isMember with ⟨block, within, name, depicted⟩ | ⟨wire, _, depicted⟩
        · exact (depicted.hasParts_iff drawn.tagged held).mpr (lasts decl declared block within)
        · exact depicted.hasParts stands held

theorem wellDrawn_iff {diagram : Diagram} : diagram.WellDrawn ↔
    ((diagram.tags.map (·.name)).Nodup ∧
      ∀ context ∈ diagram.contexts, context.Drawable (diagram.tags.map (·.name))) ∧
    ∀ context ∈ diagram.contexts, ∀ block ∈ context.blocks, block.Lasts :=
  ⟨fun ⟨distinct, contexts, delays⟩ => ⟨⟨distinct, contexts⟩, delays⟩,
    fun ⟨⟨distinct, contexts⟩, delays⟩ => ⟨distinct, contexts, delays⟩⟩

theorem build_yields (diagram : Diagram) (solution : String) :
    Build.Yields diagram.build (.empty solution) ((diagram.tags.map (·.name)).Nodup ∧
      ∀ context ∈ diagram.contexts, context.Drawable (diagram.tags.map (·.name)))
      fun _ final => ∃ tags projects contexts, Drawn solution diagram.tags
        (diagram.contexts.map (·.project)) diagram.contexts tags projects contexts final := by
  have empty : Drawn solution [] [] [] [] [] [] (.empty solution) :=
    ⟨rfl, .nil, rfl, by simp, .nil, .nil, .nil⟩
  refine (addTags_yields diagram.tags empty List.nodup_nil).bind fun tags tagged _ drawn => ?_
  have opened : Drawn solution diagram.tags (([] : List ContextDecl).map (·.project)) [] tags []
      [] tagged := drawn
  refine (addContexts_yields diagram.contexts opened).mono fun _ final _ reached => ?_
  obtain ⟨projects, contexts, drawn⟩ := reached
  exact ⟨tags, projects, contexts, drawn⟩

theorem Drawn.tags_eq (drawn : Drawn solution before seen decls tags projects contexts circuit)
    (tree : circuit.Tree Kind.Nests) : circuit.tags.map (·.1) = tags.map (·.2) := by
  refine eq_of_sorted (List.pairwise_map.mpr (Circuit.sorted_collect _)) drawn.ascending.1
    fun id => ?_
  rw [← drawn.isTag_iff tree]
  constructor
  · intro member
    obtain ⟨⟨_, initial⟩, listed, rfl⟩ := List.mem_map.mp member
    exact Circuit.isTag_of_mem_tags listed
  · intro isTag
    obtain ⟨initial, listed⟩ := isTag.exists_initial
    exact List.mem_map.mpr ⟨_, listed, rfl⟩

theorem Drawn.contexts_eq (drawn : Drawn solution before seen decls tags projects contexts circuit)
    (tree : circuit.Tree Kind.Nests) : circuit.contexts = contexts := by
  refine eq_of_sorted (List.pairwise_lt_range.filter _) drawn.ascending.2 fun id => ?_
  rw [← drawn.isContext_iff tree, Circuit.contexts, List.mem_filter]
  constructor
  · rintro ⟨_, isContext⟩
    cases held : circuit.get? id with
    | none => simp [held] at isContext
    | some element => exact ⟨element, rfl, by simpa [held] using isContext⟩
  · rintro ⟨element, held, isContext⟩
    exact ⟨List.mem_range.mpr (Circuit.get?_lt held), by simp [held, isContext]⟩

theorem toCircuit_ok {diagram : Diagram} (wellDrawn : diagram.WellDrawn) :
    ∃ circuit, diagram.toCircuit = .ok circuit ∧ diagram.Depicts circuit := by
  obtain ⟨drawable, delays⟩ := wellDrawn_iff.mp wellDrawn
  obtain ⟨answer, circuit, built, tags, projects, contexts, drawn⟩ :=
    (build_yields diagram (diagram.solution.getD defaultSolution)).ok drawable
  have tree := (build_sketch built).laid.tree
  refine ⟨circuit, ?_, tags, projects, contexts, drawn, drawn.tags_eq tree,
    drawn.contexts_eq tree, ?_⟩
  · exact toCircuit_ok_iff.mpr ⟨⟨answer, built⟩, (drawn.validate_ok_iff tree).mpr delays⟩
  · refine (tree.spanning fun id bound => ?_).descendants_perm
    obtain ⟨element, held⟩ := Circuit.exists_get? bound
    exact tree.reach_of_rank (fun _ _ nests => nests.rank_lt) held

theorem wellDrawn_of_toCircuit {diagram : Diagram} (done : diagram.toCircuit = .ok circuit) :
    diagram.WellDrawn := by
  obtain ⟨⟨answer, built⟩, valid⟩ := toCircuit_ok_iff.mp done
  obtain ⟨drawable, tags, projects, contexts, drawn⟩ := (build_yields diagram _).of_ok built
  have tree := (build_sketch built).laid.tree
  exact wellDrawn_iff.mpr ⟨drawable, (drawn.validate_ok_iff tree).mp valid⟩

/-- A diagram is translated if it has no faults, and then faithfully and completely. -/
theorem toCircuit_depicts (diagram : Diagram) :
    (diagram.WellDrawn ↔ ∃ circuit, diagram.toCircuit = .ok circuit) ∧
      ∀ circuit, diagram.toCircuit = .ok circuit → diagram.Depicts circuit := by
  refine ⟨⟨fun wellDrawn => ?_, fun ⟨circuit, done⟩ => wellDrawn_of_toCircuit done⟩,
    fun circuit done => ?_⟩
  · obtain ⟨circuit, done, _⟩ := toCircuit_ok wellDrawn
    exact ⟨circuit, done⟩
  · obtain ⟨other, again, depicts⟩ := toCircuit_ok (wellDrawn_of_toCircuit done)
    rw [done] at again
    cases again
    exact depicts

theorem chime_depicted : ∃ circuit, chime.toCircuit = .ok circuit ∧ chime.WellDrawn ∧
    chime.Depicts circuit := by
  have translated : chime.toCircuit.toOption.isSome := by decide +kernel
  cases done : chime.toCircuit with
  | error error =>
      rw [done] at translated
      contradiction
  | ok circuit =>
      obtain ⟨wellDrawn, depicts⟩ := toCircuit_depicts chime
      exact ⟨circuit, rfl, wellDrawn.mpr ⟨circuit, done⟩, depicts circuit done⟩

end RelayLogic.Diagram
