import RelayLogic.Proofs.Cycle
import RelayLogic.Proofs.Fastening

/-!
Tags, projects and contexts. They are drawn one after the other in the order in which a diagram
declares them, each context with what stands in it; what is drawn already stays as it is.
-/

namespace RelayLogic.Diagram

variable {circuit final : Circuit} {solution : String} {before : List TagDecl}
  {seen : List String} {decls : List ContextDecl} {tags names projects : Names}
  {contexts : List ElementId} {id context : Nat}

theorem TagDecl.DepictedBy.settles {tag : TagDecl} {named : String × ElementId}
    (depicted : tag.DepictedBy circuit named) (settles : circuit.Settles final) :
    tag.DepictedBy final named :=
  ⟨depicted.1, settles _ _ depicted.2 rfl⟩

namespace Drawn

theorem settles (drawn : Drawn solution before seen decls tags projects contexts circuit)
    {new : List Nat} (adds : circuit.Appends Circuit.solution new final) : circuit.Settles final :=
  adds.settles drawn.root rfl

theorem tagged (drawn : Drawn solution before seen decls tags projects contexts circuit) :
    ∀ named ∈ tags, circuit.IsTag named.2 := by
  intro named member
  obtain ⟨tag, _, depicted⟩ := exists_related drawn.eachTag member
  exact ⟨_, depicted.2, rfl⟩

theorem tagNames (drawn : Drawn solution before seen decls tags projects contexts circuit) :
    tags.map (·.1) = before.map (·.name) := by
  have each := drawn.eachTag
  clear drawn
  induction each with
  | nil => rfl
  | cons first _ ih => rw [List.map_cons, List.map_cons, first.1, ih]

theorem addTag (drawn : Drawn solution before [] [] tags [] [] circuit) {tag : TagDecl}
    (adds : circuit.Appends Circuit.solution [id] final)
    (depicted : tag.DepictedBy final (tag.name, id)) :
    Drawn solution (before ++ [tag]) [] [] (tags ++ [(tag.name, id)]) [] [] final := by
  refine ⟨?_, ?_, rfl, by simp, .nil, ?_, .nil⟩
  · rw [adds.atOwner drawn.root]
    simp
  · exact List.rel_append (drawn.eachTag.imp fun _ _ old => old.settles (drawn.settles adds))
      (.cons depicted .nil)
  · rw [List.map_append]
    refine List.pairwise_append.mpr ⟨drawn.ascending.1, List.pairwise_singleton _ _, ?_⟩
    intro old isOld new isNew
    obtain ⟨named, member, rfl⟩ := List.mem_map.mp isOld
    obtain ⟨_, held, _⟩ := drawn.tagged named member
    exact (Circuit.get?_lt held).trans_le (adds.fresh new isNew).1

end Drawn

theorem addTag_ok {root : Element} (held : circuit.get? Circuit.solution = some root)
    (tag : TagDecl) : ∃ first second made,
      Build.addTag tag.name tag.initial circuit = .ok circuit.size first ∧
      Build.setProperties circuit.size tag.properties first = .ok () second ∧
      Build.setBlock circuit.size ⟨tag.name, tag.line⟩ second = .ok () made ∧
      circuit.Appends Circuit.solution [circuit.size] made ∧
      tag.DepictedBy made (tag.name, circuit.size) := by
  have added := Build.push_ok (Circuit.get?_lt held) tag.name (.tag tag.initial [])
  have planted := Circuit.get?_plant_new circuit Circuit.solution [] tag.name (.tag tag.initial [])
  have adds := Circuit.Appends.plant circuit Circuit.solution [] tag.name (.tag tag.initial [])
  obtain ⟨second, isSet, adds, held⟩ :=
    adds.setProperties (Nat.le_refl _) planted rfl tag.properties
  obtain ⟨made, marked, adds, held⟩ :=
    adds.setBlock (Nat.le_refl _) held ⟨tag.name, tag.line⟩
  exact ⟨_, second, made, added, isSet, marked, adds, rfl, held⟩

theorem addTags_yields (decls : List TagDecl)
    (drawn : Drawn solution before [] [] names [] [] circuit) (unique : (names.map (·.1)).Nodup) :
    Build.Yields (addTags decls names) circuit (names.map (·.1) ++ decls.map (·.name)).Nodup
      fun all final => Drawn solution (before ++ decls) [] [] all [] [] final := by
  induction decls generalizing circuit names before with
  | nil =>
      refine (Build.yields_ok rfl ?_).iff (by simpa using unique)
      rwa [List.append_nil]
  | cons tag decls ih =>
      unfold addTags
      by_cases known : (names.lookup tag.name).isSome
      · simp only [known, ↓reduceIte]
        exact (Build.yields_error rfl).iff (iff_false_intro (not_distinct known _))
      · simp only [known, Bool.false_eq_true, ↓reduceIte]
        obtain ⟨first, second, made, added, isSet, marked, adds, depicted⟩ :=
          addTag_ok drawn.root tag
        refine Build.Yields.after added (.after isSet (.after marked ?_))
        refine ((ih (drawn.addTag adds depicted) (distinct_append unique known _)).mono ?_).iff ?_
        · intro all final _ rest
          rwa [List.append_cons]
        · rw [List.map_append, List.append_assoc]
          rfl

theorem eraseDups_concat {names : List String} {name : String} : (names ++ [name]).eraseDups =
    if name ∈ names then names.eraseDups else names.eraseDups ++ [name] := by
  rw [List.eraseDups_append]
  by_cases member : name ∈ names <;> simp [List.removeAll, member, List.eraseDups_cons]

theorem filter_project_nil {name : String} (unknown : name ∉ decls.map (·.project))
    (contexts : List ElementId) : (decls.zip contexts).filter (·.1.project == name) = [] := by
  refine List.filter_eq_nil_iff.mpr fun pair member => ?_
  have declared : pair.1 ∈ decls := (List.of_mem_zip member).1
  simpa using fun same : pair.1.project = name => unknown (List.mem_map.mpr ⟨_, declared, same⟩)

theorem ContextDecl.DepictedBy.keep {decl : ContextDecl} {others : Names} {owner : Nat}
    {new : List Nat} {container : Element} (depicted : decl.DepictedBy circuit tags projects id)
    (adds : circuit.Appends owner new final) (held : circuit.get? owner = some container)
    (contains : container.kind.isContainer) (notContext : container.kind ≠ .context)
    (onward : ∀ name project, projects.lookup name = some project →
      others.lookup name = some project) : decl.DepictedBy final tags others id := by
  obtain ⟨project, blocks, wires, known, isContext, eachBlock, eachWire⟩ := depicted
  have settles := adds.settles held contains
  refine ⟨project, blocks, wires, onward _ _ known, adds.apart held isContext notContext.symm,
    ?_, ?_⟩
  · exact eachBlock.imp fun _ _ old => old.settles settles
  · exact eachWire.imp fun _ _ old => old.settles eachBlock settles

theorem ContextDecl.DepictedBy.isContext {decl : ContextDecl}
    (depicted : decl.DepictedBy circuit tags projects id) :
    ∃ element, circuit.get? id = some element ∧ element.kind = .context := by
  obtain ⟨_, _, _, _, held, _⟩ := depicted
  exact ⟨_, held, rfl⟩

namespace Drawn

theorem isProject (drawn : Drawn solution before seen decls tags projects contexts circuit)
    {name : String} (known : projects.lookup name = some id) :
    ∃ element, circuit.get? id = some element ∧ element.kind = .project :=
  ⟨_, drawn.eachProject _ (mem_of_lookup known), rfl⟩

theorem mem_seen (drawn : Drawn solution before seen decls tags projects contexts circuit)
    {name : String} : (projects.lookup name).isSome ↔ name ∈ seen := by
  rw [isSome_lookup, drawn.named, List.mem_eraseDups]

theorem nameAgain (drawn : Drawn solution before seen decls tags projects contexts circuit)
    {name : String} (known : name ∈ seen) :
    Drawn solution before (seen ++ [name]) decls tags projects contexts circuit := by
  refine { drawn with named := ?_ }
  rw [drawn.named, eraseDups_concat, if_pos known]

theorem addProject
    (drawn : Drawn solution before (decls.map (·.project)) decls tags projects contexts circuit)
    {name : String} (unknown : name ∉ decls.map (·.project))
    (adds : circuit.Appends Circuit.solution [id] final)
    (held : final.get? id = some ⟨name, .project, some Circuit.solution, [], none, none⟩) :
    Drawn solution before (decls.map (·.project) ++ [name]) decls tags
      (projects ++ [(name, id)]) contexts final := by
  have settles := drawn.settles adds
  refine ⟨?_, drawn.eachTag.imp fun _ _ old => old.settles settles, ?_, ?_, ?_, drawn.ascending⟩
  · rw [adds.atOwner drawn.root]
    simp
  · rw [List.map_append, drawn.named, eraseDups_concat, if_neg unknown]
    rfl
  · intro project member
    rcases List.mem_append.mp member with old | new
    · exact adds.apart drawn.root (drawn.eachProject project old) (by simp)
    · rw [List.mem_singleton.mp new, held, filter_project_nil unknown, List.map_nil]
  · refine drawn.eachContext.imp fun decl context old => ?_
    refine ContextDecl.DepictedBy.keep old adds drawn.root rfl (by simp)
      fun name project known => ?_
    rw [List.lookup_append, known]
    rfl

end Drawn

theorem ensureProject_ok
    (drawn : Drawn solution before (decls.map (·.project)) decls tags projects contexts circuit)
    (name : String) : ∃ project others final,
      ensureProject name projects circuit = .ok (project, others) final ∧
      others.lookup name = some project ∧
      Drawn solution before (decls.map (·.project) ++ [name]) decls tags others contexts final := by
  unfold ensureProject
  cases known : projects.lookup name with
  | some id =>
      have isSeen := drawn.mem_seen.mp (Option.isSome_of_eq_some known)
      exact ⟨id, projects, circuit, rfl, known, drawn.nameAgain isSeen⟩
  | none =>
      have unknown : name ∉ decls.map (·.project) := by simp [← drawn.mem_seen, known]
      have added := Build.push_ok (Circuit.get?_lt drawn.root) name .project
      refine ⟨_, _, _, Build.bind_ok added, ?_, drawn.addProject unknown
        (Circuit.Appends.plant circuit Circuit.solution [] name .project)
        (Circuit.get?_plant_new circuit Circuit.solution [] name .project)⟩
      simp [List.lookup_append, known]

theorem filter_project_concat (sameLength : decls.length = contexts.length) {decl : ContextDecl}
    {name : String} :
    (((decls ++ [decl]).zip (contexts ++ [context])).filter (·.1.project == name)).map (·.2) =
      ((decls.zip contexts).filter (·.1.project == name)).map (·.2) ++
        if name = decl.project then [context] else [] := by
  rw [List.zip_append sameLength, List.filter_append, List.map_append]
  by_cases same : name = decl.project
  · simp [same]
  · simp [same, Ne.symm same]

namespace Drawn

theorem project_name (drawn : Drawn solution before seen decls tags projects contexts circuit)
    {name : String} (known : projects.lookup name = some id) :
    ∀ project ∈ projects, project.1 = name ↔ project.2 = id := by
  -- Projects have different names, and each is the element that its name stands for.
  have unique : (projects.map (·.1)).Nodup := drawn.named ▸ nodup_eraseDups seen
  rintro ⟨label, other⟩ member
  have listed := mem_of_lookup known
  constructor
  · rintro rfl
    exact congrArg Prod.snd (List.inj_on_of_nodup_map unique member listed rfl)
  · rintro rfl
    have held := drawn.eachProject _ member
    rw [drawn.eachProject _ listed] at held
    cases held
    rfl

theorem close {seen : List String} {decl : ContextDecl} {project : Nat}
    (drawn : Drawn solution before seen decls tags projects contexts circuit)
    (known : projects.lookup decl.project = some project)
    (adds : circuit.Appends project [context] final)
    (depicted : decl.DepictedBy final tags projects context) :
    Drawn solution before seen (decls ++ [decl]) tags projects (contexts ++ [context]) final := by
  obtain ⟨element, held, isProject⟩ := drawn.isProject known
  have contains : element.kind.isContainer := by rw [isProject]; rfl
  refine ⟨adds.apart held drawn.root (by simp [isProject]),
    drawn.eachTag.imp fun _ _ old => old.settles (adds.settles held contains), drawn.named, ?_, ?_,
    drawn.ascending.1, ?_⟩
  · intro other member
    rw [adds.kept _ _ (drawn.eachProject other member),
      filter_project_concat drawn.eachContext.length_eq]
    have named := drawn.project_name known other member
    by_cases same : other.2 = project
    · simp [same, named.mpr same]
    · simp [same, mt named.mp same]
  · refine List.rel_append (drawn.eachContext.imp fun decl context old => ?_)
      (.cons depicted .nil)
    exact ContextDecl.DepictedBy.keep old adds held contains (by simp [isProject])
      fun _ _ known => known
  · refine List.pairwise_append.mpr
      ⟨drawn.ascending.2, List.pairwise_singleton _ _, fun old member new isNew => ?_⟩
    obtain ⟨decl, _, depicted⟩ := exists_related drawn.eachContext member
    obtain ⟨_, found, _⟩ := ContextDecl.DepictedBy.isContext depicted
    exact (Circuit.get?_lt found).trans_le (adds.fresh new isNew).1

end Drawn

theorem Drawn.ready (drawn : Drawn solution before seen decls tags projects contexts circuit)
    {name : String} {project : Nat} (known : projects.lookup name = some project)
    (label : String) : Ready tags circuit.size (circuit.plant project [] label .context) := by
  obtain ⟨element, held, isProject⟩ := drawn.isProject known
  have settles := (Circuit.Appends.plant circuit project [] label .context).settles held
    (by rw [isProject]; rfl)
  exact ⟨⟨_, Circuit.get?_plant_new circuit project [] label .context, rfl, by simp⟩,
    fun named member => isTag_settles settles (drawn.tagged named member)⟩

theorem ContextDecl.drawable_iff {decl : ContextDecl} {known : List String} :
    decl.Drawable known ↔ ((decl.blocks.map (·.name)).Nodup ∧
      ∀ block ∈ decl.blocks, block.Drawable known) ∧
        ∀ wire ∈ decl.wires, wire.Drawable decl.blocks :=
  ⟨fun ⟨distinct, blocks, wires⟩ => ⟨⟨distinct, blocks⟩, wires⟩,
    fun ⟨⟨distinct, blocks⟩, wires⟩ => ⟨distinct, blocks, wires⟩⟩

theorem Drawn.fill (drawn : Drawn solution before seen decls tags projects contexts circuit)
    {decl : ContextDecl} {project : Nat} (known : projects.lookup decl.project = some project)
    {blocks : Names} {filled : Circuit} (drawnBlocks : DrawnBlocks tags circuit.size decl.blocks
      (circuit.plant project [] decl.name .context) blocks filled) {wires : List Nat}
    (adds : filled.Appends circuit.size wires final)
    (eachWire : List.Forall₂ (fun wire wireId =>
      wire.DepictedBy final decl.blocks blocks circuit.size wireId) decl.wires wires) :
    Drawn solution before seen (decls ++ [decl]) tags projects (contexts ++ [circuit.size])
      final := by
  have first := Circuit.Appends.plant circuit project [] decl.name .context
  have planted := Circuit.get?_plant_new circuit project [] decl.name .context
  have inner := drawnBlocks.adds.trans adds
  have settles := ((drawn.ready known decl.name).adds drawnBlocks.adds).settles adds
  refine drawn.close known (first.inside inner (Nat.le_refl _)) ⟨project, blocks, wires, known, ?_,
    drawnBlocks.each.imp fun _ _ depicted => depicted.settles settles, eachWire⟩
  exact inner.atOwner planted

theorem Drawn.fill_yields (drawn : Drawn solution before seen decls tags projects contexts circuit)
    {decl : ContextDecl} {project : Nat} (known : projects.lookup decl.project = some project)
    {next : Build Unit} {condition : Prop} {outcome : Unit → Circuit → Prop}
    (onward : ∀ final, Drawn solution before seen (decls ++ [decl]) tags projects
      (contexts ++ [circuit.size]) final → next.Yields final condition outcome) :
    Build.Yields (do
      let blocks ← addBlocks circuit.size tags decl.blocks []
      decl.wires.forM (addWire circuit.size blocks)
      next) (circuit.plant project [] decl.name .context)
      (decl.Drawable (before.map (·.name)) ∧ condition) outcome := by
  have ready := drawn.ready known decl.name
  have none : (([] : Names).map (·.1)).Nodup := List.nodup_nil
  have same : decl.Drawable (tags.map (·.1)) ∧ condition ↔
      ((([] : Names).map (·.1) ++ decl.blocks.map (·.name)).Nodup ∧
        ∀ block ∈ decl.blocks, block.Drawable (tags.map (·.1))) ∧
      (∀ wire ∈ decl.wires, wire.Drawable decl.blocks) ∧ condition := by
    rw [ContextDecl.drawable_iff, and_assoc]
    rfl
  rw [← drawn.tagNames]
  refine Build.Yields.iff ((addBlocks_yields decl.blocks ready none).bind ?_) same
  rintro _ filled - ⟨blocks, rfl, drawnBlocks⟩
  refine (addWires_yields decl.wires (ready.adds drawnBlocks.adds) drawnBlocks.each).bind ?_
  rintro _ final - ⟨wires, adds, eachWire⟩
  exact onward final (drawn.fill known drawnBlocks adds eachWire)

/-- Contexts are added if they can be drawn, each to the project of its name. -/
theorem addContexts_yields (rest : List ContextDecl)
    (drawn : Drawn solution before (decls.map (·.project)) decls tags projects contexts circuit) :
    Build.Yields (addContexts tags rest projects) circuit
      (∀ decl ∈ rest, decl.Drawable (before.map (·.name)))
      fun _ final => ∃ projects contexts, Drawn solution before ((decls ++ rest).map (·.project))
        (decls ++ rest) tags projects contexts final := by
  induction rest generalizing circuit decls projects contexts with
  | nil =>
      refine (Build.yields_ok rfl ⟨projects, contexts, ?_⟩).iff (by simp)
      rwa [List.append_nil]
  | cons decl rest ih =>
      obtain ⟨project, projects, opened, ensured, known, drawn⟩ :=
        ensureProject_ok drawn decl.project
      obtain ⟨element, held, isProject⟩ := drawn.isProject known
      unfold addContexts
      refine .after ensured (.after (Build.addContext_ok held isProject decl.name) ?_)
      refine Build.Yields.iff (drawn.fill_yields known fun final closed => ?_) List.forall_mem_cons
      rw [← List.map_singleton, ← List.map_append] at closed
      rw [List.append_cons]
      exact ih closed

end RelayLogic.Diagram
