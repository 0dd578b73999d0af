import RelayLogic.Proofs.Adding

/-!
Changes that succeed just in case a condition holds, and circuits to which elements are added below
one element. Both are put together step by step.
-/

namespace RelayLogic

namespace Build

variable {circuit : Circuit} {condition other : Prop} {outcome : α → Circuit → Prop}

/-- Whether a change succeeds just in case a condition holds, and with what outcome. -/
structure Yields (build : Build α) (circuit : Circuit) (condition : Prop)
    (outcome : α → Circuit → Prop) : Prop where
  ok : condition → ∃ answer final, build circuit = .ok answer final ∧ outcome answer final
  fails : ¬condition → ∃ error final, build circuit = .error error final

theorem yields_ok {build : Build α} {answer : α} {final : Circuit}
    (done : build circuit = .ok answer final) (holds : outcome answer final) :
    Yields build circuit True outcome :=
  ⟨fun _ => ⟨answer, final, done, holds⟩, fun never => absurd trivial never⟩

theorem yields_error {build : Build α} {error : Error} {final : Circuit}
    (failed : build circuit = .error error final) : Yields build circuit False outcome :=
  ⟨fun never => never.elim, fun _ => ⟨error, final, failed⟩⟩

namespace Yields

theorem iff {build : Build α} (yields : Yields build circuit condition outcome)
    (same : other ↔ condition) : Yields build circuit other outcome :=
  ⟨fun holds => yields.ok (same.mp holds), fun fails => yields.fails (mt same.mpr fails)⟩

theorem mono {build : Build α} {more : α → Circuit → Prop}
    (yields : Yields build circuit condition outcome)
    (implied : ∀ answer final, condition → outcome answer final → more answer final) :
    Yields build circuit condition more := by
  refine ⟨fun holds => ?_, yields.fails⟩
  obtain ⟨answer, final, done, reached⟩ := yields.ok holds
  exact ⟨answer, final, done, implied answer final holds reached⟩

theorem bind {first : Build α} {next : α → Build β} {last : β → Circuit → Prop}
    (yields : Yields first circuit condition outcome)
    (onward : ∀ answer changed, condition → outcome answer changed →
      Yields (next answer) changed other last) :
    Yields (first >>= next) circuit (condition ∧ other) last := by
  constructor
  case ok =>
    rintro ⟨holds, otherHolds⟩
    obtain ⟨answer, changed, done, reached⟩ := yields.ok holds
    rw [bind_ok done]
    exact (onward answer changed holds reached).ok otherHolds
  case fails =>
    intro not
    by_cases holds : condition
    · obtain ⟨answer, changed, done, reached⟩ := yields.ok holds
      rw [bind_ok done]
      exact (onward answer changed holds reached).fails fun otherHolds => not ⟨holds, otherHolds⟩
    · obtain ⟨error, final, failed⟩ := yields.fails holds
      exact ⟨error, final, bind_error failed⟩

theorem after {first : Build α} {next : α → Build β} {last : β → Circuit → Prop} {answer : α}
    {changed : Circuit} (done : first circuit = .ok answer changed)
    (yields : Yields (next answer) changed condition last) :
    Yields (first >>= next) circuit condition last := by
  have first : Yields first circuit True fun found final => found = answer ∧ final = changed :=
    yields_ok done ⟨rfl, rfl⟩
  refine (first.bind fun found final _ same => ?_).iff (true_and condition).symm.to_iff
  obtain ⟨rfl, rfl⟩ := same
  exact yields

theorem of_ok {build : Build α} {answer : α} {final : Circuit}
    (yields : Yields build circuit condition outcome) (done : build circuit = .ok answer final) :
    condition ∧ outcome answer final := by
  by_cases holds : condition
  · obtain ⟨found, reached, again, outcome⟩ := yields.ok holds
    rw [done] at again
    cases again
    exact ⟨holds, outcome⟩
  · obtain ⟨error, stopped, failed⟩ := yields.fails holds
    rw [done] at failed
    contradiction

end Yields

end Build

namespace Circuit

def ascribed (circuit : Circuit) (id : ElementId) (block : BlockRef) : Circuit :=
  circuit.update id fun element => { element with block := some block }

end Circuit

namespace Build

variable {circuit : Circuit} {id : ElementId} {element : Element}

theorem setBlock_ok (held : circuit.get? id = some element) (block : BlockRef) :
    setBlock id block circuit = .ok () (circuit.ascribed id block) :=
  change_ok held _

end Build

namespace Circuit

variable {circuit grown final : Circuit} {owner id : Nat} {new more : List Nat}

/-- What a circuit is after elements were added below one element: the others are as they were, and
that one lists some new ones as well. -/
structure Appends (circuit : Circuit) (owner : Nat) (new : List Nat) (final : Circuit) : Prop where
  kept : ∀ id element, circuit.get? id = some element → final.get? id = some { element with
    children := if id = owner then element.children ++ new else element.children }
  fresh : ∀ id ∈ new, circuit.size ≤ id ∧ id < final.size
  size : circuit.size ≤ final.size

namespace Appends

theorem refl (circuit : Circuit) (owner : Nat) : circuit.Appends owner [] circuit := by
  refine ⟨fun id element held => ?_, by simp, Nat.le_refl _⟩
  rw [List.append_nil, ite_self, held]

theorem trans (adds : circuit.Appends owner new grown) (next : grown.Appends owner more final) :
    circuit.Appends owner (new ++ more) final := by
  refine ⟨fun id element held => ?_, fun id member => ?_, adds.size.trans next.size⟩
  · rw [next.kept id _ (adds.kept id element held)]
    by_cases isOwner : id = owner
    · simp only [isOwner, ↓reduceIte, List.append_assoc]
    · simp only [isOwner, ↓reduceIte]
  · rcases List.mem_append.mp member with early | late
    · exact ⟨(adds.fresh id early).1, (adds.fresh id early).2.trans_le next.size⟩
    · exact ⟨adds.size.trans (next.fresh id late).1, (next.fresh id late).2⟩

theorem plant (circuit : Circuit) (owner : Nat) (pins : List (String × Pin)) (name : String)
    (kind : Kind) : circuit.Appends owner [circuit.size + pins.length]
      (circuit.plant owner pins name kind) := by
  refine ⟨fun id element held => get?_plant_old held owner pins name kind, fun id member => ?_, ?_⟩
  · rw [List.mem_singleton.mp member, size_plant]
    omega
  · rw [size_plant]
    omega

theorem inside {inner : Nat} (adds : circuit.Appends owner new grown)
    (next : grown.Appends inner more final) (isNew : circuit.size ≤ inner) :
    circuit.Appends owner new final := by
  refine ⟨fun id element held => ?_, fun id member => ?_, adds.size.trans next.size⟩
  · have different : id ≠ inner := Nat.ne_of_lt ((get?_lt held).trans_le isNew)
    rw [next.kept id _ (adds.kept id element held), if_neg different]
  · exact ⟨(adds.fresh id member).1, (adds.fresh id member).2.trans_le next.size⟩

theorem update (adds : circuit.Appends owner new grown) (isNew : circuit.size ≤ id)
    (change : Element → Element) : circuit.Appends owner new (grown.update id change) := by
  refine ⟨fun other element held => ?_, fun other member => ?_, ?_⟩
  · rw [get?_update_ne (Nat.ne_of_lt ((get?_lt held).trans_le isNew)), adds.kept other element held]
  · rw [size_update]
    exact adds.fresh other member
  · rw [size_update]
    exact adds.size

theorem mark (circuit : Circuit) (owner : Nat) (pins : List (String × Pin)) (name : String)
    (kind : Kind) (block : BlockRef) : circuit.Appends owner [circuit.size + pins.length]
      ((circuit.plant owner pins name kind).ascribed (circuit.size + pins.length) block) :=
  (Appends.plant circuit owner pins name kind).update (Nat.le_add_right _ _) _

theorem atOwner (adds : circuit.Appends owner new final) {container : Element}
    (held : circuit.get? owner = some container) : final.get? owner =
      some { container with children := container.children ++ new } := by
  rw [adds.kept owner container held, if_pos rfl]

theorem elsewhere (adds : circuit.Appends owner new final) {element : Element}
    (held : circuit.get? id = some element) (different : id ≠ owner) :
    final.get? id = some element := by
  rw [adds.kept id element held, if_neg different]

theorem apart (adds : circuit.Appends owner new final) {container element : Element}
    (ownerHeld : circuit.get? owner = some container) (held : circuit.get? id = some element)
    (different : element.kind ≠ container.kind) : final.get? id = some element := by
  refine adds.elsewhere held ?_
  rintro rfl
  rw [held] at ownerHeld
  exact different (congrArg Element.kind (Option.some.inj ownerHeld))

end Appends

theorem get?_mark (circuit : Circuit) (owner : Nat) (pins : List (String × Pin)) (name : String)
    (kind : Kind) (block : BlockRef) :
    ((circuit.plant owner pins name kind).ascribed (circuit.size + pins.length) block).get?
      (circuit.size + pins.length) = some ⟨name, kind, some owner,
        List.range' circuit.size pins.length, none, some block⟩ := by
  rw [Circuit.ascribed, get?_update_self, get?_plant_new]
  rfl

namespace Appends

theorem setBlock {element : Element} (adds : circuit.Appends owner new grown)
    (isNew : circuit.size ≤ id) (held : grown.get? id = some element) (block : BlockRef) :
    ∃ changed, Build.setBlock id block grown = .ok () changed ∧
      circuit.Appends owner new changed ∧
        changed.get? id = some { element with block := some block } := by
  refine ⟨_, Build.setBlock_ok held block, adds.update isNew _, ?_⟩
  rw [Circuit.ascribed, get?_update_self, held, Option.map_some]

theorem setProperties {element : Element} {initial : Tri} {old : List (String × String)}
    (adds : circuit.Appends owner new grown) (isNew : circuit.size ≤ id)
    (held : grown.get? id = some element) (isTag : element.kind = .tag initial old)
    (properties : List (String × String)) :
    ∃ changed, Build.setProperties id properties grown = .ok () changed ∧
      circuit.Appends owner new changed ∧
        changed.get? id = some { element with kind := .tag initial properties } := by
  refine ⟨_, Build.change_ok held _, adds.update isNew _, ?_⟩
  rw [get?_update_self, held, Option.map_some, isTag]

end Appends

def Settles (circuit final : Circuit) : Prop :=
  ∀ id element, circuit.get? id = some element → element.kind.isContainer = false →
    final.get? id = some element

theorem Appends.settles (adds : circuit.Appends owner new final) {container : Element}
    (held : circuit.get? owner = some container) (contains : container.kind.isContainer) :
    circuit.Settles final := by
  intro id element found plain
  refine adds.apart held found fun same => ?_
  rw [same, contains] at plain
  contradiction

end Circuit

end RelayLogic
