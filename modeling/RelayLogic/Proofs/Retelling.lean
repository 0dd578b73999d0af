import RelayLogic.Proofs.Renaming
import RelayLogic.Proofs.Saving
import Mathlib.Data.List.Forall2

/-!
Netlists of circuits under other handles. What is written of an element is the number of its record,
so entries that differ in the handles alone are written alike.
-/

namespace RelayLogic

namespace Netlist

def Entry.renamed (rename : ElementId → ElementId) (entry : Entry) : Entry :=
  ⟨entry.element.map rename, entry.record.map rename⟩

/-- Whether an entry that does not fail is another one under other handles. It declares nothing but
what is kept. -/
def Retells (kept : ElementId → Bool) (rename : ElementId → ElementId)
    (first second : Except Error Entry) : Prop :=
  ∃ entry, first = .ok entry ∧ second = .ok (entry.renamed rename) ∧
    ∀ id ∈ entry.element, kept id

def Numbers.renamed (rename : ElementId → ElementId) (numbers : Numbers) : Numbers :=
  numbers.map fun (id, number) => (rename id, number)

variable {kept : ElementId → Bool} {rename : ElementId → ElementId}

theorem Entry.number_renamed (entry : Entry) (count : Nat) (numbers : Numbers) :
    (entry.renamed rename).number count (numbers.renamed rename) =
      (entry.number count numbers).renamed rename := by
  obtain ⟨element, record⟩ := entry
  cases element <;> rfl

theorem Numbers.lookup_renamed (injective : Set.InjOn rename {id | kept id}) {numbers : Numbers}
    (among : ∀ id number, (id, number) ∈ numbers → kept id) {target : ElementId} {number : Nat}
    (found : numbers.lookup target = some number) :
    (numbers.renamed rename).lookup (rename target) = some number := by
  induction numbers with
  | nil => contradiction
  | cons first rest ih =>
      obtain ⟨id, known⟩ := first
      have later := ih fun other place member => among other place (List.mem_cons_of_mem _ member)
      simp only [renamed, List.map_cons, List.lookup_cons] at found later ⊢
      by_cases same : target = id
      · subst same
        simpa using found
      · simp only [beq_eq_false_iff_ne.mpr same] at found
        obtain ⟨before, after, rest_eq, _⟩ := List.lookup_eq_some_iff.mp found
        have targetKept := among target number (by simp [rest_eq])
        have apart : rename target ≠ rename id := fun equal =>
          same (injective targetKept (among id known List.mem_cons_self) equal)
        simp only [beq_eq_false_iff_ne.mpr apart]
        exact later found

theorem encodeFields_renamed {numbers copies : Numbers}
    (known : ∀ target number, numbers.lookup target = some number →
      copies.lookup (rename target) = some number) {fields : List (Field ElementId)}
    {bytes : List UInt8} (done : encodeFields numbers fields = (bytes, none)) :
    encodeFields copies (fields.map (Field.map rename)) = (bytes, none) := by
  induction fields generalizing bytes with
  | nil => exact done
  | cons field fields ih =>
      simp only [encodeFields] at done
      split at done
      next => simp at done
      next first written =>
        obtain ⟨rfl, none⟩ := Prod.mk.inj done
        have again : (field.map rename).encode copies = .ok first := by
          cases field with
          | reference target =>
              simp only [Field.encode] at written
              split at written
              next number found =>
                simp only [Field.map, Field.encode, known target number found]
                exact written
              next => contradiction
          | _ => exact written
        simp only [List.map_cons, encodeFields, again, ih (Prod.ext rfl none)]

theorem encodeEntries_renamed (injective : Set.InjOn rename {id | kept id})
    {entries copies : Entries} (retells : List.Forall₂ (Retells kept rename) entries copies)
    {count : Nat} {numbers : Numbers} (among : ∀ id number, (id, number) ∈ numbers → kept id)
    {bytes : List UInt8} (done : encodeEntries count numbers entries = (bytes, none)) :
    encodeEntries count (numbers.renamed rename) copies = (bytes, none) := by
  induction retells generalizing count numbers bytes with
  | nil => exact done
  | @cons first second entries copies retold _ ih =>
      obtain ⟨entry, rfl, rfl, declares⟩ := retold
      have grown : ∀ id number, (id, number) ∈ entry.number count numbers → kept id := by
        intro id number member
        unfold Entry.number at member
        split at member
        next element declared =>
          rcases List.mem_cons.mp member with same | old
          · cases same
            exact declares id declared
          · exact among id number old
        next => exact among id number member
      obtain ⟨fields, more, written, rest⟩ := encodeEntries_ok_cons done
      have again := encodeFields_renamed (fun _ _ => Numbers.lookup_renamed injective grown) written
      have restAgain := ih grown rest
      rw [encodeEntries_cons written rest] at done
      rw [← Record.fields_map, ← Entry.number_renamed] at again
      rw [← Entry.number_renamed] at restAgain
      rw [encodeEntries_cons again restAgain, ← done]
      simp only [Entry.renamed, Record.command_map]

end Netlist

open Netlist (Entry Entries Retells ownerEntries)

theorem Kind.Owns.nests_context {kind : Kind} (owns : Kind.context.Owns kind)
    (notMemory : ∀ latch, kind ≠ .memory latch) : Kind.context.Nests kind := by
  cases kind with
  | memory latch => exact absurd rfl (notMemory latch)
  | pin point => exact owns.imp_right (And.imp_left (Or.imp_left fun _ => rfl))
  | wire _ | signal _ | gate _ | timer _ _ => rfl
  | _ => exact owns

namespace Circuit

structure Tells (circuit : Circuit) (kept : ElementId → Bool) : Prop where
  groups : ∀ id element, circuit.get? id = some element →
    element.kind.isContainer ∨ element.kind.isTag → kept id
  members : ∀ id element, circuit.get? id = some element → element.kind = .context →
    ∀ child ∈ circuit.children id, kept child
  parts : ∀ id element, circuit.get? id = some element → kept id →
    element.kind.isSignal ∨ element.kind.isLogic → ∀ pin ∈ circuit.pinsOf id, kept pin

variable {circuit copy : Circuit} {kept : ElementId → Bool} {rename : Nat → Nat}

theorem forall₂_flatMap_filter {children : List ElementId} {view twin : ElementId → List α}
    {relation : α → α → Prop}
    (each : ∀ child ∈ children, kept child →
      List.Forall₂ relation (view child) (twin (rename child)))
    (others : ∀ child ∈ children, kept child = false → view child = []) :
    List.Forall₂ relation (children.flatMap view)
      (((children.filter kept).map rename).flatMap twin) := by
  induction children with
  | nil => exact .nil
  | cons child children ih =>
      have rest := ih (fun other member => each other (List.mem_cons_of_mem _ member))
        fun other member => others other (List.mem_cons_of_mem _ member)
      cases keeps : kept child with
      | true =>
          rw [List.filter_cons_of_pos keeps, List.map_cons, List.flatMap_cons, List.flatMap_cons]
          exact List.rel_append (each child List.mem_cons_self keeps) rest
      | false =>
          rw [List.filter_cons_of_neg (by simp [keeps]), List.flatMap_cons,
            others child List.mem_cons_self keeps]
          exact rest

theorem contextEntries_eq_nil {id : ElementId} {element : Element}
    (held : circuit.get? id = some element) (notContext : element.kind ≠ .context) :
    circuit.contextEntries id = [] := by
  simp only [contextEntries, element_ok_iff.mpr held]

theorem topEntries_eq_nil {id : ElementId} {element : Element}
    (held : circuit.get? id = some element) (notTag : element.kind.isTag = false)
    (notProject : element.kind ≠ .project) : circuit.topEntries id = [] := by
  simp only [topEntries, element_ok_iff.mpr held]
  cases kind : element.kind with
  | tag _ _ =>
      rw [kind] at notTag
      contradiction
  | project => exact absurd kind notProject
  | _ => rfl

theorem retells_owner {id : ElementId} (isKept : kept id) {pins : List ElementId}
    (pinsKept : ∀ pin ∈ pins, kept pin) (record : Netlist.Record ElementId) :
    List.Forall₂ (Retells kept rename) (ownerEntries id pins record)
      (ownerEntries (rename id) (pins.map rename) (record.map rename)) := by
  refine List.rel_append ?_ (.cons ⟨_, rfl, rfl, by simpa using isKept⟩ .nil)
  rw [List.map_map, List.forall₂_map_left_iff, List.forall₂_map_right_iff, List.forall₂_same]
  exact fun pin member => ⟨_, rfl, rfl, by simpa using pinsKept pin member⟩

namespace Extracts

variable (extracts : circuit.Extracts kept rename copy)

include extracts

theorem tagOf {id : ElementId} (isKept : kept id) :
    copy.tagOf (rename id) = (circuit.tagOf id).map rename := by
  obtain ⟨element, twin, held, twinHeld, isTwin⟩ := extracts.twin isKept
  obtain ⟨name, kind, owner, children, evaluator, block⟩ := element
  obtain ⟨twinName, twinKind, twinOwner, twinChildren, twinEvaluator, twinBlock⟩ := twin
  obtain rfl := isTwin.kind
  simp only [Circuit.tagOf, held, twinHeld]
  cases kind <;> rfl

theorem retells_bindings {entries copies : Entries}
    (retells : List.Forall₂ (Retells kept rename) entries copies) :
    List.Forall₂ (Retells kept rename) (circuit.bindingEntries entries)
      (copy.bindingEntries copies) := by
  refine List.rel_filterMap (fun first second retold => ?_) retells
  obtain ⟨⟨element, record⟩, rfl, rfl, declares⟩ := retold
  cases element with
  | none => exact .none
  | some id =>
      cases record with
      | signal pins =>
          change Option.Rel _ ((circuit.tagOf id).map _) ((copy.tagOf (rename id)).map _)
          rw [extracts.tagOf (declares id rfl)]
          cases circuit.tagOf id with
          | none => exact .none
          | some tag => exact .some ⟨_, rfl, rfl, by simp⟩
      | _ => exact .none

variable (tells : circuit.Tells kept) {id : ElementId} {element : Element}
  (held : circuit.get? id = some element) (isKept : kept id)

include tells held isKept

theorem retells_member (nests : Kind.context.Nests element.kind) :
    List.Forall₂ (Retells kept rename) (circuit.memberEntries id)
      (copy.memberEntries (rename id)) := by
  obtain ⟨twin, twinHeld, isTwin⟩ := extracts.each id element held isKept
  have owner := fun parts => @retells_owner kept rename id isKept _
    (tells.parts id element held isKept parts)
  have pins := fun parts => extracts.pinsOf isKept (tells.parts id element held isKept parts)
  have element_ok := element_ok_iff.mpr held
  have twin_ok := element_ok_iff.mpr twinHeld
  cases kind : element.kind with
  | pin point =>
      simp only [memberEntries, element_ok, twin_ok, isTwin.kind, kind, Kind.renamed]
      exact .cons ⟨_, rfl, rfl, by simpa using isKept⟩ .nil
  | wire wire =>
      simp only [memberEntries, element_ok, twin_ok, isTwin.kind, kind, Kind.renamed]
      exact .cons ⟨_, rfl, rfl, by simpa using isKept⟩ .nil
  | signal tag =>
      have isSignal : element.kind.isSignal ∨ element.kind.isLogic := by rw [kind]; exact Or.inl rfl
      simp only [memberEntries, element_ok, twin_ok, isTwin.kind, kind, Kind.renamed,
        pins isSignal]
      exact owner isSignal _
  | gate gate =>
      have isLogic : element.kind.isSignal ∨ element.kind.isLogic := by rw [kind]; exact Or.inr rfl
      simp only [memberEntries, element_ok, twin_ok, isTwin.kind, kind, Kind.renamed, pins isLogic]
      exact owner isLogic _
  | timer timer delay =>
      have isLogic : element.kind.isSignal ∨ element.kind.isLogic := by rw [kind]; exact Or.inr rfl
      simp only [memberEntries, element_ok, twin_ok, isTwin.kind, kind, Kind.renamed, pins isLogic]
      exact owner isLogic _
  | _ => simp [kind, Kind.Nests] at nests

variable (tree : circuit.Tree Kind.Owns)
  (noMemory : ∀ id element latch, circuit.get? id = some element → kept id →
    element.kind ≠ .memory latch)

include tree noMemory

theorem retells_context : List.Forall₂ (Retells kept rename) (circuit.contextEntries id)
    (copy.contextEntries (rename id)) := by
  obtain ⟨twin, twinHeld, isTwin⟩ := extracts.each id element held isKept
  by_cases isContext : element.kind = .context
  · simp only [contextEntries, element_ok_iff.mpr held, element_ok_iff.mpr twinHeld, isTwin.kind,
      isTwin.children, isContext, Kind.renamed]
    have members := tells.members id element held isContext
    simp only [children, held] at members
    refine .cons ⟨_, rfl, rfl, by simpa using isKept⟩ (forall₂_flatMap_filter ?_ ?_)
    · intro child member childKept
      have listed : child ∈ circuit.children id := by simpa only [children, held] using member
      obtain ⟨other, childHeld, owns⟩ := tree.nested held isContext listed
      exact extracts.retells_member tells childHeld childKept
        (owns.nests_context (noMemory child other · childHeld childKept))
    · intro child member dropped
      rw [members child member] at dropped
      contradiction
  · have twinNot : twin.kind ≠ .context := by
      rw [isTwin.kind]
      cases kind : element.kind <;> simp [kind, Kind.renamed] at isContext ⊢
    rw [contextEntries_eq_nil held isContext, contextEntries_eq_nil twinHeld twinNot]
    exact .nil

theorem retells_top : List.Forall₂ (Retells kept rename) (circuit.topEntries id)
    (copy.topEntries (rename id)) := by
  obtain ⟨twin, twinHeld, isTwin⟩ := extracts.each id element held isKept
  have element_ok := element_ok_iff.mpr held
  have twin_ok := element_ok_iff.mpr twinHeld
  cases kind : element.kind with
  | tag initial properties =>
      simp only [topEntries, element_ok, twin_ok, isTwin.kind, kind, Kind.renamed,
        isTwin.name (by rw [kind]; rfl)]
      exact .cons ⟨_, rfl, rfl, by simpa using isKept⟩ .nil
  | project =>
      simp only [topEntries, element_ok, twin_ok, isTwin.kind, isTwin.children, kind, Kind.renamed]
      refine .cons ⟨_, rfl, rfl, by simpa using isKept⟩ (forall₂_flatMap_filter ?_ ?_)
      · intro child member childKept
        obtain ⟨other, childHeld, _⟩ := tree.child id element held child member
        exact extracts.retells_context tells childHeld childKept tree noMemory
      · intro child member dropped
        obtain ⟨other, childHeld, _⟩ := tree.child id element held child member
        refine contextEntries_eq_nil childHeld fun isContext => ?_
        rw [tells.groups child other childHeld (by rw [isContext]; exact Or.inl rfl)] at dropped
        contradiction
  | _ =>
      rw [topEntries_eq_nil held (by rw [kind]; rfl) (by simp [kind]),
        topEntries_eq_nil twinHeld (by rw [isTwin.kind, kind]; rfl)
          (by simp [isTwin.kind, kind, Kind.renamed])]
      exact .nil

omit held isKept

theorem retells : List.Forall₂ (Retells kept rename) circuit.entries copy.entries := by
  obtain ⟨root, held, isSolution, _⟩ := tree.root
  have rootKept := tells.groups _ root held (by rw [isSolution]; exact Or.inl rfl)
  obtain ⟨twin, twinHeld, isTwin⟩ := extracts.each _ root held rootKept
  rw [extracts.fixed] at twinHeld
  have tops : List.Forall₂ (Retells kept rename)
      ((circuit.children solution).flatMap circuit.topEntries)
      ((copy.children solution).flatMap copy.topEntries) := by
    simp only [children, held, twinHeld, isTwin.children]
    refine forall₂_flatMap_filter (fun child member childKept => ?_) fun child member dropped => ?_
    · obtain ⟨other, childHeld, _⟩ := tree.child _ root held child member
      exact extracts.retells_top tells childHeld childKept tree noMemory
    · obtain ⟨other, childHeld, _⟩ := tree.child _ root held child member
      have hidden : ¬(other.kind.isContainer ∨ other.kind.isTag) := fun grouped => by
        rw [tells.groups child other childHeld grouped] at dropped
        contradiction
      rw [not_or, Bool.not_eq_true, Bool.not_eq_true] at hidden
      refine topEntries_eq_nil childHeld hidden.2 fun isProject => ?_
      rw [isProject] at hidden
      exact absurd hidden.1 (by simp [Kind.isContainer])
  have first : Retells kept rename (.ok ⟨some solution, .solution⟩)
      (.ok ⟨some solution, .solution⟩) :=
    ⟨_, rfl, by simp [Entry.renamed, extracts.fixed, Netlist.Record.map], by simpa using rootKept⟩
  exact List.rel_append (.cons first tops) (extracts.retells_bindings tops)

theorem kept_of_entry {entry : Entry} (member : .ok entry ∈ circuit.entries) :
    ∀ id ∈ entry.element, kept id := by
  have each : List.Forall₂ (fun first second => (∀ entry, first = .ok entry →
      ∀ id ∈ entry.element, kept id) ∧ Retells kept rename first second)
        circuit.entries copy.entries := by
    refine (extracts.retells tells tree noMemory).imp fun first second retold => ⟨?_, retold⟩
    obtain ⟨entry, rfl, _, declares⟩ := retold
    exact fun other same => Except.ok.inj same ▸ declares
  exact ((List.forall₂_and_left _ _).mp each).1 _ member entry rfl

theorem encode {bytes : List UInt8} (encoded : circuit.encode = .ok bytes) :
    copy.encode = .ok bytes := by
  have retold := extracts.retells tells tree noMemory
  unfold Circuit.encode at encoded ⊢
  split at encoded
  next written =>
    have again : copy.encodePartial = _ := Netlist.encodeEntries_renamed
      extracts.bijective.injOn retold (by simp) written
    rw [again]
    exact encoded
  next => contradiction

end Extracts

end Circuit

end RelayLogic
