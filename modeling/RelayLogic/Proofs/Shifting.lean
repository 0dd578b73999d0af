import RelayLogic.Proofs.Cycle
import RelayLogic.Proofs.Regrouping

/-!
Cells under other numbers. A strategy that reads the same values from other cells, in whatever
order, computes the same.
-/

namespace RelayLogic

def Binding.moved (shift : Nat → Nat) (binding : Binding) : Binding :=
  { binding with source := shift binding.source }

theorem Binding.readOnly_eq (bindings : List Binding) (states : States) :
    readOnly bindings states =
      match bindings.map (·.read states) with
      | [value] => value
      | _ => .unknown := by
  match bindings with
  | [] => rfl
  | [_] => rfl
  | _ :: _ :: _ => rfl

def GateKind.neutral : GateKind → Tri
  | .and => .true
  | .or => .false

theorem GateKind.apply_neutral (kind : GateKind) (value : Tri) :
    kind.apply kind.neutral value = value := by
  cases kind <;> cases value <;> rfl

instance (kind : GateKind) : RightCommutative kind.apply where
  right_comm first second third := by
    cases kind <;> cases first <;> cases second <;> cases third <;> rfl

theorem GateKind.evaluate_eq (kind : GateKind) (bindings : List Binding) (states : States) :
    kind.evaluate bindings states =
      if (bindings.map (·.read states)).length < 2 then .unknown
      else (bindings.map (·.read states)).foldl kind.apply kind.neutral := by
  match bindings with
  | [] => rfl
  | [_] => rfl
  | first :: second :: rest =>
      rw [List.map_cons, List.foldl_cons, apply_neutral, List.foldl_map]
      rfl

namespace Strategy

/-- Whether a strategy does what another one does, on other cells. -/
structure Moves (shift : Nat → Nat) (strategy twin : Strategy) : Prop where
  behaviour : twin.behaviour = strategy.behaviour
  bindings : twin.bindings.Perm (strategy.bindings.map (Binding.moved shift))

variable {shift : Nat → Nat} {strategy twin : Strategy} {states others : States}

/-- What a strategy computes depends on the values that it reads, and not on their order. -/
theorem calculate_perm (same : twin.behaviour = strategy.behaviour)
    (reads : (twin.bindings.map (·.read others)).Perm (strategy.bindings.map (·.read states)))
    (now : Nat) : (twin.calculate others now).1 = (strategy.calculate states now).1 ∧
      (twin.calculate others now).2.behaviour = (strategy.calculate states now).2.behaviour := by
  have only : Binding.readOnly twin.bindings others =
      Binding.readOnly strategy.bindings states := by
    rw [Binding.readOnly_eq, Binding.readOnly_eq]
    generalize twin.bindings.map (·.read others) = twins at reads
    generalize strategy.bindings.map (·.read states) = values at reads
    match values with
    | [] => rw [reads.eq_nil]
    | [_] => rw [reads.eq_singleton]
    | first :: second :: rest =>
        match twins, reads.length_eq with
        | _ :: _ :: _, _ => rfl
  have folded : ∀ kind : GateKind, kind.evaluate twin.bindings others =
      kind.evaluate strategy.bindings states := by
    intro kind
    rw [GateKind.evaluate_eq, GateKind.evaluate_eq, reads.length_eq, reads.foldl_eq]
  simp only [calculate, same, only, folded]
  cases strategy.behaviour <;> exact ⟨rfl, by simp only [same]⟩

theorem Moves.calculate (moves : Moves shift strategy twin)
    (agree : ∀ source ∈ strategy.dependencies,
      others.getD (shift source) .unknown = states.getD source .unknown) (now : Nat) :
    (twin.calculate others now).1 = (strategy.calculate states now).1 ∧
      Moves shift (strategy.calculate states now).2 (twin.calculate others now).2 := by
  have read : ∀ binding ∈ strategy.bindings,
      (binding.moved shift).read others = binding.read states := by
    intro binding member
    have source : binding.source ∈ strategy.dependencies := by
      rw [dependencies, List.mem_eraseDups]
      exact List.mem_map_of_mem member
    rw [Binding.read, Binding.read, ← agree _ source]
    rfl
  have reads : (twin.bindings.map (·.read others)).Perm
      (strategy.bindings.map (·.read states)) := by
    refine (moves.bindings.map _).trans (List.Perm.of_eq ?_)
    rw [List.map_map]
    exact List.map_congr_left read
  obtain ⟨value, behaviour⟩ := calculate_perm moves.behaviour reads now
  refine ⟨value, behaviour, ?_⟩
  rw [calculate_bindings, calculate_bindings]
  exact moves.bindings

theorem Moves.isEvaluable (moves : Moves shift strategy twin) :
    twin.isEvaluable = strategy.isEvaluable := by
  rw [Strategy.isEvaluable, Strategy.isEvaluable, moves.behaviour, moves.bindings.isEmpty_eq,
    List.isEmpty_map]

theorem filter_eraseDups (list : List Nat) (kept : Nat → Bool) :
    list.eraseDups.filter kept = (list.filter kept).eraseDups := by
  induction length : list.length using Nat.strongRecOn generalizing list with
  | ind bound ih =>
      cases list with
      | nil => rfl
      | cons first rest =>
          have shorter := List.length_filter_le (fun other => !other == first) rest
          rw [List.length_cons] at length
          rw [List.eraseDups_cons]
          by_cases isKept : kept first
          · rw [List.filter_cons_of_pos isKept, List.filter_cons_of_pos isKept,
              List.eraseDups_cons, ih _ (by omega) _ rfl, List.filter_comm]
          · rw [List.filter_cons_of_neg isKept, List.filter_cons_of_neg isKept,
              ih _ (by omega) _ rfl, List.filter_filter]
            congr 1
            refine List.filter_congr fun other _ => ?_
            cases same : other == first
            · simp
            · simpa [beq_iff_eq.mp same] using isKept

theorem map_eraseDups (injective : Function.Injective shift) (list : List Nat) :
    (list.map shift).eraseDups = list.eraseDups.map shift := by
  induction length : list.length using Nat.strongRecOn generalizing list with
  | ind bound ih =>
      cases list with
      | nil => rfl
      | cons first rest =>
          have shorter := List.length_filter_le (fun other => !other == first) rest
          rw [List.length_cons] at length
          rw [List.map_cons, List.eraseDups_cons, List.eraseDups_cons, List.map_cons,
            ← ih _ (by omega) _ rfl, List.filter_map]
          refine congrArg _ (congrArg _ (congrArg _ (List.filter_congr fun other _ => ?_)))
          simp [injective.eq_iff]

theorem Moves.dependencies (moves : Moves shift strategy twin)
    (injective : Function.Injective shift) :
    twin.dependencies.Perm (strategy.dependencies.map shift) := by
  refine (List.perm_ext_iff_of_nodup (nodup_eraseDups _)
    ((nodup_eraseDups _).map injective)).mpr fun source => ?_
  rw [← map_eraseDups injective, List.mem_eraseDups, List.mem_eraseDups,
    (moves.bindings.map _).mem_iff, List.map_map, List.map_map]
  rfl

theorem dependencies_kept {kept twinKept : Nat → Bool} (injective : Function.Injective shift)
    (ordered : twin.bindings.filter (twinKept ·.source) =
      (strategy.bindings.filter (kept ·.source)).map (Binding.moved shift)) :
    twin.dependencies.filter twinKept = (strategy.dependencies.filter kept).map shift := by
  have sources : ∀ (bindings : List Binding) (kept : Nat → Bool),
      (bindings.map (·.source)).filter kept =
        (bindings.filter (kept ·.source)).map (·.source) := fun _ _ => List.filter_map
  rw [dependencies, dependencies, filter_eraseDups, filter_eraseDups, ← map_eraseDups injective,
    sources, sources, ordered, List.map_map, List.map_map]
  rfl

end Strategy

theorem idxOf?_of_mem {list : List Nat} {item : Nat} (member : item ∈ list) :
    list.idxOf? item = some (list.idxOf item) := by
  cases found : list.idxOf? item with
  | none => exact absurd member (List.idxOf?_eq_none_iff.mp found)
  | some index => rw [List.idxOf_eq_getD_idxOf?, found, Option.getD_some]

def shiftSlot (rename : Nat → Nat) (slots twins : List Nat) (slot : Nat) : Nat :=
  match slots[slot]? with
  | some element => twins.idxOf (rename element)
  | none => slot

structure Shifts (rename : Nat → Nat) (slots twins : List Nat) (shift : Nat → Nat) : Prop where
  injective : Function.Injective shift
  getElem? : ∀ slot, twins[shift slot]? = slots[slot]?.map rename
  idxOf? : ∀ element, twins.idxOf? (rename element) = (slots.idxOf? element).map shift

theorem shifts_shiftSlot {rename : Nat → Nat} {slots twins : List Nat}
    (injective : Function.Injective rename) (unique : slots.Nodup)
    (perm : twins.Perm (slots.map rename)) :
    Shifts rename slots twins (shiftSlot rename slots twins) := by
  have length : twins.length = slots.length := by rw [perm.length_eq, List.length_map]
  have member : ∀ element, rename element ∈ twins ↔ element ∈ slots := fun element => by
    rw [perm.mem_iff, List.mem_map_of_injective injective]
  have inside : ∀ {slot : Nat} (bound : slot < slots.length),
      shiftSlot rename slots twins slot = twins.idxOf (rename slots[slot]) := by
    intro slot bound
    rw [shiftSlot, List.getElem?_eq_getElem bound]
  have outside : ∀ slot, ¬slot < slots.length → shiftSlot rename slots twins slot = slot := by
    intro slot beyond
    rw [shiftSlot, List.getElem?_eq_none (Nat.le_of_not_lt beyond)]
  constructor
  case injective =>
    refine injective_of_fixed (fun slot bound => ?_) outside
      fun first firstBound second secondBound same => ?_
    · rw [inside bound, ← length]
      exact List.idxOf_lt_length_of_mem ((member _).mpr (List.getElem_mem bound))
    · rw [inside firstBound, inside secondBound] at same
      have equal := (List.idxOf_inj ((member _).mpr (List.getElem_mem firstBound))).mp same
      exact unique.getElem_inj_iff.mp (injective equal)
  case getElem? =>
    intro slot
    by_cases bound : slot < slots.length
    · rw [inside bound, List.getElem?_idxOf ((member _).mpr (List.getElem_mem bound)),
        List.getElem?_eq_getElem bound, Option.map_some]
    · rw [outside slot bound, List.getElem?_eq_none (Nat.le_of_not_lt bound),
        List.getElem?_eq_none (length ▸ Nat.le_of_not_lt bound), Option.map_none]
  case idxOf? =>
    intro element
    by_cases listed : element ∈ slots
    · have bound := List.idxOf_lt_length_of_mem listed
      rw [idxOf?_of_mem ((member element).mpr listed), idxOf?_of_mem listed, Option.map_some,
        inside bound, List.getElem_idxOf]
    · rw [List.idxOf?_eq_none_iff.mpr listed,
        List.idxOf?_eq_none_iff.mpr fun isThere => listed ((member element).mp isThere),
        Option.map_none]

theorem shiftSlot_front {rename : Nat → Nat} {front back twinBack : List Nat}
    (unique : (front.map rename ++ twinBack).Nodup) {slot : Nat} (bound : slot < front.length) :
    shiftSlot rename (front ++ back) (front.map rename ++ twinBack) slot = slot := by
  have early : slot < (front.map rename ++ twinBack).length := by
    rw [List.length_append, List.length_map]
    omega
  have place := unique.idxOf_getElem slot early
  rw [List.getElem_append_left (by rwa [List.length_map]), List.getElem_map] at place
  rw [shiftSlot, List.getElem?_append_left bound, List.getElem?_eq_getElem bound]
  exact place

end RelayLogic
