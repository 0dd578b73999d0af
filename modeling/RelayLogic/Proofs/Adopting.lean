import RelayLogic.Proofs.Moving
import Mathlib.Data.List.TakeWhile

/-!
Adoptions that fail. Children are moved one after the other and each is looked at only when its turn
comes, so an unknown handle leaves the moves before it done.
-/

namespace RelayLogic

namespace Circuit

variable {circuit : Circuit}

def firstKnown (circuit : Circuit) (children : List ElementId) : List ElementId :=
  children.takeWhile (· < circuit.size)

theorem lt_of_mem_firstKnown {children : List Nat} {child : Nat}
    (member : child ∈ circuit.firstKnown children) : child < circuit.size := by
  simpa using List.mem_takeWhile_imp member

end Circuit

namespace Build

variable {circuit : Circuit}

theorem ask_element_missing {id : Nat} (missing : circuit.size ≤ id) :
    ask (·.element id) circuit = .error (.elementNotFound id) circuit := by
  have unheld : circuit.get? id = none := Array.getElem?_eq_none missing
  have refused : circuit.element id = .error (.elementNotFound id) := by
    rw [Circuit.element, unheld]
  simp only [ask, refused]

theorem adopt_missing_owner {owner : Nat} (missing : circuit.size ≤ owner)
    (children : List ElementId) :
    adopt owner children circuit = .error (.elementNotFound owner) circuit :=
  bind_error (ask_element_missing missing)

theorem adopt_missing_child {owner missing : Nat} {before : List Nat} (known : owner < circuit.size)
    (exist : ∀ child ∈ before, child < circuit.size) (absent : circuit.size ≤ missing)
    (after : List ElementId) : adopt owner (before ++ missing :: after) circuit =
      .error (.elementNotFound missing) (circuit.moveChildren owner before) := by
  obtain ⟨element, held⟩ := Circuit.exists_get? known
  unfold adopt
  rw [bind_ok (ask_ok (Circuit.element_ok_iff.mpr held))]
  clear held known
  induction before generalizing circuit with
  | nil =>
      have stopped : (do
          let _ ← ask (·.element missing)
          modify fun circuit => circuit.moveChild owner missing : Build PUnit) circuit =
          .error (.elementNotFound missing) circuit := bind_error (ask_element_missing absent)
      rw [List.nil_append, List.forM_eq_forM, List.forM_cons, bind_error stopped]
      rfl
  | cons child before ih =>
      obtain ⟨element, held⟩ := Circuit.exists_get? (exist child List.mem_cons_self)
      have moved : (do
          let _ ← ask (·.element child)
          modify fun circuit => circuit.moveChild owner child : Build PUnit) circuit =
          .ok () (circuit.moveChild owner child) := by
        rw [bind_ok (ask_ok (Circuit.element_ok_iff.mpr held))]
        rfl
      rw [List.cons_append, List.forM_eq_forM, List.forM_cons, bind_ok moved, ← List.forM_eq_forM,
        ih (Circuit.known_moveChild exist owner)]
      · rfl
      · rwa [Circuit.size_moveChild]

theorem adopt_cases (circuit : Circuit) (owner : Nat) (children : List Nat) :
    (circuit.size ≤ owner ∧
        adopt owner children circuit = .error (.elementNotFound owner) circuit) ∨
      owner < circuit.size ∧ ((∀ child ∈ children, child < circuit.size) ∧
          adopt owner children circuit = .ok () (circuit.moveChildren owner children) ∨
        ∃ missing, adopt owner children circuit = .error (.elementNotFound missing)
          (circuit.moveChildren owner (circuit.firstKnown children))) := by
  rcases Nat.lt_or_ge owner circuit.size with known | missing
  · refine Or.inr ⟨known, ?_⟩
    have parts :=
      List.takeWhile_append_dropWhile (p := (decide <| · < circuit.size)) (l := children)
    cases rest : children.dropWhile (· < circuit.size) with
    | nil =>
        have all := List.dropWhile_eq_nil_iff.mp rest
        have exist : ∀ child ∈ children, child < circuit.size := by simpa using all
        exact Or.inl ⟨exist, adopt_ok known exist⟩
    | cons missing after =>
        have absent : circuit.size ≤ missing := by
          have first := List.head_dropWhile_not (fun id => decide (id < circuit.size))
            (l := children) (by rw [rest]; exact List.cons_ne_nil _ _)
          simpa [rest] using first
        have exist : ∀ child ∈ circuit.firstKnown children, child < circuit.size :=
          fun _ => Circuit.lt_of_mem_firstKnown
        have stopped := adopt_missing_child known exist absent after
        refine Or.inr ⟨missing, ?_⟩
        rw [← rest, Circuit.firstKnown, parts] at stopped
        exact stopped
  · exact Or.inl ⟨missing, adopt_missing_owner missing children⟩

/-- An adoption that fails has adopted the children before the first unknown one. It has changed
nothing just in case there is no such owner, or these children, in the order of their last
mention, are the owner's last ones already. -/
theorem adopt_failed_iff {name : String} {calls : List Call} {circuit changed : Circuit}
    (built : (Circuit.empty name).afterCalls calls = circuit) {owner : Nat} {children : List Nat}
    {error : Error} (failed : adopt owner children circuit = .error error changed) :
    (circuit.SameTree changed ↔ circuit.size ≤ owner ∨
        (circuit.firstKnown children).dedup <:+ circuit.children owner) ∧
      (owner < circuit.size →
        adopt owner (circuit.firstKnown children) circuit = .ok () changed) := by
  have coupled : circuit.Coupled := built ▸ Circuit.coupled_afterCalls name calls
  have exist : ∀ child ∈ circuit.firstKnown children, child < circuit.size :=
    fun _ => Circuit.lt_of_mem_firstKnown
  rcases adopt_cases circuit owner children with ⟨missing, stopped⟩ | ⟨known, done | stopped⟩
  · rw [stopped] at failed
    cases failed
    exact ⟨iff_of_true (fun _ => ⟨rfl, rfl⟩) (Or.inl missing), fun known => by omega⟩
  · rw [done.2] at failed
    contradiction
  · obtain ⟨missing, stopped⟩ := stopped
    rw [stopped] at failed
    cases failed
    have same := coupled.sameTree_moveChildren_iff known exist
    refine ⟨?_, fun _ => adopt_ok known exist⟩
    rw [same]
    exact ⟨Or.inr, fun either => either.resolve_left (Nat.not_le_of_lt known)⟩

def halls : List Call :=
  [.addProject "cell", .addProject "yard", .addContext 1 "upper", .addContext 1 "lower"]

theorem stirred_unchanged : ∃ circuit changed,
    (Circuit.empty "plant").afterCalls halls = circuit ∧
    adopt 1 [4, 3, 4, 9, 0] circuit = .error (.elementNotFound 9) changed ∧
    circuit.SameTree changed ∧ adopt 1 [4, 3, 4] circuit = .ok () changed := by
  have built : (Circuit.empty "plant").afterCalls halls = _ := rfl
  obtain ⟨changed, failed⟩ : ∃ changed, adopt 1 [4, 3, 4, 9, 0]
      ((Circuit.empty "plant").afterCalls halls) = .error (.elementNotFound 9) changed := ⟨_, rfl⟩
  have told := adopt_failed_iff built failed
  exact ⟨_, changed, built, failed, told.1.mpr (Or.inr (by decide)), told.2 (by decide)⟩

/-- A context has moved to the other project, though the adoption has failed. -/
theorem halted_moved : ∃ circuit changed,
    (Circuit.empty "plant").afterCalls halls = circuit ∧
    adopt 2 [3, 9] circuit = .error (.elementNotFound 9) changed ∧
    circuit.owner 3 = some 1 ∧ changed.owner 3 = some 2 ∧ ¬circuit.SameTree changed := by
  refine ⟨_, _, rfl, rfl, rfl, rfl, fun same => ?_⟩
  have kept : some 2 = some 1 := (same 3).1
  contradiction

end Build

end RelayLogic
