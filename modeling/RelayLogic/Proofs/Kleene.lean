import RelayLogic.Proofs.Shifting

/-!
Gates compute Kleene's logic. One input of the dominant value settles what a gate gives, otherwise
an unknown one leaves it open. So the order of the bindings does not matter, and De Morgan's laws
hold for any number of inputs.
-/

namespace RelayLogic

namespace Tri

@[simp] theorem not_not (value : Tri) : value.not.not = value := by
  cases value <;> rfl

@[simp] theorem invertIf_not (value : Tri) (inverted : Bool) :
    value.invertIf (!inverted) = (value.invertIf inverted).not := by
  cases inverted
  · rfl
  · exact (not_not value).symm

theorem mem_map_not {value : Tri} {values : List Tri} :
    value ∈ values.map Tri.not ↔ value.not ∈ values := by
  rw [List.mem_map]
  constructor
  · rintro ⟨other, member, rfl⟩
    rwa [not_not]
  · exact fun member => ⟨value.not, member, not_not value⟩

end Tri

namespace Binding

variable {states : States}

def complemented (binding : Binding) : Binding :=
  { binding with inverted := !binding.inverted }

@[simp] theorem read_complemented (binding : Binding) :
    binding.complemented.read states = (binding.read states).not :=
  Tri.invertIf_not _ _

theorem map_read_complemented (bindings : List Binding) :
    (bindings.map complemented).map (·.read states) =
      (bindings.map (·.read states)).map Tri.not := by
  simp only [List.map_map, List.map_inj_left, Function.comp_apply, read_complemented, implies_true]

end Binding

namespace GateKind

/-- The value that settles what a gate gives, whatever its other inputs are. -/
def dominant : GateKind → Tri
  | .and => .false
  | .or => .true

def dual : GateKind → GateKind
  | .and => .or
  | .or => .and

def kleene (kind : GateKind) (values : List Tri) : Tri :=
  if kind.dominant ∈ values then kind.dominant
  else if .unknown ∈ values then .unknown
  else kind.neutral

theorem kleene_apply (kind : GateKind) (first second : Tri) (rest : List Tri) :
    kind.kleene (kind.apply first second :: rest) = kind.kleene (first :: second :: rest) := by
  cases kind <;> cases first <;> cases second <;>
    simp [kleene, apply, dominant, neutral, Tri.and, Tri.or]

theorem kleene_neutral (kind : GateKind) (values : List Tri) :
    kind.kleene (kind.neutral :: values) = kind.kleene values := by
  have dominant : kind.dominant ≠ kind.neutral := by cases kind <;> decide
  have unknown : Tri.unknown ≠ kind.neutral := by cases kind <;> decide
  simp only [kleene, List.mem_cons, dominant, unknown, false_or]

theorem foldl_apply (kind : GateKind) (first : Tri) (rest : List Tri) :
    rest.foldl kind.apply first = kind.kleene (first :: rest) := by
  induction rest generalizing first with
  | nil => cases kind <;> cases first <;> rfl
  | cons second rest ih => rw [List.foldl_cons, ih, kleene_apply]

theorem kleene_perm (kind : GateKind) {values others : List Tri} (perm : others.Perm values) :
    kind.kleene others = kind.kleene values := by
  simp only [kleene, perm.mem_iff]

theorem kleene_dual (kind : GateKind) (values : List Tri) :
    kind.dual.kleene (values.map Tri.not) = (kind.kleene values).not := by
  have dominant : kind.dual.dominant = kind.dominant.not := by cases kind <;> rfl
  have neutral : kind.dual.neutral = kind.neutral.not := by cases kind <;> rfl
  have unknown : Tri.unknown.not = .unknown := rfl
  simp only [kleene, Tri.mem_map_not, dominant, neutral, unknown, Tri.not_not]
  split
  · rfl
  · split <;> rfl

theorem evaluate_eq_kleene (kind : GateKind) (bindings : List Binding) (states : States) :
    kind.evaluate bindings states =
      if bindings.length < 2 then .unknown else kind.kleene (bindings.map (·.read states)) := by
  rw [evaluate_eq, foldl_apply, kleene_neutral, List.length_map]

/--
A gate gives its dominant value if it reads that somewhere, else an unknown one if it reads one, and
else the other value; with less than two inputs it gives an unknown one. It gives the same in
whatever order it reads, and its dual gives the opposite of opposites.
-/
theorem evaluate_kleene (kind : GateKind) (bindings : List Binding) (states : States) :
    (kind.evaluate bindings states =
      if bindings.length < 2 then .unknown
      else if ∃ binding ∈ bindings, binding.read states = kind.dominant then kind.dominant
      else if ∃ binding ∈ bindings, binding.read states = .unknown then .unknown
      else kind.neutral) ∧
    (∀ shuffled : List Binding, shuffled.Perm bindings →
      kind.evaluate shuffled states = kind.evaluate bindings states) ∧
    kind.dual.evaluate (bindings.map Binding.complemented) states =
      (kind.evaluate bindings states).not := by
  refine ⟨?_, fun shuffled perm => ?_, ?_⟩
  · simp only [evaluate_eq_kleene, kleene, List.mem_map]
  · rw [evaluate_eq_kleene, evaluate_eq_kleene, perm.length_eq, kind.kleene_perm (perm.map _)]
  · rw [evaluate_eq_kleene, evaluate_eq_kleene, List.length_map, Binding.map_read_complemented,
      kleene_dual]
    split <;> rfl

theorem shuffled_kleene :
    let states : States := #[.true, .unknown]
    let bindings : List Binding := [⟨1, false⟩, ⟨7, true⟩, ⟨0, true⟩]
    let shuffled : List Binding := [⟨0, true⟩, ⟨1, false⟩, ⟨7, true⟩]
    shuffled.Perm bindings ∧ GateKind.and.evaluate bindings states = .false ∧
      GateKind.and.evaluate shuffled states = .false ∧
      GateKind.or.evaluate (bindings.map Binding.complemented) states = .true := by
  intro states bindings shuffled
  have perm : shuffled.Perm bindings := by decide
  obtain ⟨value, order, opposite⟩ := evaluate_kleene .and bindings states
  have decided : GateKind.and.evaluate bindings states = .false := value.trans (by decide)
  exact ⟨perm, decided, (order shuffled perm).trans decided,
    opposite.trans (congrArg Tri.not decided)⟩

end GateKind

end RelayLogic
