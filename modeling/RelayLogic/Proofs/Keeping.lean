import Mathlib.Data.List.Basic

/-!
Changes that keep a property of what they change. A change that fails keeps what it did before it
failed, so a property must hold then as well.
-/

namespace RelayLogic.Change

variable {ε σ α β ι : Type} {property : σ → Prop}

def after (change : EStateM ε σ α) (state : σ) : σ :=
  match change state with
  | .ok _ changed => changed
  | .error _ changed => changed

theorem after_map (change : EStateM ε σ α) (view : α → β) (state : σ) :
    after (view <$> change) state = after change state := by
  show after (EStateM.map view change) state = _
  simp only [after, EStateM.map]
  cases change state <;> rfl

/-- A change after which a property holds if it did before, even where the change fails. -/
def Keeps (property : σ → Prop) (change : EStateM ε σ α) : Prop :=
  ∀ state, property state → property (after change state)

theorem keeps_pure (answer : α) : Keeps property (pure answer : EStateM ε σ α) :=
  fun _ holds => holds

theorem keeps_throw (error : ε) : Keeps property (throw error : EStateM ε σ α) :=
  fun _ holds => holds

theorem keeps_throw_bind (error : ε) (next : α → EStateM ε σ β) :
    Keeps property (throw error >>= next) :=
  fun _ holds => holds

theorem Keeps.ite {condition : Prop} [Decidable condition] {yes no : EStateM ε σ α}
    (yesKept : condition → Keeps property yes) (noKept : ¬condition → Keeps property no) :
    Keeps property (if condition then yes else no) := by
  split
  next holds => exact yesKept holds
  next fails => exact noKept fails

theorem Keeps.bind {first : EStateM ε σ α} {next : α → EStateM ε σ β}
    (kept : Keeps property first) (nextKept : ∀ answer, Keeps property (next answer)) :
    Keeps property (first >>= next) := by
  intro state holds
  have middle := kept state holds
  simp only [after] at middle
  show property (after (EStateM.bind first next) state)
  simp only [after, EStateM.bind]
  cases result : first state with
  | ok answer changed =>
      rw [result] at middle
      exact nextKept answer changed middle
  | error error changed =>
      rw [result] at middle
      exact middle

theorem Keeps.map {first : EStateM ε σ α} (kept : Keeps property first) (view : α → β) :
    Keeps property (view <$> first) := by
  intro state holds
  have middle := kept state holds
  simp only [after] at middle
  show property (after (EStateM.map view first) state)
  simp only [after, EStateM.map]
  cases result : first state <;> rw [result] at middle <;> exact middle

theorem keeps_get_bind {next : σ → EStateM ε σ α} (kept : ∀ seen, Keeps property (next seen)) :
    Keeps property (get >>= next) :=
  fun state holds => kept state state holds

theorem keeps_modify {change : σ → σ} (kept : ∀ state, property state → property (change state)) :
    Keeps property (modify change : EStateM ε σ PUnit) :=
  kept

theorem keeps_forM {items : List ι} {act : ι → EStateM ε σ PUnit}
    (kept : ∀ item, Keeps property (act item)) : Keeps property (items.forM act) := by
  induction items with
  | nil => exact keeps_pure _
  | cons item items ih => exact (kept item).bind fun _ => ih

theorem keeps_mapM {items : List ι} {act : ι → EStateM ε σ α}
    (kept : ∀ item, Keeps property (act item)) : Keeps property (items.mapM act) := by
  induction items with
  | nil => exact keeps_pure _
  | cons item items ih =>
      rw [List.mapM_cons]
      exact (kept item).bind fun _ => ih.bind fun _ => keeps_pure _

end RelayLogic.Change
