/-!
# Outcomes

When a computation in `Except` gives a value: each part of it does.
-/

namespace WordLisp

variable {α β ε : Type}

/-- Two computations, one after the other, give a value if both do. -/
theorem bind_eq_ok {first : Except ε α} {second : α → Except ε β} {value : β} :
    first >>= second = .ok value ↔ ∃ a, first = .ok a ∧ second a = .ok value := by
  cases first with
  | ok a => exact ⟨fun h ↦ ⟨a, rfl, h⟩, by rintro ⟨_, ⟨rfl⟩, h⟩; exact h⟩
  | error error => exact ⟨fun h ↦ (by cases h), by rintro ⟨_, ⟨⟩, _⟩⟩

/-- The value of a computation may be changed. -/
theorem map_eq_ok {first : Except ε α} {f : α → β} {value : β} :
    first.map f = .ok value ↔ ∃ a, first = .ok a ∧ f a = value := by
  cases first with
  | ok a => simp [Except.map]
  | error error => simp [Except.map]

/-- To change a value makes no error. -/
theorem map_eq_error {first : Except ε α} {f : α → β} {error : ε} :
    first.map f = .error error ↔ first = .error error := by
  cases first <;> simp [Except.map]

/-- Two computations, one after the other, fail if one of them does. -/
theorem bind_eq_error {first : Except ε α} {second : α → Except ε β} {error : ε} :
    first >>= second = .error error ↔
      first = .error error ∨ ∃ a, first = .ok a ∧ second a = .error error := by
  cases first with
  | ok a => exact ⟨fun h ↦ .inr ⟨a, rfl, h⟩, by rintro (⟨⟨⟩⟩ | ⟨_, ⟨rfl⟩, h⟩); exact h⟩
  | error cause => exact ⟨fun h ↦ .inl (by cases h; rfl), by rintro (⟨⟨⟩⟩ | ⟨_, ⟨⟩, _⟩); rfl⟩

/-- To change a value twice. -/
theorem map_map {γ : Type} (first : Except ε α) (f : α → β) (g : β → γ) :
    (first.map f).map g = first.map fun a ↦ g (f a) := by
  cases first <;> rfl

end WordLisp
