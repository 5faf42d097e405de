/-!
# Outcomes of steps that may be refused

A step that ends well is taken apart: what came before it ended well too.  A step that
is refused was refused there or behind it.
-/

namespace SlashCommand

variable {ε α β : Type}

/-- A changed outcome is good only if the outcome was. -/
theorem ok_of_map_eq_ok {outcome : Except ε α} {change : α → β} {result : β}
    (h : outcome.map change = .ok result) :
    ∃ found, outcome = .ok found ∧ change found = result := by
  cases outcome with
  | error fault => cases h
  | ok found => exact ⟨found, rfl, Except.ok.inj h⟩

/-- Two steps in a row end well only if both do. -/
theorem ok_of_bind_eq_ok {first : Except ε α} {second : α → Except ε β} {result : β}
    (h : first >>= second = .ok result) :
    ∃ found, first = .ok found ∧ second found = .ok result := by
  cases first with
  | error fault => cases h
  | ok found => exact ⟨found, rfl, h⟩

/-- A changed outcome is refused only where the outcome was. -/
theorem error_of_map_eq_error {outcome : Except ε α} {change : α → β} {fault : ε}
    (h : outcome.map change = .error fault) : outcome = .error fault := by
  cases outcome with
  | error found =>
      cases h
      rfl
  | ok found => cases h

/-- Of two steps in a row the first or the second is refused. -/
theorem error_of_bind_eq_error {first : Except ε α} {second : α → Except ε β} {fault : ε}
    (h : first >>= second = .error fault) :
    first = .error fault ∨ ∃ found, first = .ok found ∧ second found = .error fault := by
  cases first with
  | error found =>
      cases h
      exact .inl rfl
  | ok found => exact .inr ⟨found, rfl, h⟩

@[simp]
theorem ok_bind (found : α) (second : α → Except ε β) :
    (Except.ok found >>= second) = second found :=
  rfl

@[simp]
theorem map_ok (found : α) (change : α → β) :
    (Except.ok found : Except ε α).map change = .ok (change found) :=
  rfl

end SlashCommand
