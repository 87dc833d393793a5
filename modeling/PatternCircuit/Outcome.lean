/-! # Computations that may fail: how their runs decompose -/

namespace PatternCircuit.Outcome

theorem bind_eq_ok {ε α β : Type} {x : Except ε α} {f : α → Except ε β} {r : β} :
    (x >>= f) = .ok r ↔ ∃ a, x = .ok a ∧ f a = .ok r := by
  cases x with
  | error e => simp [bind, Except.bind]
  | ok a => simp [bind, Except.bind]

theorem bind_eq_error {ε α β : Type} {x : Except ε α} {f : α → Except ε β} {e : ε} :
    (x >>= f) = .error e ↔ x = .error e ∨ ∃ a, x = .ok a ∧ f a = .error e := by
  cases x with
  | error e' => simp [bind, Except.bind]
  | ok a => simp [bind, Except.bind]

/-- If only the first part can fail, a failure is one of the first part. -/
theorem eq_error_of_bind {ε α β : Type} {x : Except ε α} {f : α → Except ε β} {e : ε}
    (hf : ∀ a, ∃ b, f a = .ok b) (h : (x >>= f) = .error e) : x = .error e := by
  cases bind_eq_error.mp h with
  | inl hx => exact hx
  | inr hrest =>
      obtain ⟨a, _, hfa⟩ := hrest
      obtain ⟨b, hb⟩ := hf a
      rw [hb] at hfa
      cases hfa

theorem map_eq_ok {ε α β : Type} {x : Except ε α} {f : α → β} {r : β} :
    Except.map f x = .ok r ↔ ∃ a, x = .ok a ∧ f a = r := by
  cases x with
  | error e => simp [Except.map]
  | ok a => simp [Except.map]

/-- A test of the result that holds shows that there is one. -/
theorem exists_ok_of_any {ε α : Type} {x : Except ε α} {test : α → Bool}
    (h : x.toOption.any test = true) : ∃ a, x = .ok a ∧ test a = true := by
  cases x with
  | error e => exact Bool.noConfusion h
  | ok a => exact ⟨a, rfl, h⟩

end PatternCircuit.Outcome
