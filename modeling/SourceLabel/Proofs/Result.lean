import Mathlib
import SourceLabel.Error

/-!
# Results that are values

What is known of the parts of a computation that ended well, and of the failures that a computation can
end with.
-/
namespace SourceLabel.Result

variable {ε ε' α β : Type}

theorem bind_eq_ok {x : Except ε α} {k : α → Except ε β} {r : β} :
    (x >>= k) = .ok r ↔ ∃ a, x = .ok a ∧ k a = .ok r := by
  cases x with
  | error e =>
    constructor
    · intro h
      exact nomatch h
    · intro ⟨_, h, _⟩
      exact nomatch h
  | ok a =>
    constructor
    · intro h
      exact ⟨a, rfl, h⟩
    · intro ⟨_, ha, h⟩
      rw [← Except.ok.inj ha] at h
      exact h

theorem bind_eq_error {x : Except ε α} {k : α → Except ε β} {e : ε} :
    (x >>= k) = .error e ↔ x = .error e ∨ ∃ a, x = .ok a ∧ k a = .error e := by
  cases x with
  | error e' => simp [bind, Except.bind]
  | ok a => simp [bind, Except.bind]

@[simp] theorem map_eq_ok {x : Except ε α} {f : α → β} {r : β} : x.map f = .ok r ↔ ∃ a, x = .ok a ∧ f a = r := by
  cases x <;> simp [Except.map]

@[simp] theorem map_eq_error {x : Except ε α} {f : α → β} {e : ε} : x.map f = .error e ↔ x = .error e := by
  cases x <;> simp [Except.map]

@[simp] theorem mapError_eq_ok {x : Except ε α} {f : ε → ε'} {r : α} : x.mapError f = .ok r ↔ x = .ok r := by
  cases x <;> simp [Except.mapError]

/-! ## Failures -/

/-- Every failure there can be has the property. -/
def FailsWith (P : ε → Prop) (x : Except ε α) : Prop :=
  ∀ e, x = .error e → P e

variable {P : ε → Prop} {Q : ε' → Prop}

theorem FailsWith.ok (a : α) : FailsWith P (.ok a) := nofun

theorem FailsWith.error {e : ε} (h : P e) : FailsWith P (.error e : Except ε α) := by
  intro e' he
  exact Except.error.inj he ▸ h

theorem FailsWith.bind {x : Except ε α} {k : α → Except ε β} (hx : FailsWith P x)
    (hk : ∀ a, x = .ok a → FailsWith P (k a)) : FailsWith P (x >>= k) := by
  cases x with
  | error e => exact .error (hx e rfl)
  | ok a => exact hk a rfl

theorem FailsWith.map {x : Except ε α} (hx : FailsWith P x) (f : α → β) : FailsWith P (x.map f) := by
  cases x with
  | error e => exact .error (hx e rfl)
  | ok a => exact .ok (f a)

theorem FailsWith.mapError {x : Except ε α} {f : ε → ε'} (hx : FailsWith P x) (hf : ∀ e, P e → Q (f e)) :
    FailsWith Q (x.mapError f) := by
  cases x with
  | error e => exact .error (hf e (hx e rfl))
  | ok a => exact .ok a

end SourceLabel.Result
