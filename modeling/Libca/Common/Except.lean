import Mathlib.Tactic.Common

/-!
# Success in `Except`

* `except_bind_eq_ok`: a sequence succeeds when each part does.
* `foldlM_cons_eq_ok`: the same along a list.
-/

namespace Libca.Common

variable {ε α β σ : Type}

theorem except_bind_eq_ok {x : Except ε α} {f : α → Except ε β} {b : β} :
    (x >>= f) = .ok b ↔ ∃ a, x = .ok a ∧ f a = .ok b := by
  cases x with
  | error e =>
    constructor
    · intro h
      cases h
    · rintro ⟨a, ha, -⟩
      cases ha
  | ok a =>
    constructor
    · intro h
      exact ⟨a, rfl, h⟩
    · rintro ⟨a', ha', h⟩
      cases ha'
      exact h

theorem except_ok_bind (a : α) (f : α → Except ε β) : ((.ok a : Except ε α) >>= f) = f a := rfl

theorem foldlM_cons_eq_ok {f : σ → α → Except ε σ} {s s' : σ} {a : α} {as : List α} :
    (a :: as).foldlM f s = .ok s' ↔ ∃ t, f s a = .ok t ∧ as.foldlM f t = .ok s' := by
  rw [List.foldlM_cons]
  exact except_bind_eq_ok

end Libca.Common
