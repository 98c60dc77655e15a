import Mathlib.Tactic.Common

/-!
# Feistel networks

A round exchanges two halves and adds a function of the one and of a key to the other. The function
is arbitrary.

* `feistelRounds_reverse`: the rounds with the keys in the other order, between two exchanges, undo
  the rounds.
-/

namespace Libca.Common

variable {α κ : Type*}

/-- One round. -/
def feistelRound (xor : α → α → α) (f : α → κ → α) (halves : α × α) (key : κ) : α × α :=
  (halves.2, xor halves.1 (f halves.2 key))

/-- A round for each key. -/
def feistelRounds (xor : α → α → α) (f : α → κ → α) (halves : α × α) (keys : List κ) : α × α :=
  keys.foldl (feistelRound xor f) halves

variable {xor : α → α → α} (f : α → κ → α)

/-- The same round between two exchanges undoes a round. -/
theorem feistelRound_swap (hxor : ∀ a b, xor (xor a b) b = a) (halves : α × α) (key : κ) :
    feistelRound xor f (feistelRound xor f halves key).swap key = halves.swap := by
  show (halves.2, xor (xor halves.1 (f halves.2 key)) (f halves.2 key)) = halves.swap
  rw [hxor]
  rfl

/-- **The keys in the other order undo the rounds.** -/
theorem feistelRounds_reverse (hxor : ∀ a b, xor (xor a b) b = a) (halves : α × α) (keys : List κ) :
    feistelRounds xor f (feistelRounds xor f halves keys).swap keys.reverse = halves.swap := by
  induction keys generalizing halves with
  | nil => rfl
  | cons key keys ih =>
    have hrest := ih (feistelRound xor f halves key)
    unfold feistelRounds at hrest ⊢
    rw [List.foldl_cons, List.reverse_cons, List.foldl_append, hrest]
    exact feistelRound_swap f hxor halves key

end Libca.Common
