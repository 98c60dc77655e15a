import Mathlib.Tactic.Common

/-!
# Ordered sets

A `std::set` with a comparator: the elements in their order, none twice. Two elements neither of
which is before the other count as one. The comparator may look at what the elements refer to, so
that it changes with the state; `Sorted.congr` says when the order is still that of the elements.

* `insert`, `erase`: the operations.
* `sorted_insert`, `sorted_erase`: they keep the order.
* `mem_insert`, `insert_perm`, `not_mem_erase`: what they do to the elements.
-/

namespace Libca.Common.OrderedSet

variable {α : Type}

/-- What a comparator has to be. -/
structure StrictOrder (lt : α → α → Bool) : Prop where
  irrefl : ∀ x, lt x x = false
  trans : ∀ {x y z}, lt x y = true → lt y z = true → lt x z = true

/-- Adds an element at its place, unless there is one that counts as the same. -/
def insert (lt : α → α → Bool) (x : α) : List α → List α
  | [] => [x]
  | y :: ys => if lt x y then x :: y :: ys else if lt y x then y :: insert lt x ys else y :: ys

/-- Removes the element that counts as this one. -/
def erase (lt : α → α → Bool) (x : α) : List α → List α
  | [] => []
  | y :: ys => if lt x y then y :: ys else if lt y x then y :: erase lt x ys else ys

/-- The elements stand in their order. -/
def Sorted (lt : α → α → Bool) (xs : List α) : Prop := xs.Pairwise fun x y => lt x y = true

variable {lt lt' : α → α → Bool} {x y : α} {xs : List α}

theorem insert_cons (lt : α → α → Bool) (x y : α) (ys : List α) : insert lt x (y :: ys) =
    if lt x y then x :: y :: ys else if lt y x then y :: insert lt x ys else y :: ys := rfl

theorem erase_cons (lt : α → α → Bool) (x y : α) (ys : List α) : erase lt x (y :: ys) =
    if lt x y then y :: ys else if lt y x then y :: erase lt x ys else ys := rfl

theorem mem_insert (h : y ∈ insert lt x xs) : y = x ∨ y ∈ xs := by
  induction xs with
  | nil => exact .inl (List.mem_singleton.mp h)
  | cons z xs ih =>
    rw [insert_cons] at h
    split_ifs at h with hlt hgt
    · exact List.mem_cons.mp h
    · rcases List.mem_cons.mp h with rfl | h
      · exact .inr (.head _)
      · exact (ih h).imp id (List.mem_cons_of_mem z)
    · exact .inr h

theorem mem_insert_of_mem (h : y ∈ xs) : y ∈ insert lt x xs := by
  induction xs with
  | nil => cases h
  | cons z xs ih =>
    rw [insert_cons]
    split_ifs with hlt hgt
    · exact List.mem_cons_of_mem x h
    · rcases List.mem_cons.mp h with rfl | h
      · exact .head _
      · exact List.mem_cons_of_mem z (ih h)
    · exact h

/-- An element that counts as no other is added. -/
theorem insert_perm (h : ∀ y ∈ xs, lt x y = true ∨ lt y x = true) :
    (insert lt x xs).Perm (x :: xs) := by
  induction xs with
  | nil => exact List.Perm.refl _
  | cons z xs ih =>
    rw [insert_cons]
    split_ifs with hlt hgt
    · exact List.Perm.refl _
    · exact ((ih fun y hy => h y (List.mem_cons_of_mem z hy)).cons z).trans (List.Perm.swap x z xs)
    · rcases h z (.head _) with hx | hz
      · exact absurd hx hlt
      · exact absurd hz hgt

theorem sorted_insert (ho : StrictOrder lt) (h : Sorted lt xs) : Sorted lt (insert lt x xs) := by
  induction xs with
  | nil => exact List.pairwise_singleton _ _
  | cons z xs ih =>
    obtain ⟨hz, hxs⟩ := List.pairwise_cons.mp h
    rw [insert_cons]
    split_ifs with hlt hgt
    · refine List.pairwise_cons.mpr ⟨fun y hmem => ?_, h⟩
      rcases List.mem_cons.mp hmem with rfl | hmem
      · exact hlt
      · exact ho.trans hlt (hz y hmem)
    · refine List.pairwise_cons.mpr ⟨fun y hmem => ?_, ih hxs⟩
      rcases mem_insert hmem with rfl | hmem
      · exact hgt
      · exact hz y hmem
    · exact h

theorem erase_sublist : (erase lt x xs).Sublist xs := by
  induction xs with
  | nil => exact List.Sublist.refl _
  | cons z xs ih =>
    rw [erase_cons]
    split_ifs with hlt hgt
    · exact List.Sublist.refl _
    · exact ih.cons_cons z
    · exact List.sublist_cons_self z xs

theorem sorted_erase (h : Sorted lt xs) : Sorted lt (erase lt x xs) :=
  List.Pairwise.sublist erase_sublist h

theorem not_mem_erase (ho : StrictOrder lt) (h : Sorted lt xs) : x ∉ erase lt x xs := by
  induction xs with
  | nil => exact List.not_mem_nil
  | cons z xs ih =>
    obtain ⟨hz, hxs⟩ := List.pairwise_cons.mp h
    rw [erase_cons]
    split_ifs with hlt hgt
    · intro hmem
      rcases List.mem_cons.mp hmem with rfl | hmem
      · rw [ho.irrefl] at hlt
        cases hlt
      · have hself := ho.trans hlt (hz x hmem)
        rw [ho.irrefl] at hself
        cases hself
    · intro hmem
      rcases List.mem_cons.mp hmem with rfl | hmem
      · rw [ho.irrefl] at hgt
        cases hgt
      · exact ih hxs hmem
    · exact fun hmem => hgt (hz x hmem)

/-- No element stands twice. -/
theorem Sorted.nodup (ho : StrictOrder lt) (h : Sorted lt xs) : xs.Nodup := by
  refine List.Pairwise.imp (fun {a b} hlt heq => ?_) h
  rw [heq, ho.irrefl] at hlt
  cases hlt

/-- A comparator that compares the elements as before. -/
theorem Sorted.congr (h : Sorted lt xs) (heq : ∀ a ∈ xs, ∀ b ∈ xs, lt' a b = lt a b) :
    Sorted lt' xs :=
  List.Pairwise.imp_of_mem (fun {a b} ha hb hlt => (heq a ha b hb).trans hlt) h

end Libca.Common.OrderedSet
