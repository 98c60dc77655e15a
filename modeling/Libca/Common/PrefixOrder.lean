import Mathlib.Data.List.Infix

/-!
# Prefixes in the lexicographic order

* `not_lt_of_prefix`: a string is not below a prefix of it.
* `prefix_of_between`: what lies between a prefix and a string that has it has it as well.
* `takeWhile_eq_filter`: a property that is not regained along a list holds of its first part.
* `filter_prefix_eq_takeWhile`: **in an ascending list from a prefix on, the strings that have it
  come first.**
-/

namespace Libca.Common

variable {α β : Type}

section Order

variable [LT α] {p x y : List α}

theorem not_lt_of_prefix [Std.Irrefl (α := α) (· < ·)] (h : p <+: x) : ¬ x < p := by
  induction p generalizing x with
  | nil => exact List.not_lt_nil x
  | cons a p ih =>
    obtain ⟨rest, rfl⟩ := h
    rw [List.cons_append, List.cons_lt_cons_iff]
    rintro (hlt | ⟨-, hlt⟩)
    · exact Std.lt_irrefl hlt
    · exact ih (List.prefix_append p rest) hlt

/-- **What lies between a prefix and a string that has it has it as well.** -/
theorem prefix_of_between (hp : ¬ y < p) (hlt : y < x) (hx : p <+: x) : p <+: y := by
  induction p generalizing x y with
  | nil => exact List.nil_prefix
  | cons a p ih =>
    obtain ⟨rest, rfl⟩ := hx
    cases y with
    | nil => exact absurd (List.nil_lt_cons a p) hp
    | cons b y =>
      rw [List.cons_lt_cons_iff] at hp
      rw [List.cons_append, List.cons_lt_cons_iff] at hlt
      rcases hlt with hlt | ⟨rfl, hlt⟩
      · exact absurd (.inl hlt) hp
      · have hprefix := ih (fun h => hp (.inr ⟨rfl, h⟩)) hlt (List.prefix_append p rest)
        exact List.cons_prefix_cons.mpr ⟨rfl, hprefix⟩

end Order

theorem takeWhile_eq_filter {holds : β → Bool} {xs : List β}
    (h : xs.Pairwise fun x y => holds y → holds x) :
    xs.takeWhile holds = xs.filter holds := by
  induction xs with
  | nil => rfl
  | cons x xs ih =>
    obtain ⟨hx, hxs⟩ := List.pairwise_cons.mp h
    by_cases hholds : holds x = true
    · rw [List.takeWhile_cons_of_pos hholds, List.filter_cons_of_pos hholds, ih hxs]
    · rw [List.takeWhile_cons_of_neg hholds, List.filter_cons_of_neg hholds]
      exact (List.filter_eq_nil_iff.mpr fun y hy hy' => hholds (hx y hy hy')).symm

/-- **In an ascending list from a prefix on, the strings that have it come first.** -/
theorem filter_prefix_eq_takeWhile [LT α] [DecidableEq α] {key : β → List α} {p : List α}
    {xs : List β} (hxs : xs.Pairwise fun x y => key x < key y) (hp : ∀ x ∈ xs, ¬ key x < p) :
    xs.filter (fun x => p.isPrefixOf (key x)) = xs.takeWhile fun x => p.isPrefixOf (key x) := by
  refine (takeWhile_eq_filter (hxs.imp_of_mem fun {x y} hx _ hlt hy => ?_)).symm
  rw [List.isPrefixOf_iff_prefix] at hy ⊢
  exact prefix_of_between (hp x hx) hlt hy

end Libca.Common
