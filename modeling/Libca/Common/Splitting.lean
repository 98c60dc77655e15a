import Mathlib.Data.List.Infix

/-!
# Splitting a list at a delimiter

The pieces between the leftmost occurrences of a delimiter that do not overlap.

* `IsSplit`: the pieces, one occurrence after the other.
* `IsSplit.unique`: a list is split in one way.
* `IsSplit.intercalate`, `IsSplit.not_contained`: the pieces joined by the delimiter are the list,
  and none of them contains the delimiter.
-/

namespace Libca.Common

variable {α : Type*}

/-- The list is split into the pieces at the delimiter: the first piece ends where the delimiter
stands first, and what follows the delimiter is split in the same way. -/
inductive IsSplit (d : List α) : List α → List (List α) → Prop where
  | last {s : List α} (hnone : ∀ i, ¬ d <+: s.drop i) : IsSplit d s [s]
  | cut {p rest : List α} {ps : List (List α)}
      (hfirst : ∀ i < p.length, ¬ d <+: (p ++ (d ++ rest)).drop i) (hrest : IsSplit d rest ps) :
      IsSplit d (p ++ (d ++ rest)) (p :: ps)

namespace IsSplit

variable {d s : List α} {ps qs : List (List α)}

theorem ne_nil (h : IsSplit d s ps) : ps ≠ [] := by
  cases h <;> exact List.cons_ne_nil _ _

/-- **The pieces joined by the delimiter are the list.** -/
theorem intercalate (h : IsSplit d s ps) : d.intercalate ps = s := by
  induction h with
  | last hnone => exact List.intercalate_singleton
  | cut hfirst hrest ih =>
    obtain ⟨q, qs, rfl⟩ := List.exists_cons_of_ne_nil hrest.ne_nil
    rw [List.intercalate_cons_cons, ih, List.append_assoc]

/-- The delimiter stands at the end of the first piece. -/
theorem occurs (p rest : List α) : d <+: (p ++ (d ++ rest)).drop p.length := by
  rw [List.drop_left]
  exact List.prefix_append d rest

/-- **A list is split in one way.** -/
theorem unique (hp : IsSplit d s ps) (hq : IsSplit d s qs) : ps = qs := by
  induction hp generalizing qs with
  | last hnone =>
    cases hq with
    | last _ => rfl
    | cut _ _ => exact absurd (occurs _ _) (hnone _)
  | @cut p rest ps hfirst hrest ih =>
    generalize hs : p ++ (d ++ rest) = s at hq
    cases hq with
    | last hnone =>
      rw [← hs] at hnone
      exact absurd (occurs _ _) (hnone _)
    | @cut q rest' qs hfirst' hrest' =>
      -- neither of the first pieces is shorter than the other
      have hlen : p.length = q.length := by
        rcases Nat.lt_trichotomy p.length q.length with hlt | heq | hlt
        · have hocc := occurs (d := d) p rest
          rw [hs] at hocc
          exact absurd hocc (hfirst' _ hlt)
        · exact heq
        · have hocc := occurs (d := d) q rest'
          rw [← hs] at hocc
          exact absurd hocc (hfirst _ hlt)
      obtain ⟨rfl, htail⟩ := List.append_inj hs hlen
      obtain rfl := List.append_cancel_left htail
      rw [ih hrest']

/-- **No piece contains the delimiter.** -/
theorem not_contained (h : IsSplit d s ps) (hd : d ≠ []) {p : List α}
    (hp : p ∈ ps) : ¬ d <:+: p := by
  induction h with
  | @last s hnone =>
    obtain rfl := List.mem_singleton.mp hp
    rintro ⟨as, bs, rfl⟩
    refine hnone as.length ?_
    rw [List.append_assoc]
    exact occurs as bs
  | @cut q rest ps hfirst hrest ih =>
    rcases List.mem_cons.mp hp with rfl | hmem
    · rintro ⟨as, bs, rfl⟩
      have hpos := List.length_pos_iff.mpr hd
      refine hfirst as.length (by simp only [List.length_append]; omega) ?_
      simp only [List.append_assoc]
      exact occurs as (bs ++ (d ++ rest))
    · exact ih hmem

end IsSplit

end Libca.Common
