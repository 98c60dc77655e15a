import Mathlib.Data.List.DropRight

/-!
# Trimming

`trim p xs`: a list without the elements with `p` at its two ends.

* `takeWhile_trim_rtakeWhile`: the parts that are cut off, and the part that stays.
* `trim_append_left`, `trim_append_right`, `trim_eq_self_iff`: the rules of computation.
* `drop_takeWhile_append`: the start of a trimmed list, looked for in a longer one.
-/

namespace Libca.Common

variable {α : Type} {p : α → Bool}

/-- A list without the elements with `p` at its ends. -/
def trim (p : α → Bool) (xs : List α) : List α := (xs.dropWhile p).rdropWhile p

theorem takeWhile_trim_rtakeWhile (p : α → Bool) (xs : List α) :
    xs.takeWhile p ++ trim p xs ++ (xs.dropWhile p).rtakeWhile p = xs := by
  unfold trim
  rw [List.append_assoc, List.rdropWhile_append_rtakeWhile, List.takeWhile_append_dropWhile]

theorem trim_append_left {as : List α} (has : ∀ a ∈ as, p a = true) (xs : List α) :
    trim p (as ++ xs) = trim p xs := by
  unfold trim
  rw [List.dropWhile_append_of_pos has]

theorem rdropWhile_append_right {bs : List α} (hbs : ∀ b ∈ bs, p b = true) (xs : List α) :
    (xs ++ bs).rdropWhile p = xs.rdropWhile p := by
  unfold List.rdropWhile
  rw [List.reverse_append, List.dropWhile_append_of_pos fun b hb => hbs b (List.mem_reverse.mp hb)]

variable {xs : List α}

theorem dropWhile_append_not (h : ∃ x ∈ xs, p x = false) (ys : List α) :
    (xs ++ ys).dropWhile p = xs.dropWhile p ++ ys := by
  obtain ⟨x, hx, hpx⟩ := h
  rw [List.dropWhile_append, if_neg]
  intro hnil
  rw [List.isEmpty_iff, List.dropWhile_eq_nil_iff] at hnil
  rw [hnil x hx] at hpx
  cases hpx

theorem trim_eq_nil_iff : trim p xs = [] ↔ ∀ x ∈ xs, p x = true := by
  unfold trim
  rw [List.rdropWhile_eq_nil_iff]
  constructor
  · intro h x hx
    by_contra hpx
    have hne : xs.dropWhile p ≠ [] := by
      intro hnil
      exact hpx (List.dropWhile_eq_nil_iff.mp hnil x hx)
    have hhead := List.head_dropWhile_not p hne
    rw [h _ (List.head_mem hne)] at hhead
    cases hhead
  · intro h x hx
    exact h x ((List.dropWhile_suffix p).subset hx)

theorem trim_append_right {bs : List α} (hbs : ∀ b ∈ bs, p b = true) (xs : List α) :
    trim p (xs ++ bs) = trim p xs := by
  by_cases h : ∃ x ∈ xs, p x = false
  · unfold trim
    rw [dropWhile_append_not h, rdropWhile_append_right hbs]
  · have hxs : ∀ x ∈ xs, p x = true := fun x hx => by
      by_contra hpx
      exact h ⟨x, hx, by simpa using hpx⟩
    rw [trim_eq_nil_iff.mpr hxs, trim_eq_nil_iff]
    exact List.forall_mem_append.mpr ⟨hxs, hbs⟩

variable {x : α}

theorem head_trim (h : (trim p xs).head? = some x) : p x = false := by
  unfold trim at h
  obtain ⟨ys, hys⟩ := List.head?_eq_some_iff.mp h
  have hhead : (xs.dropWhile p).head? = some x := by
    obtain ⟨zs, hzs⟩ := List.rdropWhile_prefix p (xs.dropWhile p)
    rw [← hzs, hys]
    rfl
  have hne : xs.dropWhile p ≠ [] := by
    intro hnil
    rw [hnil] at hhead
    cases hhead
  have hnot := List.head_dropWhile_not p hne
  rw [List.head?_eq_some_head hne] at hhead
  rwa [Option.some.inj hhead] at hnot

theorem trim_eq_self_iff : trim p xs = xs ↔
    (∀ x, xs.head? = some x → p x = false) ∧ ∀ x, xs.getLast? = some x → p x = false := by
  constructor
  · intro h
    refine ⟨fun x hx => head_trim (h.symm ▸ hx : (trim p xs).head? = some x), fun x hx => ?_⟩
    have hne : (xs.dropWhile p).rdropWhile p ≠ [] := by
      intro hnil
      rw [← h] at hx
      unfold trim at hx
      rw [hnil] at hx
      cases hx
    have hlast := List.rdropWhile_last_not p (xs.dropWhile p) hne
    have hx' : ((xs.dropWhile p).rdropWhile p).getLast? = some x := by
      rw [← hx]
      exact congrArg List.getLast? h
    rw [List.getLast?_eq_some_getLast hne, Option.some.injEq] at hx'
    rwa [hx', Bool.not_eq_true] at hlast
  · rintro ⟨hhead, hlast⟩
    have hdrop : xs.dropWhile p = xs := by
      cases xs with
      | nil => rfl
      | cons x xs => exact List.dropWhile_cons_of_neg (by simp [hhead x rfl])
    unfold trim
    rw [hdrop, List.rdropWhile_eq_self_iff]
    intro hne
    simpa using hlast _ (List.getLast?_eq_some_getLast hne)

/-- Trimming at the end stops at an element without `p`. -/
theorem rdropWhile_append_not (hx : p x = false) (xs ys : List α) :
    (xs ++ x :: ys).rdropWhile p = xs ++ x :: ys.rdropWhile p := by
  induction ys using List.reverseRecOn with
  | nil => rw [List.rdropWhile_concat_neg _ _ _ (by simp [hx]), List.rdropWhile_nil]
  | append_singleton ys y ih =>
    rw [← List.cons_append, ← List.append_assoc]
    by_cases hy : p y = true
    · rw [List.rdropWhile_concat_pos _ _ _ hy, List.rdropWhile_concat_pos _ _ _ hy, ih]
    · rw [List.rdropWhile_concat_neg _ _ _ hy, List.rdropWhile_concat_neg _ _ _ hy,
        List.append_assoc, List.cons_append]

theorem rtakeWhile_append_not (hx : p x = false) (xs ys : List α) :
    (xs ++ x :: ys).rtakeWhile p = ys.rtakeWhile p := by
  have hwhole : (xs ++ x :: ys).rdropWhile p ++ (xs ++ x :: ys).rtakeWhile p = xs ++ x :: ys :=
    List.rdropWhile_append_rtakeWhile
  have hpart : ys.rdropWhile p ++ ys.rtakeWhile p = ys := List.rdropWhile_append_rtakeWhile
  rw [rdropWhile_append_not hx, List.append_assoc, List.cons_append] at hwhole
  have hrest := (List.cons.inj (List.append_cancel_left hwhole)).2
  exact List.append_cancel_left (hrest.trans hpart.symm)

/-- The elements that a longer list starts with are passed as those of the list. -/
theorem drop_takeWhile_append (xs ys : List α) :
    xs.drop ((xs ++ ys).takeWhile p).length = xs.dropWhile p := by
  induction xs with
  | nil => simp
  | cons x xs ih =>
    by_cases hx : p x = true
    · rw [List.cons_append, List.takeWhile_cons_of_pos hx, List.dropWhile_cons_of_pos hx,
        List.length_cons, List.drop_succ_cons, ih]
    · rw [List.cons_append, List.takeWhile_cons_of_neg hx, List.dropWhile_cons_of_neg hx]
      rfl

end Libca.Common
