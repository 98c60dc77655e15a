import Mathlib.Data.List.Basic

/-!
# First and last positions

* `findIdx?_append_cons`, `exists_of_findIdx?`: the first element with a property splits a list.
* `rfindIdx?`: the last one. `rfindIdx?_append_cons`, `exists_of_rfindIdx?`, `rfindIdx?_eq_none`.
-/

namespace Libca.Common

variable {α : Type} {p : α → Bool} {as : List α}

theorem findIdx?_append_cons {c : α} (bs : List α) (has : ∀ a ∈ as, p a = false) (hc : p c = true) :
    (as ++ c :: bs).findIdx? p = some as.length := by
  induction as with
  | nil => rw [List.nil_append, List.findIdx?_cons, if_pos hc]; rfl
  | cons a as ih =>
    obtain ⟨ha, has⟩ := List.forall_mem_cons.mp has
    rw [List.cons_append, List.findIdx?_cons, ha, ih has]
    rfl

theorem exists_of_findIdx? {i : Nat} (h : as.findIdx? p = some i) :
    ∃ l c r, as = l ++ c :: r ∧ l.length = i ∧ p c = true ∧ ∀ a ∈ l, p a = false := by
  induction as generalizing i with
  | nil => cases h
  | cons a as ih =>
    rw [List.findIdx?_cons] at h
    by_cases ha : p a = true
    · rw [if_pos ha] at h
      exact ⟨[], a, as, rfl, Option.some.inj h, ha, fun _ h => (nomatch h)⟩
    · rw [if_neg ha] at h
      obtain ⟨j, hj, rfl⟩ := Option.map_eq_some_iff.mp h
      obtain ⟨l, c, r, rfl, rfl, hc, hl⟩ := ih hj
      exact ⟨a :: l, c, r, rfl, rfl, hc, List.forall_mem_cons.mpr ⟨by simpa using ha, hl⟩⟩

/-- The position of the last element with a property. -/
def rfindIdx? (p : α → Bool) (as : List α) : Option Nat :=
  (as.reverse.findIdx? p).map fun i => as.length - 1 - i

theorem rfindIdx?_append_cons {c : α} {bs : List α} (as : List α) (hbs : ∀ b ∈ bs, p b = false)
    (hc : p c = true) :
    rfindIdx? p (as ++ c :: bs) = some as.length := by
  have hreverse : (as ++ c :: bs).reverse = bs.reverse ++ c :: as.reverse := by simp
  rw [rfindIdx?, hreverse, findIdx?_append_cons _ (fun b hb => hbs b (List.mem_reverse.mp hb)) hc,
    Option.map_some]
  congr 1
  rw [List.length_append, List.length_cons, List.length_reverse]
  omega

theorem exists_of_rfindIdx? {i : Nat} (h : rfindIdx? p as = some i) :
    ∃ l c r, as = l ++ c :: r ∧ l.length = i ∧ p c = true ∧ ∀ b ∈ r, p b = false := by
  obtain ⟨j, hj, rfl⟩ := Option.map_eq_some_iff.mp h
  obtain ⟨l, c, r, hreverse, rfl, hc, hl⟩ := exists_of_findIdx? hj
  have has : as = r.reverse ++ c :: l.reverse := by
    rw [← List.reverse_reverse as, hreverse]
    simp
  refine ⟨r.reverse, c, l.reverse, has, ?_, hc, fun b hb => hl b (List.mem_reverse.mp hb)⟩
  rw [has, List.length_append, List.length_cons, List.length_reverse, List.length_reverse]
  omega

theorem rfindIdx?_eq_none : rfindIdx? p as = none ↔ ∀ a ∈ as, p a = false := by
  rw [rfindIdx?, Option.map_eq_none_iff, List.findIdx?_eq_none_iff]
  simp only [List.mem_reverse]

end Libca.Common
