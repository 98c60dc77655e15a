import Mathlib.Data.List.Nodup
import Mathlib.Logic.Equiv.Basic

/-!
# Ledgers

Members of a list that are held in places, each in one of them and in the order of the list.

* `Ledger`: what each place holds.
* `Ledger.add`, `Ledger.move`: a new member comes to a place; what a place holds goes to an empty
  one.
* `Ledger.unique`: a member is held in one place.
-/

namespace Libca.Common

variable {P α : Type}

/-- The members of `all` are held in the places of `slot`. -/
structure Ledger (slot : P → List α) (all : List α) : Prop where
  nodup : all.Nodup
  ordered : ∀ p, (slot p).Sublist all
  apart : ∀ p q, p ≠ q → List.Disjoint (slot p) (slot q)
  held : ∀ c ∈ all, ∃ p, c ∈ slot p

namespace Ledger

variable {slot : P → List α} {all : List α} {c : α} {p q : P}

theorem mem (h : Ledger slot all) (hc : c ∈ slot p) : c ∈ all := (h.ordered p).subset hc

/-- **A member is held in one place.** -/
theorem unique (h : Ledger slot all) (hp : c ∈ slot p) (hq : c ∈ slot q) : p = q := by
  by_contra hne
  exact h.apart p q hne hp hq

theorem nil : Ledger (fun _ : P => ([] : List α)) [] where
  nodup := List.nodup_nil
  ordered _ := List.Sublist.refl _
  apart _ _ _ := List.disjoint_nil_left _
  held _ hc := absurd hc List.not_mem_nil

/-- The places are exchanged. -/
theorem comp (h : Ledger slot all) (e : Equiv.Perm P) : Ledger (slot ∘ e) all where
  nodup := h.nodup
  ordered p := h.ordered (e p)
  apart p q hpq := h.apart (e p) (e q) fun heq => hpq (e.injective heq)
  held c hc := by
    obtain ⟨p, hp⟩ := h.held c hc
    refine ⟨e.symm p, ?_⟩
    rw [Function.comp_apply, e.apply_symm_apply]
    exact hp

variable [DecidableEq P]

/-- What a place holds goes to an empty one. -/
theorem move (h : Ledger slot all) (hq : slot q = []) {slot' : P → List α} (hp' : slot' p = [])
    (hq' : slot' q = slot p) (hrest : ∀ r, r ≠ p → r ≠ q → slot' r = slot r) :
      Ledger slot' all := by
  have hswap : slot' = slot ∘ Equiv.swap p q := by
    funext r
    rw [Function.comp_apply]
    by_cases hrp : r = p
    · rw [hrp, Equiv.swap_apply_left, hp', hq]
    · by_cases hrq : r = q
      · rw [hrq, Equiv.swap_apply_right, hq']
      · rw [Equiv.swap_apply_of_ne_of_ne hrp hrq, hrest r hrp hrq]
  rw [hswap]
  exact h.comp (Equiv.swap p q)

/-- A new member comes to a place. -/
theorem add (h : Ledger slot all) (hc : c ∉ all) {slot' : P → List α}
    (hp' : slot' p = slot p ++ [c]) (hrest : ∀ r, r ≠ p → slot' r = slot r) :
    Ledger slot' (all ++ [c]) := by
  have hnew : ∀ r, c ∉ slot r := fun r hr => hc (h.mem hr)
  refine ⟨?_, fun r => ?_, fun r t hrt d hr ht => ?_, fun d hd => ?_⟩
  · rw [List.nodup_append_comm, List.singleton_append, List.nodup_cons]
    exact ⟨hc, h.nodup⟩
  · by_cases hr : r = p
    · rw [hr, hp']
      exact (h.ordered p).append (List.Sublist.refl _)
    · rw [hrest r hr]
      exact (h.ordered r).trans (List.sublist_append_left all [c])
  · -- a place that got nothing does not hold the new member
    have hold : ∀ r, d ∈ slot' r → d ∈ slot r ∨ r = p ∧ d = c := fun r hr => by
      by_cases hrp : r = p
      · rw [hrp, hp', List.mem_append, List.mem_singleton] at hr
        rw [hrp]
        exact hr.imp_right fun hdc => ⟨rfl, hdc⟩
      · rw [hrest r hrp] at hr
        exact .inl hr
    rcases hold r hr with hr' | ⟨rfl, rfl⟩
    · rcases hold t ht with ht' | ⟨-, rfl⟩
      · exact h.apart r t hrt hr' ht'
      · exact hnew r hr'
    · rcases hold t ht with ht' | ⟨rfl, -⟩
      · exact hnew t ht'
      · exact hrt rfl
  · rcases List.mem_append.mp hd with hd | hd
    · obtain ⟨r, hr⟩ := h.held d hd
      refine ⟨r, ?_⟩
      by_cases hrp : r = p
      · rw [hrp] at hr ⊢
        rw [hp']
        exact List.mem_append_left [c] hr
      · rw [hrest r hrp]
        exact hr
    · refine ⟨p, ?_⟩
      rw [hp']
      exact List.mem_append_right (slot p) hd

end Ledger

end Libca.Common
