import Mathlib.SetTheory.Cardinal.Finite

/-!
# Rejection sampling

The first of some draws that is accepted has a result.

* `firstAccepted`: the first accepted draw and the draws after it. `firstAccepted_map`: a map that
  keeps what is accepted maps it.
* `Runs`: the runs of a length with a result. `card_runs_eq`: **two results have as many runs, where
  a permutation of the draws that keeps what is accepted turns one into the other.**
* `card_fiber`, `swapResidue`: the values below a multiple of `n`, by their residues.
-/

namespace Libca.Common

variable {α β : Type}

/-- The first accepted draw, and the draws after it. -/
def firstAccepted (accept : α → Bool) : List α → Option (α × List α)
  | [] => none
  | a :: draws => if accept a then some (a, draws) else firstAccepted accept draws

/-- The runs of `k` draws of which the first accepted one has the result `b`. -/
def Runs (accept : α → Bool) (result : α → β) (k : Nat) (b : β) : Type :=
  { draws : List α // draws.length = k ∧ (firstAccepted accept draws).map (fun drawn =>
    result drawn.1) = some b }

section Runs

variable {accept : α → Bool} {result : α → β}

theorem firstAccepted_map {σ : α → α} (hσ : ∀ a, accept (σ a) = accept a) (draws : List α) :
    firstAccepted accept (draws.map σ) =
      (firstAccepted accept draws).map fun drawn => (σ drawn.1, drawn.2.map σ) := by
  induction draws with
  | nil => rfl
  | cons a draws ih =>
    rw [List.map_cons, firstAccepted, firstAccepted, hσ, ih]
    split_ifs with haccept
    · rfl
    · rfl

theorem accept_of_firstAccepted {draws rest : List α} {a : α}
    (h : firstAccepted accept draws = some (a, rest)) :
    accept a = true := by
  induction draws with
  | nil => cases h
  | cons b draws ih =>
    rw [firstAccepted] at h
    split_ifs at h with haccept
    · obtain ⟨rfl, -⟩ := Prod.mk.inj (Option.some.inj h)
      exact haccept
    · exact ih h

/-- **Two results have as many runs of each length.** -/
theorem card_runs_eq {b b' : β} (σ : Equiv.Perm α) (hσ : ∀ a, accept (σ a) = accept a)
    (hresult : ∀ a, accept a = true → (result (σ a) = b' ↔ result a = b)) (k : Nat) :
    Nat.card (Runs accept result k b) = Nat.card (Runs accept result k b') := by
  refine Nat.card_congr ((Equiv.listEquivOfEquiv σ).subtypeEquiv fun draws => ?_)
  change _ ↔ (draws.map σ).length = k ∧ (firstAccepted accept (draws.map σ)).map _ = some b'
  rw [List.length_map, firstAccepted_map hσ]
  refine and_congr_right fun _ => ?_
  cases hfirst : firstAccepted accept draws with
  | none => exact iff_of_false nofun nofun
  | some drawn =>
    obtain ⟨a, rest⟩ := drawn
    simp only [Option.map_some, Option.some_inj]
    exact (hresult a (accept_of_firstAccepted hfirst)).symm

end Runs

/-! ## Residues -/

section Residues

variable {n limit : Nat}

/-- Two residues are exchanged, where `n` divides what lies before. -/
def swapResidue (n r r' v : Nat) : Nat := v / n * n + Equiv.swap r r' (v % n)

theorem swap_lt {r r' t : Nat} (hr : r < n) (hr' : r' < n) (ht : t < n) : Equiv.swap r r' t <
    n := by
  rw [Equiv.swap_apply_def]
  split_ifs
  · exact hr'
  · exact hr
  · exact ht

theorem swapResidue_div {r r' : Nat} (hr : r < n) (hr' : r' < n) (v : Nat) :
    swapResidue n r r' v / n = v / n := by
  have hpos : 0 < n := by omega
  rw [swapResidue, Nat.mul_comm, Nat.mul_add_div hpos,
    Nat.div_eq_of_lt (swap_lt hr hr' (Nat.mod_lt v hpos)), Nat.add_zero]

theorem swapResidue_mod {r r' : Nat} (hr : r < n) (hr' : r' < n) (v : Nat) :
    swapResidue n r r' v % n = Equiv.swap r r' (v % n) := by
  rw [swapResidue, Nat.mul_comm, Nat.mul_add_mod,
    Nat.mod_eq_of_lt (swap_lt hr hr' (Nat.mod_lt v (by omega)))]

theorem swapResidue_swapResidue {r r' : Nat} (hr : r < n) (hr' : r' < n) (v : Nat) :
    swapResidue n r r' (swapResidue n r r' v) = v := by
  have hback := (Equiv.swap r r').symm_apply_apply (v % n)
  rw [Equiv.symm_swap] at hback
  rw [swapResidue, swapResidue_div hr hr', swapResidue_mod hr hr', hback, Nat.div_add_mod']

/-- Below a multiple of `n`, a value is exchanged for one below it. -/
theorem swapResidue_lt {r r' v : Nat} (hr : r < n) (hr' : r' < n) (hdvd : n ∣ limit)
    (hv : v < limit) :
    swapResidue n r r' v < limit := by
  obtain ⟨q, rfl⟩ := hdvd
  rw [Nat.mul_comm, ← Nat.div_lt_iff_lt_mul (by omega)] at hv ⊢
  rwa [swapResidue_div hr hr']

/-- **Below a multiple of `n` every residue has as many values.** -/
theorem card_fiber {r : Nat} (hr : r < n) (hdvd : n ∣ limit) :
    Nat.card { v : Nat // v < limit ∧ v % n = r } = limit / n := by
  have hpos : 0 < n := by omega
  obtain ⟨q, rfl⟩ := hdvd
  rw [Nat.mul_div_cancel_left q hpos]
  have quotients : { v : Nat // v < n * q ∧ v % n = r } ≃ Fin q := by
    refine ⟨fun v => ⟨v.1 / n, ?_⟩, fun i => ⟨n * i + r, ?_, ?_⟩, fun v => ?_, fun i => ?_⟩
    · exact Nat.div_lt_of_lt_mul v.2.1
    · calc n * i + r < n * (i + 1) := by rw [Nat.mul_succ]; omega
        _ ≤ n * q := Nat.mul_le_mul_left n i.2
    · rw [Nat.mul_add_mod, Nat.mod_eq_of_lt hr]
    · refine Subtype.ext ?_
      obtain ⟨v, -, rfl⟩ := v
      exact Nat.div_add_mod v n
    · refine Fin.ext ?_
      change (n * i + r) / n = i
      rw [Nat.mul_add_div hpos, Nat.div_eq_of_lt hr, Nat.add_zero]
  rw [Nat.card_congr quotients, Nat.card_fin]

end Residues

end Libca.Common
