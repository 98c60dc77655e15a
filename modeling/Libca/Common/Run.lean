import Mathlib.Tactic.Common

/-!
# Runs of a labelled transition system

A system is a partial step function `step : σ → α → Option σ`: `none` is an action that is not
enabled. `Reach step ok init` holds of the states of the runs from `init` whose steps all meet
`ok`, a condition on the state before the step and the action taken; `fun _ _ => True` gives the
unrestricted runs.

* `Reach.invariant`: what holds initially and is kept by every allowed step holds in every state
  reached.
* `Reach.mono`: a weaker condition reaches more states.
* `run`, `Reach.run`: the executable run of a list of actions, and that its last state is reached
  when a check along it says that every step was allowed; `Reach.exists_of_run` for a state with a
  given property.
-/

namespace Libca.Common

variable {σ α : Type}

/-- The states reached from `init` by steps that all meet `ok`. -/
inductive Reach (step : σ → α → Option σ) (ok : σ → α → Prop) (init : σ) : σ → Prop
  | init : Reach step ok init init
  | step {s s' : σ} (a : α) : Reach step ok init s → ok s a → step s a = some s' →
      Reach step ok init s'

/-- Run a list of actions, checking `check` before each; `none` when one of them is refused by
`check` or not enabled. -/
def run (step : σ → α → Option σ) (check : σ → α → Bool) : List α → σ → Option σ
  | [], s => some s
  | a :: as, s => if check s a then (step s a).bind (run step check as) else none

variable {step : σ → α → Option σ} {ok ok' : σ → α → Prop} {init : σ}

/-- **The invariant rule.** -/
theorem Reach.invariant (I : σ → Prop) (h0 : I init)
    (hstep : ∀ s a s', I s → ok s a → step s a = some s' → I s') {s : σ}
    (h : Reach step ok init s) : I s := by
  induction h with
  | init => exact h0
  | step a _ hok hs ih => exact hstep _ a _ ih hok hs

theorem Reach.mono (hok : ∀ s a, ok s a → ok' s a) {s : σ} (h : Reach step ok init s) :
    Reach step ok' init s := by
  induction h with
  | init => exact .init
  | step a _ ha hs ih => exact .step a ih (hok _ _ ha) hs

/-- **A checked run reaches its last state.** -/
theorem Reach.run {check : σ → α → Bool} (hok : ∀ s a, check s a = true → ok s a) :
    ∀ {as : List α} {s s' : σ}, Reach step ok init s → run step check as s = some s' →
      Reach step ok init s'
  | [], _, _, hs, hr => by
    cases hr
    exact hs
  | a :: as, s, s', hs, hr => by
    unfold Common.run at hr
    split_ifs at hr with hc
    obtain ⟨s₁, ha, hr⟩ := Option.bind_eq_some_iff.mp hr
    exact Reach.run hok (.step a hs (hok s a hc) ha) hr

theorem Reach.exists_of_run {check : σ → α → Bool} (hok : ∀ s a, check s a = true → ok s a)
    {as : List α} {p : σ → Bool} (h : (Common.run step check as init).any p = true) :
    ∃ s, Reach step ok init s ∧ p s = true := by
  obtain ⟨s, hs, hp⟩ := (Option.any_eq_true p _).mp h
  exact ⟨s, Reach.run hok .init hs, hp⟩

end Libca.Common
