import Mathlib.Tactic.Common

/-!
# The first failure, or everything that was collected

A traversal that stops at the first failure and collects a list as long as there is none.

* `report`: the first of the failures, or else a result.
* `report_bind`: reports in sequence have their failures in sequence.
* `foldlM_report`: **a traversal reports the failures of its elements, or what all of them add.**
-/

namespace Libca.Common

variable {ε α β γ : Type}

/-- The first failure, or else the result. -/
def report (failures : List ε) (result : α) : Except ε α :=
  match failures with
  | e :: _ => .error e
  | [] => .ok result

@[simp] theorem report_nil (result : α) : report ([] : List ε) result = .ok result := rfl

@[simp] theorem report_cons (e : ε) (failures : List ε) (result : α) :
    report (e :: failures) result = .error e := rfl

/-- **Reports in sequence.** -/
theorem report_bind (as bs : List ε) (a : α) (f : α → β) :
    (report as a >>= fun a => report bs (f a)) = report (as ++ bs) (f a) := by
  cases as with
  | nil => rfl
  | cons e as => rfl

theorem report_eq_ok {failures : List ε} {a b : α} :
    report failures a = .ok b ↔ failures = [] ∧ a = b := by
  cases failures with
  | nil => simp
  | cons e failures => simp

/-- **A traversal of elements that fail or add to a list.** -/
theorem foldlM_report {f : List β → γ → Except ε (List β)} {fails : γ → List ε} {adds : γ → List β}
    {as : List γ} (h : ∀ a ∈ as, ∀ acc, f acc a = report (fails a) (acc ++ adds a)) (acc : List β) :
    as.foldlM f acc = report (as.flatMap fails) (acc ++ as.flatMap adds) := by
  induction as generalizing acc with
  | nil => simp [pure, Except.pure]
  | cons a as ih =>
    rw [List.foldlM_cons, h a (.head _), List.flatMap_cons, List.flatMap_cons, ← List.append_assoc,
      ← report_bind _ _ (acc ++ adds a) fun acc => acc ++ as.flatMap adds]
    exact bind_congr fun acc => ih (fun b hb => h b (.tail _ hb)) acc

end Libca.Common
