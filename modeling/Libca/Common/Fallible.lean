import Mathlib.Tactic.Common

/-!
# Fallible computations on a state

`Fallible σ ε α` computes on a state `σ` and ends with a value or an error; a failed computation
keeps the state it failed in, as a member function does that returns an error early.

* `Triple P x Q E`: run in a state with `P`, `x` ends with `Q` when it succeeds and with `E` when it
  fails.
* `Agrees R x R'`: from states related by `R`, `x` ends with equal results, and in states related by
  `R'` when it succeeds. What does not depend on a part of the state is shown so step by step.

* `Keeps P x`: `P` holds after `x` when it held before, whether `x` succeeds or fails.
* `RunsAs P x y`: from states with `P`, `x` runs as `y` does; the errors of `x` may be of another
  type, of which those of `y` are a part.

`triple_bind`, `agrees_bind`, `keeps_bind` and `runsAs_bind` are the rules of sequencing; each
primitive has one rule of each kind.
-/

namespace Libca.Common

/-- A computation on `σ` that fails with `ε` or returns `α`. -/
def Fallible (σ ε α : Type) := σ → Except ε α × σ

namespace Fallible

variable {σ ε α β : Type}

instance : Monad (Fallible σ ε) where
  pure a := fun s => (.ok a, s)
  bind x f := fun s =>
    match x s with
    | (.ok a, s') => f a s'
    | (.error e, s') => (.error e, s')

/-- Fail with `e`. -/
def fail (e : ε) : Fallible σ ε α := fun s => (.error e, s)

/-- The state. -/
def getState : Fallible σ ε σ := fun s => (.ok s, s)

/-- Read from the state. -/
def gets (f : σ → α) : Fallible σ ε α := fun s => (.ok (f s), s)

/-- Change the state. -/
def modify (f : σ → σ) : Fallible σ ε Unit := fun s => (.ok (), f s)

/-- A result computed without the state. -/
def lift (r : Except ε α) : Fallible σ ε α := fun s => (r, s)

/-- Fail with `e` when `c` holds. -/
def failIf (c : Prop) [Decidable c] (e : ε) : Fallible σ ε Unit := if c then fail e else pure ()

/-- Run `x`, and change the state by `f` when it fails. -/
def onError (f : σ → σ) (x : Fallible σ ε α) : Fallible σ ε α := fun s =>
  match x s with
  | (.ok a, s') => (.ok a, s')
  | (.error e, s') => (.error e, f s')

@[simp] theorem pure_apply (a : α) (s : σ) : (pure a : Fallible σ ε α) s = (.ok a, s) := rfl

@[simp] theorem fail_apply (e : ε) (s : σ) : (fail e : Fallible σ ε α) s = (.error e, s) := rfl

@[simp] theorem gets_apply (f : σ → α) (s : σ) :
    (gets f : Fallible σ ε α) s = (.ok (f s), s) := rfl

@[simp] theorem modify_apply (f : σ → σ) (s : σ) :
    (modify f : Fallible σ ε Unit) s = (.ok (), f s) := rfl

@[simp] theorem lift_apply (r : Except ε α) (s : σ) : (lift r : Fallible σ ε α) s = (r, s) := rfl

variable {x : Fallible σ ε α} {f : α → Fallible σ ε β} {s' : σ} {a : α}

variable {s : σ}

theorem bind_ok (h : x s = (.ok a, s')) : (x >>= f) s = f a s' := by
  change (match x s with | (.ok a, s') => f a s' | (.error e, s') => (.error e, s')) = _
  rw [h]

variable {e : ε}

theorem bind_error (h : x s = (.error e, s')) : (x >>= f) s = (.error e, s') := by
  change (match x s with | (.ok a, s') => f a s' | (.error e, s') => (.error e, s')) = _
  rw [h]

/-- Runs that agree go on alike. -/
theorem bind_apply_congr {y : Fallible σ ε α} {t : σ} (h : x s = y t) (f : α → Fallible σ ε β) :
    (x >>= f) s = (y >>= f) t := by
  change (match x s with | (.ok a, s') => f a s' | (.error e, s') => (.error e, s')) = _
  rw [h]
  rfl

/-- A computation that ends as another does, up to `g`, ends as it does in what follows. -/
theorem bind_pure_of_eq {γ : Type} {y : Fallible σ ε β} {g : β → α}
    (hx : x s = (y >>= fun b => pure (g b)) s') (h : α → γ) :
    (x >>= fun a => pure (h a)) s = (y >>= fun b => pure (h (g b))) s' := by
  cases hy : y s' with
  | mk res t =>
    cases res with
    | ok b =>
      rw [bind_ok hy] at hx ⊢
      rw [bind_ok hx]
    | error e =>
      rw [bind_error hy] at hx ⊢
      rw [bind_error hx]

@[simp] theorem pure_bind_apply (a : α) (f : α → Fallible σ ε β) (s : σ) :
    (pure a >>= f) s = f a s := rfl

@[simp] theorem getState_bind_apply (f : σ → Fallible σ ε β) (s : σ) :
    (getState >>= f) s = f s s := rfl

@[simp] theorem gets_bind_apply (g : σ → α) (f : α → Fallible σ ε β) (s : σ) :
    (gets g >>= f) s = f (g s) s := rfl

@[simp] theorem modify_bind_apply (g : σ → σ) (f : Unit → Fallible σ ε β) (s : σ) :
    (modify g >>= f) s = f () (g s) := rfl

@[simp] theorem fail_bind_apply (e : ε) (f : α → Fallible σ ε β) (s : σ) :
    (fail e >>= f) s = (.error e, s) := rfl

variable {c : Prop}

theorem failIf_pos [Decidable c] (h : c) (e : ε) : (failIf c e : Fallible σ ε Unit) = fail e :=
  if_pos h

theorem failIf_neg [Decidable c] (h : ¬ c) (e : ε) : (failIf c e : Fallible σ ε Unit) = pure () :=
  if_neg h

/-! ## What a success says -/

theorem bind_eq_ok {b : β} :
    (x >>= f) s = (.ok b, s') ↔ ∃ a t, x s = (.ok a, t) ∧ f a t = (.ok b, s') := by
  constructor
  · intro h
    cases hx : x s with
    | mk res t =>
      cases res with
      | ok a =>
        rw [bind_ok hx] at h
        exact ⟨a, t, rfl, h⟩
      | error e =>
        rw [bind_error hx] at h
        cases h
  · rintro ⟨a, t, hx, hf⟩
    rw [bind_ok hx, hf]

theorem failIf_eq_ok [Decidable c] {u : Unit} :
    (failIf c e : Fallible σ ε Unit) s = (.ok u, s') ↔ ¬ c ∧ s = s' := by
  by_cases hc : c
  · rw [failIf_pos hc]
    simp [hc]
  · rw [failIf_neg hc]
    simp [hc]

theorem lift_eq_ok {r : Except ε α} :
    (lift r : Fallible σ ε α) s = (.ok a, s') ↔ r = .ok a ∧ s = s' := by
  simp

theorem onError_ok {f : σ → σ} (h : x s = (.ok a, s')) : onError f x s = (.ok a, s') := by
  unfold onError
  rw [h]

theorem onError_error {f : σ → σ} (h : x s = (.error e, s')) : onError f x s =
    (.error e, f s') := by
  unfold onError
  rw [h]

theorem onError_eq_ok {f : σ → σ} : onError f x s = (.ok a, s') ↔ x s = (.ok a, s') := by
  cases hx : x s with
  | mk res t =>
    cases res with
    | ok b => rw [onError_ok hx]
    | error e =>
      rw [onError_error hx]
      constructor <;> intro h <;> cases h

/-! ## Pre- and postconditions -/

/-- Run in a state with `P`, `x` ends with `Q` when it succeeds and with `E` when it fails. -/
def Triple (P : σ → Prop) (x : Fallible σ ε α) (Q : α → σ → Prop) (E : ε → σ → Prop) : Prop :=
  ∀ s, P s → match x s with
    | (.ok a, s') => Q a s'
    | (.error e, s') => E e s'

section Triple

variable {P : σ → Prop} {Q : α → σ → Prop} {E : ε → σ → Prop}

theorem Triple.ok {x : Fallible σ ε α} (h : Triple P x Q E) {s s' : σ} {a : α} (hs : P s)
    (hx : x s = (.ok a, s')) : Q a s' := by
  have hxs := h s hs
  rw [hx] at hxs
  exact hxs

theorem Triple.error {x : Fallible σ ε α} (h : Triple P x Q E) {s s' : σ} {e : ε} (hs : P s)
    (hx : x s = (.error e, s')) : E e s' := by
  have hxs := h s hs
  rw [hx] at hxs
  exact hxs

theorem Triple.mono {P' : σ → Prop} {Q' : α → σ → Prop} {E' : ε → σ → Prop}
    {x : Fallible σ ε α} (h : Triple P x Q E) (hP : ∀ s, P' s → P s) (hQ : ∀ a s, Q a s → Q' a s)
    (hE : ∀ e s, E e s → E' e s) : Triple P' x Q' E' := by
  intro s hs
  cases hx : x s with
  | mk res s' =>
    cases res with
    | ok a => exact hQ a s' (h.ok (hP s hs) hx)
    | error e => exact hE e s' (h.error (hP s hs) hx)

theorem Triple.success {x : Fallible σ ε α} (h : Triple P x Q E) : Triple P x Q fun _ _ => True :=
  h.mono (fun _ h => h) (fun _ _ h => h) fun _ _ _ => trivial

theorem triple_trivial (x : Fallible σ ε α) : Triple P x (fun _ _ => True) fun _ _ => True := by
  intro s _
  split <;> trivial

theorem triple_pure {a : α} (h : ∀ s, P s → Q a s) : Triple P (pure a : Fallible σ ε α) Q E := h

theorem triple_fail {e : ε} (h : ∀ s, P s → E e s) : Triple P (fail e : Fallible σ ε α) Q E := h

theorem triple_gets {f : σ → α} (h : ∀ s, P s → Q (f s) s) : Triple P (gets f) Q E := h

theorem triple_modify {f : σ → σ} {Q : Unit → σ → Prop} (h : ∀ s, P s → Q () (f s)) :
    Triple P (modify f) Q E := h

theorem triple_lift {r : Except ε α} (hok : ∀ a s, r = .ok a → P s → Q a s)
    (herror : ∀ e s, r = .error e → P s → E e s) : Triple P (lift r) Q E := by
  intro s hs
  cases r with
  | ok a => exact hok a s rfl hs
  | error e => exact herror e s rfl hs

/-- **The rule of sequencing.** -/
theorem triple_bind {S : α → σ → Prop} {Q : β → σ → Prop} {x : Fallible σ ε α}
    {f : α → Fallible σ ε β} (hx : Triple P x S E) (hf : ∀ a, Triple (S a) (f a) Q E) :
    Triple P (x >>= f) Q E := by
  intro s hs
  cases hxs : x s with
  | mk res s' =>
    cases res with
    | ok a =>
      rw [bind_ok hxs]
      exact hf a s' (hx.ok hs hxs)
    | error e =>
      rw [bind_error hxs]
      exact hx.error hs hxs

/-- What the precondition says of things outside of the state may be assumed. -/
theorem triple_of_pre {c : Prop} {x : Fallible σ ε α} (hc : ∀ s, P s → c)
    (h : c → Triple P x Q E) : Triple P x Q E :=
  fun s hs => h (hc s hs) s hs

/-- What follows a read knows what was read. -/
theorem triple_gets_bind {g : σ → α} {Q : β → σ → Prop} {f : α → Fallible σ ε β}
    (hf : ∀ a, Triple (fun s => P s ∧ g s = a) (f a) Q E) : Triple P (gets g >>= f) Q E :=
  fun s hs => hf (g s) s ⟨hs, rfl⟩

/-- What follows runs on the state that was read. -/
theorem triple_getState_bind {Q : β → σ → Prop} {f : σ → Fallible σ ε β}
    (hf : ∀ t, P t → Triple (fun s => s = t) (f t) Q E) : Triple P (getState >>= f) Q E :=
  fun s hs => hf s hs s rfl

theorem triple_ite {c : Prop} [Decidable c] {x y : Fallible σ ε α} (hx : c → Triple P x Q E)
    (hy : ¬ c → Triple P y Q E) : Triple P (if c then x else y) Q E := by
  split
  · exact hx ‹c›
  · exact hy ‹¬ c›

theorem triple_failIf {c : Prop} [Decidable c] {e : ε} {Q : Unit → σ → Prop}
    (hneg : ∀ s, ¬ c → P s → Q () s) (hpos : ∀ s, c → P s → E e s) : Triple P (failIf c e) Q E :=
  triple_ite (fun hc => triple_fail fun s hs => hpos s hc hs) fun hc =>
    triple_pure fun s hs => hneg s hc hs

end Triple

/-! ## What is kept -/

/-- `P` holds after `x` when it held before. -/
def Keeps (P : σ → Prop) (x : Fallible σ ε α) : Prop := Triple P x (fun _ => P) fun _ => P

section Keeps

variable {P : σ → Prop}

theorem Keeps.state {x : Fallible σ ε α} (h : Keeps P x) {s : σ} (hs : P s) : P (x s).2 := by
  cases hx : x s with
  | mk res s' =>
    cases res with
    | ok a => exact h.ok hs hx
    | error e => exact h.error hs hx

theorem keeps_of_state {x : Fallible σ ε α} (h : ∀ s, P s → P (x s).2) : Keeps P x := by
  intro s hs
  have hs' := h s hs
  cases hx : x s with
  | mk res s' =>
    rw [hx] at hs'
    cases res with
    | ok a => exact hs'
    | error e => exact hs'

theorem keeps_pure (a : α) : Keeps P (pure a : Fallible σ ε α) := triple_pure fun _ h => h

theorem keeps_fail (e : ε) : Keeps P (fail e : Fallible σ ε α) := triple_fail fun _ h => h

theorem keeps_gets (f : σ → α) : Keeps P (gets f : Fallible σ ε α) := triple_gets fun _ h => h

theorem keeps_lift (r : Except ε α) : Keeps P (lift r : Fallible σ ε α) :=
  triple_lift (fun _ _ _ h => h) fun _ _ _ h => h

theorem keeps_modify {f : σ → σ} (h : ∀ s, P s → P (f s)) :
    Keeps P (modify f : Fallible σ ε Unit) :=
  triple_modify h

theorem keeps_failIf (c : Prop) [Decidable c] (e : ε) : Keeps P (failIf c e : Fallible σ ε Unit) :=
  triple_failIf (fun _ _ h => h) fun _ _ h => h

theorem keeps_bind {x : Fallible σ ε α} {f : α → Fallible σ ε β} (hx : Keeps P x)
    (hf : ∀ a, Keeps P (f a)) : Keeps P (x >>= f) :=
  triple_bind hx hf

theorem keeps_ite {c : Prop} [Decidable c] {x y : Fallible σ ε α} (hx : c → Keeps P x)
    (hy : ¬ c → Keeps P y) : Keeps P (if c then x else y) :=
  triple_ite hx hy

/-- What follows a test knows that it did not fail. -/
theorem triple_failIf_bind {P : σ → Prop} {Q : β → σ → Prop} {E : ε → σ → Prop} {c : Prop}
    [Decidable c] {e : ε} {f : Unit → Fallible σ ε β} (hpos : ∀ s, c → P s → E e s)
    (hf : ¬ c → Triple P (f ()) Q E) : Triple P (failIf c e >>= f) Q E := by
  by_cases hc : c
  · rw [failIf_pos hc]
    exact fun s hs => hpos s hc hs
  · rw [failIf_neg hc]
    exact hf hc

theorem triple_onError {f : σ → σ} {x : Fallible σ ε α} {Q : α → σ → Prop} {E D : ε → σ → Prop}
    (hx : Triple P x Q D) (hf : ∀ e s, D e s → E e (f s)) : Triple P (onError f x) Q E := by
  intro s hs
  cases hxs : x s with
  | mk res s' =>
    cases res with
    | ok a =>
      rw [onError_ok hxs]
      exact hx.ok hs hxs
    | error e =>
      rw [onError_error hxs]
      exact hf e s' (hx.error hs hxs)

end Keeps

/-! ## Running as another computation -/

section RunsAs

variable {ε' : Type}

/-- The same computation with its errors renamed by `g`. -/
def mapError (g : ε → ε') (x : Fallible σ ε α) : Fallible σ ε' α := fun s =>
  match x s with
  | (.ok a, s') => (.ok a, s')
  | (.error e, s') => (.error (g e), s')

/-- From states with `P`, `x` runs as `y` does, with the errors of `y` renamed by `g`. -/
def RunsAs (g : ε → ε') (P : σ → Prop) (x : Fallible σ ε' α) (y : Fallible σ ε α) : Prop :=
  ∀ s, P s → x s = mapError g y s

variable {g : ε → ε'} {P S : σ → Prop}

theorem mapError_bind (x : Fallible σ ε α) (f : α → Fallible σ ε β) :
    mapError g (x >>= f) = mapError g x >>= fun a => mapError g (f a) := by
  funext s
  cases hx : x s with
  | mk res s' =>
    cases res with
    | ok a =>
      have hg : mapError g x s = (.ok a, s') := by
        unfold mapError
        rw [hx]
      rw [bind_ok hg]
      unfold mapError
      rw [bind_ok hx]
    | error e =>
      have hg : mapError g x s = (.error (g e), s') := by
        unfold mapError
        rw [hx]
      rw [bind_error hg]
      unfold mapError
      rw [bind_error hx]

theorem runsAs_mapError (x : Fallible σ ε α) : RunsAs g P (mapError g x) x := fun _ _ => rfl

theorem runsAs_pure (a : α) : RunsAs g P (pure a : Fallible σ ε' α) (pure a) := fun _ _ => rfl

theorem runsAs_fail (e : ε) : RunsAs g P (fail (g e) : Fallible σ ε' α) (fail e) := fun _ _ => rfl

theorem runsAs_gets (f : σ → α) : RunsAs g P (gets f : Fallible σ ε' α) (gets f) := fun _ _ => rfl

theorem runsAs_modify (f : σ → σ) : RunsAs g P (modify f : Fallible σ ε' Unit) (modify f) :=
  fun _ _ => rfl

variable {y : Fallible σ ε α}

/-- **The rule of sequencing**: what follows runs from the states that the first part ends in. -/
theorem runsAs_bind {x : Fallible σ ε' α} {S : α → σ → Prop}
    {E : ε → σ → Prop} {f : α → Fallible σ ε' β} {h : α → Fallible σ ε β} (hx : RunsAs g P x y)
    (ht : Triple P y S E) (hf : ∀ a, RunsAs g (S a) (f a) (h a)) :
    RunsAs g P (x >>= f) (y >>= h) := by
  intro s hs
  have hxs := hx s hs
  rw [mapError_bind]
  cases hy : y s with
  | mk res s' =>
    unfold mapError at hxs
    rw [hy] at hxs
    have hg : mapError g y s = x s := by
      unfold mapError
      rw [hy, hxs]
    cases res with
    | ok a =>
      rw [bind_ok hxs, bind_ok (hg.trans hxs)]
      exact hf a s' (ht.ok hs hy)
    | error e => rw [bind_error hxs, bind_error (hg.trans hxs)]

/-- What follows a test runs where the test does not fail. -/
theorem runsAs_failIf_bind {c : Prop} [Decidable c] {e : ε} {f : Unit → Fallible σ ε' β}
    {h : Unit → Fallible σ ε β} (hf : ¬ c → RunsAs g P (f ()) (h ())) :
    RunsAs g P (failIf c (g e) >>= f) (failIf c e >>= h) := by
  by_cases hc : c
  · rw [failIf_pos hc, failIf_pos hc]
    exact fun _ _ => rfl
  · rw [failIf_neg hc, failIf_neg hc]
    exact hf hc

/-- What follows a read knows what was read. -/
theorem runsAs_gets_bind {k : σ → α} {f : α → Fallible σ ε' β} {h : α → Fallible σ ε β}
    (hf : ∀ a, RunsAs g (fun s => P s ∧ k s = a) (f a) (h a)) :
    RunsAs g P (gets k >>= f) (gets k >>= h) :=
  fun s hs => hf (k s) s ⟨hs, rfl⟩

/-- A step of `x` alone that succeeds without changing the state. -/
theorem runsAs_skip {x : Fallible σ ε' α} {a : α} {f : α → Fallible σ ε' β} {y : Fallible σ ε β}
    (hx : ∀ s, P s → x s = (.ok a, s)) (hf : RunsAs g P (f a) y) : RunsAs g P (x >>= f) y := by
  intro s hs
  rw [bind_ok (hx s hs)]
  exact hf s hs

theorem runsAs_ite {c : Prop} [Decidable c] {x x' : Fallible σ ε' α} {y' : Fallible σ ε α}
    (hx : c → RunsAs g P x y) (hy : ¬ c → RunsAs g P x' y') :
    RunsAs g P (if c then x else x') (if c then y else y') := by
  by_cases hc : c
  · rw [if_pos hc, if_pos hc]
    exact hx hc
  · rw [if_neg hc, if_neg hc]
    exact hy hc

theorem runsAs_onError {f : σ → σ} {x : Fallible σ ε' α}
    (hx : RunsAs g P x y) : RunsAs g P (onError f x) (onError f y) := by
  intro s hs
  have hxs := hx s hs
  cases hy : y s with
  | mk res s' =>
    unfold mapError at hxs
    rw [hy] at hxs
    cases res with
    | ok a =>
      rw [onError_ok hxs]
      unfold mapError
      rw [onError_ok hy]
    | error e =>
      rw [onError_error hxs]
      unfold mapError
      rw [onError_error hy]

theorem RunsAs.mono {x : Fallible σ ε' α} (h : RunsAs g S x y)
    (hP : ∀ s, P s → S s) : RunsAs g P x y :=
  fun s hs => h s (hP s hs)

end RunsAs

/-! ## What does not depend on a part of the state -/

/-- Two ends of a computation: equal results, and states related by `R` if it succeeded. -/
structure Same (R : σ → σ → Prop) (p q : Except ε α × σ) : Prop where
  result : p.1 = q.1
  state : ∀ a, p.1 = .ok a → R p.2 q.2

/-- From states related by `R`, `x` ends with equal results, and in states related by `R'` if it
succeeds. -/
def Agrees (R : σ → σ → Prop) (x : Fallible σ ε α) (R' : σ → σ → Prop) : Prop :=
  ∀ s t, R s t → Same R' (x s) (x t)

section Agrees

variable {R R' S : σ → σ → Prop}

theorem agrees_pure (a : α) : Agrees R (pure a : Fallible σ ε α) R :=
  fun _ _ h => ⟨rfl, fun _ _ => h⟩

theorem agrees_fail (e : ε) : Agrees R (fail e : Fallible σ ε α) R' :=
  fun _ _ _ => ⟨rfl, fun _ h => nomatch h⟩

theorem agrees_lift (r : Except ε α) : Agrees R (lift r : Fallible σ ε α) R :=
  fun _ _ h => ⟨rfl, fun _ _ => h⟩

theorem agrees_gets {f : σ → α} (hf : ∀ s t, R s t → f s = f t) :
    Agrees R (gets f : Fallible σ ε α) R :=
  fun s t h => ⟨congrArg Except.ok (hf s t h), fun _ _ => h⟩

theorem agrees_modify {f : σ → σ} (hf : ∀ s t, R s t → R' (f s) (f t)) :
    Agrees R (modify f : Fallible σ ε Unit) R' :=
  fun s t h => ⟨rfl, fun _ _ => hf s t h⟩

/-- The two runs of `x` fail alike, or succeed alike in related states. -/
theorem Agrees.cases {x : Fallible σ ε α} (hx : Agrees R x R') {s t : σ} (h : R s t) :
    (∃ e s' t', x s = (.error e, s') ∧ x t = (.error e, t')) ∨
      ∃ a s' t', x s = (.ok a, s') ∧ x t = (.ok a, t') ∧ R' s' t' := by
  have hst := hx s t h
  cases hs : x s with
  | mk res s' =>
    cases ht : x t with
    | mk res' t' =>
      rw [hs, ht] at hst
      obtain rfl : res = res' := hst.result
      cases res with
      | error e => exact .inl ⟨e, s', t', rfl, rfl⟩
      | ok a => exact .inr ⟨a, s', t', rfl, rfl, hst.state a rfl⟩

/-- **The rule of sequencing.** -/
theorem agrees_bind {x : Fallible σ ε α} {f : α → Fallible σ ε β} (hx : Agrees R x R')
    (hf : ∀ a, Agrees R' (f a) S) : Agrees R (x >>= f) S := by
  intro s t h
  obtain ⟨e, s', t', hs, ht⟩ | ⟨a, s', t', hs, ht, h'⟩ := hx.cases h
  · rw [bind_error hs, bind_error ht]
    exact ⟨rfl, fun _ h => nomatch h⟩
  · rw [bind_ok hs, bind_ok ht]
    exact hf a s' t' h'

theorem agrees_ite {c : Prop} [Decidable c] {x y : Fallible σ ε α} (hx : c → Agrees R x R')
    (hy : ¬ c → Agrees R y R') : Agrees R (if c then x else y) R' := by
  split
  · exact hx ‹c›
  · exact hy ‹¬ c›

theorem agrees_failIf (c : Prop) [Decidable c] (e : ε) :
    Agrees R (failIf c e : Fallible σ ε Unit) R :=
  agrees_ite (fun _ => agrees_fail e) fun _ => agrees_pure ()

/-- A postcondition of one run holds beside the relation. -/
theorem Agrees.and_triple {x : Fallible σ ε α} (hx : Agrees R x R') {P : σ → Prop}
    {Q : σ → Prop} {E : ε → σ → Prop} (ht : Triple P x (fun _ => Q) E) :
    Agrees (fun s t => R s t ∧ P s) x fun s t => R' s t ∧ Q s := by
  rintro s t ⟨h, hP⟩
  obtain ⟨e, s', t', hs, ht'⟩ | ⟨a, s', t', hs, ht', h'⟩ := hx.cases h
  · rw [hs, ht']
    exact ⟨rfl, fun _ h => nomatch h⟩
  · rw [hs, ht']
    exact ⟨rfl, fun _ _ => ⟨h', ht.ok hP hs⟩⟩

end Agrees

end Fallible

end Libca.Common
