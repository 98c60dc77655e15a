import Libca.Common.Search

/-!
# Indexes where the last entry wins

Entries with keys are sorted so that equal keys keep their order, the last of equal keys is kept,
and keys are searched by bisection.

* `lastOf`: the last entry with a key. `lastOf_append`.
* `sortedLast`: sorted, each key once. `pairwise_sortedLast`, `lastOf_sortedLast`: **the last entry
  of a key is the one that is kept.**
* `lowerBound_spec`: where the keys ascend, `std::lower_bound` parts the entries below a key from
  the others.
* `searchKey_eq`: where the keys ascend, bisection finds the entry of a key.
-/

namespace Libca.Common

variable {α κ : Type} {key : α → κ} {k : κ} {x y : α} {xs : List α}

/-- The last entry with a key. -/
def lastOf [DecidableEq κ] (key : α → κ) (k : κ) (xs : List α) : Option α :=
  (xs.filter fun x => key x = k).getLast?

/-- Sorted by key; equal keys keep their order. -/
def stableSort [LT κ] [DecidableLT κ] (key : α → κ) (xs : List α) : List α :=
  xs.mergeSort fun x y => ¬ key y < key x

/-- Of neighbours with one key the last, from the back on. -/
def keepLast [DecidableEq κ] (key : α → κ) : List α → List α
  | [] => []
  | x :: xs =>
    match keepLast key xs with
    | [] => [x]
    | y :: ys => if key y = key x then y :: ys else x :: y :: ys

/-- Sorted, with the last entry of each key. -/
def sortedLast [LT κ] [DecidableLT κ] [DecidableEq κ] (key : α → κ) (xs : List α) : List α :=
  keepLast key (stableSort key xs)

/-- `std::lower_bound` for a key. -/
def lowerBound [LT κ] [DecidableLT κ] (key : α → κ) (k : κ) (xs : List α) : Nat :=
  firstFalse (fun i => (xs[i]?).any fun x => key x < k) 0 xs.length

/-- `std::lower_bound` for a key, and the entry there if it has the key. -/
def searchKey [LT κ] [DecidableLT κ] [DecidableEq κ] (key : α → κ) (k : κ) (xs : List α) :
    Option α :=
  let it := firstFalse (fun i => (xs[i]?).any fun x => key x < k) 0 xs.length
  match xs[it]? with
  | none => none
  | some x => if key x ≠ k then none else some x

/-! ## The last entry -/

section Last

variable [DecidableEq κ]

@[simp] theorem lastOf_nil : lastOf key k ([] : List α) = none := rfl

theorem lastOf_append (key : α → κ) (k : κ) (xs ys : List α) :
    lastOf key k (xs ++ ys) = (lastOf key k ys).or (lastOf key k xs) := by
  unfold lastOf
  rw [List.filter_append, List.getLast?_append]

theorem lastOf_cons (key : α → κ) (k : κ) (x : α) (xs : List α) :
    lastOf key k (x :: xs) = (lastOf key k xs).or (if key x = k then some x else none) := by
  rw [← List.singleton_append, lastOf_append]
  congr 1
  unfold lastOf
  split_ifs with hx
  · simp [hx]
  · simp [hx]

theorem mem_of_lastOf (h : lastOf key k xs = some x) : x ∈ xs ∧ key x = k := by
  have hmem := List.mem_filter.mp (List.mem_of_getLast? h)
  exact ⟨hmem.1, of_decide_eq_true hmem.2⟩

theorem exists_lastOf (hx : x ∈ xs) (hk : key x = k) : ∃ y, lastOf key k xs = some y := by
  have hmem : x ∈ xs.filter fun x => key x = k := List.mem_filter.mpr ⟨hx, decide_eq_true hk⟩
  exact ⟨_, List.getLast?_eq_some_getLast (List.ne_nil_of_mem hmem)⟩

theorem lastOf_eq_none (h : ∀ x ∈ xs, key x ≠ k) : lastOf key k xs = none := by
  rw [Option.eq_none_iff_forall_ne_some]
  exact fun x hx => h x (mem_of_lastOf hx).1 (mem_of_lastOf hx).2

theorem mem_of_mem_keepLast (h : x ∈ keepLast key xs) : x ∈ xs := by
  induction xs with
  | nil => exact h
  | cons y xs ih =>
    rw [keepLast] at h
    cases hkept : keepLast key xs with
    | nil =>
      rw [hkept] at h
      rw [List.mem_singleton.mp h]
      exact .head _
    | cons z zs =>
      rw [hkept] at h ih
      dsimp only at h
      split_ifs at h with heq
      · exact List.mem_cons_of_mem y (ih h)
      · rcases List.mem_cons.mp h with rfl | h
        · exact .head _
        · exact List.mem_cons_of_mem y (ih h)

/-- Of what is left out, an entry with the same key is kept behind. -/
theorem lastOf_keepLast (key : α → κ) (k : κ) (xs : List α) :
    lastOf key k (keepLast key xs) = lastOf key k xs := by
  induction xs with
  | nil => rfl
  | cons x xs ih =>
    rw [lastOf_cons, ← ih, keepLast]
    cases hkept : keepLast key xs with
    | nil => exact lastOf_cons key k x []
    | cons y ys =>
      dsimp only
      split_ifs with heq hx
      · obtain ⟨z, hz⟩ := exists_lastOf (List.mem_cons_self : y ∈ y :: ys) (heq.trans hx)
        rw [hz]
        rfl
      · rw [Option.or_none]
      · rw [lastOf_cons key k x, if_pos ‹_›]
      · rw [lastOf_cons key k x, if_neg ‹_›]

end Last

/-! ## Sorting -/

section Order

/-- Of entries with one key there is one. -/
theorem eq_of_pairwise [LT κ] [Std.Irrefl (α := κ) (· < ·)] (hxs : xs.Pairwise fun x y =>
    key x < key y) (hx : x ∈ xs) (hy : y ∈ xs) (hkey : key x = key y) : x = y := by
  induction xs with
  | nil => cases hx
  | cons z xs ih =>
    have hcons := List.pairwise_cons.mp hxs
    rcases List.mem_cons.mp hx with rfl | hx' <;> rcases List.mem_cons.mp hy with rfl | hy'
    · rfl
    · exact absurd (hkey ▸ hcons.1 y hy') Std.lt_irrefl
    · exact absurd (hkey ▸ hcons.1 x hx') Std.lt_irrefl
    · exact ih hcons.2 hx' hy'

/-- Where the keys ascend, the last entry of a key is the entry of the key. -/
theorem lastOf_eq_some [DecidableEq κ] [LT κ] [Std.Irrefl (α := κ) (· < ·)]
    (hxs : xs.Pairwise fun x y => key x < key y) (hx : x ∈ xs) (hk : key x = k) :
    lastOf key k xs = some x := by
  obtain ⟨y, hy⟩ := exists_lastOf hx hk
  obtain ⟨hmem, hyk⟩ := mem_of_lastOf hy
  rw [hy, eq_of_pairwise hxs hmem hx (hyk.trans hk.symm)]

variable [LT κ] [Trans (α := κ) (β := κ) (γ := κ) (· < ·) (· < ·) (· < ·)]

theorem not_lt_trans [Std.Trichotomous (α := κ) (· < ·)] {a b c : κ} (hab : ¬ b < a)
    (hbc : ¬ c < b) : ¬ c < a := by
  intro hca
  rcases Std.lt_trichotomy b c with hlt | rfl | hlt
  · exact hab (Std.lt_trans hlt hca)
  · exact hab hca
  · exact hbc hlt

theorem not_lt_total [Std.Irrefl (α := κ) (· < ·)] (a b : κ) : ¬ b < a ∨ ¬ a < b :=
  not_and_or.mp fun h => Std.lt_irrefl (Std.lt_trans h.1 h.2)

/-- Of neighbours that may be equal those that ascend are kept. -/
theorem pairwise_keepLast [DecidableEq κ] [Std.Trichotomous (α := κ) (· < ·)]
    (hxs : xs.Pairwise fun x y => ¬ key y < key x) :
    (keepLast key xs).Pairwise fun x y => key x < key y := by
  induction xs with
  | nil => exact List.Pairwise.nil
  | cons x xs ih =>
    have hcons := List.pairwise_cons.mp hxs
    have hkeptSorted := ih hcons.2
    rw [keepLast]
    cases hkept : keepLast key xs with
    | nil => exact List.pairwise_singleton _ _
    | cons y ys =>
      rw [hkept] at hkeptSorted
      dsimp only
      split_ifs with heq
      · exact hkeptSorted
      · have hkeptMem : y ∈ keepLast key xs := hkept ▸ .head _
        have hy : y ∈ xs := mem_of_mem_keepLast hkeptMem
        have hxy : key x < key y := by
          rcases Std.lt_trichotomy (key x) (key y) with hlt | hkeys | hgt
          · exact hlt
          · exact absurd hkeys.symm heq
          · exact absurd hgt (hcons.1 y hy)
        refine List.pairwise_cons.mpr ⟨fun z hz => ?_, hkeptSorted⟩
        rcases List.mem_cons.mp hz with rfl | hz
        · exact hxy
        · exact Std.lt_trans hxy ((List.pairwise_cons.mp hkeptSorted).1 z hz)

variable [DecidableLT κ] [Std.Irrefl (α := κ) (· < ·)] [Std.Trichotomous (α := κ) (· < ·)]

theorem pairwise_stableSort (key : α → κ) (xs : List α) :
    (stableSort key xs).Pairwise fun x y => ¬ key y < key x := by
  have hsorted := @List.pairwise_mergeSort α (fun x y => ¬ key y < key x)
    (fun x y z hxy hyz =>
      decide_eq_true (not_lt_trans (of_decide_eq_true hxy) (of_decide_eq_true hyz)))
    (fun x y => by
      rw [Bool.or_eq_true, decide_eq_true_eq, decide_eq_true_eq]
      exact not_lt_total (key x) (key y)) xs
  exact hsorted.imp of_decide_eq_true

variable [DecidableEq κ]

/-- The entries with one key keep their order. -/
theorem filter_stableSort (key : α → κ) (k : κ) (xs : List α) :
    (stableSort key xs).filter (fun x => key x = k) = xs.filter fun x => key x = k := by
  have hpairwise : (xs.filter fun x => key x = k).Pairwise fun x y => (decide (¬ key y < key x)) =
    true := by
    refine List.pairwise_of_forall_mem_list fun x hx y hy => decide_eq_true ?_
    rw [of_decide_eq_true (List.mem_filter.mp hx).2, of_decide_eq_true (List.mem_filter.mp hy).2]
    exact Std.lt_irrefl
  have hsub := @List.sublist_mergeSort α (fun x y => ¬ key y < key x) xs
    (fun x y z hxy hyz =>
      decide_eq_true (not_lt_trans (of_decide_eq_true hxy) (of_decide_eq_true hyz)))
    (fun x y => by
      rw [Bool.or_eq_true, decide_eq_true_eq, decide_eq_true_eq]
      exact not_lt_total (key x) (key y)) _ hpairwise List.filter_sublist
  have hkept := hsub.filter fun x => key x = k
  simp only [List.filter_filter, Bool.and_self] at hkept
  have hlength := ((List.mergeSort_perm xs fun x y => ¬ key y < key x).filter fun x =>
    key x = k).length_eq
  exact (hkept.eq_of_length hlength.symm).symm

theorem lastOf_sortedLast (key : α → κ) (k : κ) (xs : List α) :
    lastOf key k (sortedLast key xs) = lastOf key k xs := by
  rw [sortedLast, lastOf_keepLast]
  unfold lastOf
  rw [filter_stableSort]

/-- **Each key is there once, in ascending order.** -/
theorem pairwise_sortedLast (key : α → κ) (xs : List α) :
    (sortedLast key xs).Pairwise fun x y => key x < key y :=
  pairwise_keepLast (pairwise_stableSort key xs)

/-! ## The search -/

omit [Trans (α := κ) (β := κ) (γ := κ) (· < ·) (· < ·) (· < ·)] [Std.Irrefl (α := κ) (· < ·)]
  [Std.Trichotomous (α := κ) (· < ·)] [DecidableEq κ] in
theorem lowerBound_le (key : α → κ) (k : κ) (xs : List α) : lowerBound key k xs ≤ xs.length :=
  firstFalse_le _ _ _ (Nat.zero_le _)

omit [Std.Irrefl fun (x y : κ) => x < y] [Std.Trichotomous fun (x y : κ) =>
  x < y] [DecidableEq κ] in
/-- **Where the keys ascend, `std::lower_bound` parts the entries below a key from the others.** -/
theorem lowerBound_spec (hxs : xs.Pairwise fun x y => key x < key y) (k : κ) :
    (∀ x ∈ xs.take (lowerBound key k xs), key x < k) ∧ ∀ x ∈ xs.drop (lowerBound key k xs),
      ¬ key x < k := by
  have hsorted := List.pairwise_iff_getElem.mp hxs
  have htest {i : Nat} (hi : i < xs.length) : ((xs[i]?).any fun x => key x < k) =
    decide (key xs[i] < k) := by
    rw [List.getElem?_eq_getElem hi]
    rfl
  obtain ⟨hbefore, hafter⟩ := firstFalse_spec (p := fun i => (xs[i]?).any fun x => key x < k) (n :=
    xs.length)
    (fun i j hij hj htrue => by
      rcases Nat.eq_or_lt_of_le hij with rfl | hij
      · exact htrue
      · rw [htest hj, decide_eq_true_eq] at htrue
        rw [htest (by omega), decide_eq_true_eq]
        exact Std.lt_trans (hsorted i j (by omega) hj hij) htrue)
    0 xs.length (Nat.zero_le _) (le_rfl) (fun i hi => absurd hi (Nat.not_lt_zero i))
    (fun i hge hlt => absurd hlt (by omega))
  unfold lowerBound
  generalize firstFalse (fun i => (xs[i]?).any fun x => key x < k) 0 xs.length =
    it at hbefore hafter
  constructor
  · intro x hx
    obtain ⟨i, hi, rfl⟩ := List.mem_take_iff_getElem.mp hx
    have htrue := hbefore i (by omega)
    rwa [htest (by omega), decide_eq_true_eq] at htrue
  · intro x hx
    obtain ⟨i, hi, rfl⟩ := List.mem_drop_iff_getElem.mp hx
    have hfalse := hafter (it + i) (Nat.le_add_right _ _) (by omega)
    rwa [htest (by omega), decide_eq_false_iff_not] at hfalse

/-- **Where the keys ascend, bisection finds the entry of a key.** -/
theorem searchKey_eq (hxs : xs.Pairwise fun x y => key x < key y) (k : κ) :
    searchKey key k xs = lastOf key k xs := by
  obtain ⟨hbefore, hafter⟩ := lowerBound_spec hxs k
  have hsplit : lastOf key k xs = lastOf key k (xs.drop (lowerBound key k xs)) := by
    have hnone : lastOf key k (xs.take (lowerBound key k xs)) = none :=
      lastOf_eq_none fun x hx heq => Std.lt_irrefl (heq ▸ hbefore x hx)
    have happend :=
      lastOf_append key k (xs.take (lowerBound key k xs)) (xs.drop (lowerBound key k xs))
    rwa [List.take_append_drop, hnone, Option.or_none] at happend
  have hdrop := hxs.sublist (List.drop_sublist (lowerBound key k xs) xs)
  rw [hsplit]
  change (match xs[lowerBound key k xs]? with
    | none => none
    | some x => if key x ≠ k then none else some x) = _
  rw [← List.head?_drop]
  generalize xs.drop (lowerBound key k xs) = rest at hafter hdrop
  cases rest with
  | nil => rfl
  | cons y ys =>
    obtain ⟨hlt, -⟩ := List.pairwise_cons.mp hdrop
    rw [List.head?_cons]
    dsimp only
    split_ifs with hne
    · -- What stands there is behind the key, and so is everything after it.
      have hgt : k < key y := by
        rcases Std.lt_trichotomy k (key y) with hgt | heq | hless
        · exact hgt
        · exact absurd heq.symm hne
        · exact absurd hless (hafter y (.head _))
      refine (lastOf_eq_none fun x hx => ?_).symm
      rcases List.mem_cons.mp hx with rfl | hx
      · exact hne
      · exact fun heq => Std.lt_irrefl (Std.lt_trans hgt (heq ▸ hlt x hx))
    · rw [not_not] at hne
      exact (lastOf_eq_some hdrop (.head _) hne).symm

end Order

end Libca.Common
