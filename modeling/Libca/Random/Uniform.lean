import Libca.Common.Rejection

/-!
# Uniform integers

`EntropyPool`, `next` and `range` of `random/random.cpp`. The system's source is the list of the
blocks that it gives; where it fails the list ends.

* `nextU64_cases`: the pool gives the values of the blocks in order.
* `next_eq`: `next` gives the residue of the first value up to its limit. `toNat_limit`: what the
  limit is.
* `next_uniform`: **the values up to the limit are divided equally among the residues, more than
  half of all values are, and every residue has as many runs of each length; the same holds of
  `range`, whose sum does not wrap.**
-/

namespace Libca.Random

open Common

/-! ## The entropy pool -/

/-- `kPoolSize`. -/
abbrev poolSize : Nat := 32

/-- `EntropyPool`, and the blocks that the system's source will give. -/
structure EntropyPool where
  pool : Vector UInt64 poolSize := Vector.replicate poolSize 0
  pos : Nat := poolSize
  blocks : List (Vector UInt64 poolSize) := []

namespace EntropyPool

/-- `next_u64`; `none` where the source fails. -/
def nextU64 (p : EntropyPool) : Option (UInt64 × EntropyPool) :=
  if h : p.pos < poolSize then some (p.pool[p.pos], { p with pos := p.pos + 1 })
  else
    match p.blocks with
    | [] => none
    | block :: blocks => some (block[0], { pool := block, pos := 1, blocks })

/-- The values that are still to come. -/
def pending (p : EntropyPool) : List UInt64 :=
  p.pool.toList.drop p.pos ++ p.blocks.flatMap Vector.toList

/-- **The pool gives the values of the blocks in order.** -/
theorem nextU64_cases (p : EntropyPool) :
    (p.nextU64 = none ∧ p.pending = []) ∨ ∃ v p', p.nextU64 = some (v, p') ∧
      p.pending = v :: p'.pending := by
  unfold nextU64
  split_ifs with h
  · refine .inr ⟨_, _, rfl, ?_⟩
    unfold pending
    rw [List.drop_eq_getElem_cons (by rw [Vector.length_toList]; exact h)]
    rfl
  · have hdrop : p.pool.toList.drop p.pos = [] :=
      List.drop_eq_nil_of_le (by rw [Vector.length_toList]; omega)
    unfold pending
    rw [hdrop, List.nil_append]
    cases p.blocks with
    | nil => exact .inl ⟨rfl, rfl⟩
    | cons block blocks =>
      refine .inr ⟨_, _, rfl, ?_⟩
      have hfirst := List.drop_eq_getElem_cons (l := block.toList) (i := 0)
        (by rw [Vector.length_toList]; decide)
      rw [List.drop_zero] at hfirst
      rw [List.flatMap_cons, hfirst]
      rfl

end EntropyPool

/-! ## The functions -/

/-- The exceptions of the functions. -/
inductive RandomError
  | invalidArgument
  | runtimeError
  deriving DecidableEq

/-- `UINT64_MAX`. -/
def u64Max : UInt64 := 0xFFFFFFFFFFFFFFFF

/-- The last value that `next` accepts. -/
def limit (n : UInt64) : UInt64 := u64Max - (u64Max - n + 1) % n

/-- The loop of `next`. -/
def draw (limit : UInt64) (p : EntropyPool) : Option (UInt64 × EntropyPool) :=
  match h : p.nextU64 with
  | none => none
  | some (value, p') => if limit < value then draw limit p' else some (value, p')
termination_by p.pending.length
decreasing_by
  rcases p.nextU64_cases with ⟨hnone, -⟩ | ⟨v, p'', hsome, hpending⟩
  · rw [hnone] at h
    cases h
  · obtain ⟨-, rfl⟩ := Prod.mk.inj (Option.some.inj (h.symm.trans hsome))
    rw [hpending, List.length_cons]
    exact Nat.lt_succ_self _

/-- `next`. -/
def next (n : UInt64) (p : EntropyPool) : Except RandomError (UInt64 × EntropyPool) :=
  if n = 0 then .error .invalidArgument
  else
    match draw (limit n) p with
    | none => .error .runtimeError
    | some (value, p) => .ok (value % n, p)

/-- `range`. -/
def range (lo hi : UInt64) (p : EntropyPool) : Except RandomError (UInt64 × EntropyPool) :=
  if hi ≤ lo then .error .invalidArgument
  else
    match next (hi - lo) p with
    | .error e => .error e
    | .ok (value, p) => .ok (lo + value, p)

/-! ## The limit -/

variable {n : UInt64}

/-- **One more than the limit is the last multiple of `n` up to `2 ^ 64`.** -/
theorem toNat_limit (hn : 0 < n) : (limit n).toNat + 1 = 2 ^ 64 - 2 ^ 64 % n.toNat := by
  have hpos : 0 < n.toNat := UInt64.lt_iff_toNat_lt.mp hn
  have hlt := n.toNat_lt
  have hmax : u64Max.toNat = 2 ^ 64 - 1 := rfl
  have hle : n ≤ u64Max := UInt64.le_iff_toNat_le.mpr (by omega)
  have hsum : (u64Max - n + 1).toNat = 2 ^ 64 - n.toNat := by
    rw [UInt64.toNat_add, UInt64.toNat_sub_of_le _ _ hle, hmax, UInt64.toNat_one,
      Nat.mod_eq_of_lt] <;> omega
  have hrest : ((u64Max - n + 1) % n).toNat = 2 ^ 64 % n.toNat := by
    rw [UInt64.toNat_mod, hsum, ← Nat.mod_eq_sub_mod (by omega)]
  have hmod := Nat.mod_lt (2 ^ 64) hpos
  have hrestLe : (u64Max - n + 1) % n ≤ u64Max := UInt64.le_iff_toNat_le.mpr (by omega)
  rw [limit, UInt64.toNat_sub_of_le _ _ hrestLe, hrest, hmax]
  omega

theorem dvd_limit (hn : 0 < n) : n.toNat ∣ (limit n).toNat + 1 := by
  rw [toNat_limit hn]
  exact Nat.dvd_sub_mod _

/-- More than half of all values are accepted. -/
theorem half_lt_limit (hn : 0 < n) : 2 ^ 63 < (limit n).toNat + 1 := by
  have hpos : 0 < n.toNat := UInt64.lt_iff_toNat_lt.mp hn
  have hlt := n.toNat_lt
  rw [toNat_limit hn]
  have hmod := Nat.mod_lt (2 ^ 64) hpos
  by_cases hle : n.toNat ≤ 2 ^ 63
  · omega
  · have hsub : 2 ^ 64 % n.toNat = 2 ^ 64 - n.toNat := by
      rw [Nat.mod_eq_sub_mod (by omega), Nat.mod_eq_of_lt (by omega)]
    omega

/-! ## The draws -/

/-- **The loop gives the first pending value up to the limit.** -/
theorem draw_eq (l : UInt64) (p : EntropyPool) :
    (draw l p).map (fun drawn => (drawn.1, drawn.2.pending)) = firstAccepted
    (fun v => v ≤ l) p.pending := by
  fun_induction draw l p with
  | case1 p hnone =>
    rcases p.nextU64_cases with ⟨-, hpending⟩ | ⟨v, p', hsome, -⟩
    · rw [hpending]
      rfl
    · cases hnone.symm.trans hsome
  | case2 p value p' hvalue hlt ih =>
    rcases p.nextU64_cases with ⟨hnone, -⟩ | ⟨v, p'', hsome, hpending⟩
    · cases hnone.symm.trans hvalue
    · obtain ⟨rfl, rfl⟩ := Prod.mk.inj (Option.some.inj (hvalue.symm.trans hsome))
      rw [hpending, firstAccepted, if_neg (by rw [decide_eq_true_eq]; exact UInt64.not_le.mpr hlt),
        ih]
  | case3 p value p' hvalue hlt =>
    rcases p.nextU64_cases with ⟨hnone, -⟩ | ⟨v, p'', hsome, hpending⟩
    · cases hnone.symm.trans hvalue
    · obtain ⟨rfl, rfl⟩ := Prod.mk.inj (Option.some.inj (hvalue.symm.trans hsome))
      rw [hpending, firstAccepted, if_pos (by rw [decide_eq_true_eq]; exact UInt64.not_lt.mp hlt)]
      rfl

/-- A result, and the values that are pending after it. -/
def outcome (r : Except RandomError (UInt64 × EntropyPool)) : Option (UInt64 × List UInt64) :=
  match r with
  | .error _ => none
  | .ok (value, p) => some (value, p.pending)

/-- **`next` gives the residue of the first pending value up to its limit.** -/
theorem next_eq (hn : 0 < n) (p : EntropyPool) : outcome (next n p) =
    (firstAccepted (fun v => v ≤ limit n) p.pending).map fun drawn => (drawn.1 % n, drawn.2) := by
  rw [next, if_neg (UInt64.ne_of_lt hn).symm, ← draw_eq]
  cases draw (limit n) p with
  | none => rfl
  | some drawn => rfl

theorem range_eq {lo hi : UInt64} (h : lo < hi) (p : EntropyPool) : outcome (range lo hi p) =
    (outcome (next (hi - lo) p)).map fun drawn => (lo + drawn.1, drawn.2) := by
  rw [range, if_neg (UInt64.not_le.mpr h)]
  cases next (hi - lo) p with
  | error e => rfl
  | ok drawn => rfl

/-! ## Uniformity -/

/-- The values up to a limit give the results in a set, each as often, and in as many runs of each
length. -/
structure UniformOn (l : UInt64) (result : UInt64 → UInt64) (results : UInt64 → Prop)
    (share : Nat) : Prop where
  within : ∀ v, v ≤ l → results (result v)
  shares : ∀ x, results x → Nat.card { v : UInt64 // v ≤ l ∧ result v = x } = share
  runs : ∀ k x x', results x → results x' →
    Nat.card (Runs (fun v => v ≤ l) result k x) = Nat.card (Runs (fun v => v ≤ l) result k x')

theorem toNat_ofNat_of_le {m : Nat} {l : UInt64} (h : m ≤ l.toNat) : (UInt64.ofNat m).toNat = m :=
  UInt64.toNat_ofNat_of_lt' (Nat.lt_of_le_of_lt h l.toNat_lt_size)

/-- Two residues are exchanged in the values up to the limit. -/
def swapDraw (n r r' v : UInt64) : UInt64 :=
  if v ≤ limit n then UInt64.ofNat (swapResidue n.toNat r.toNat r'.toNat v.toNat) else v

variable {r : UInt64}

theorem toNat_swapDraw {r' v : UInt64} (hr : r < n) (hr' : r' < n) (hv : v ≤ limit n) :
    (swapDraw n r r' v).toNat = swapResidue n.toNat r.toNat r'.toNat v.toNat ∧ swapDraw n r r' v ≤
      limit n := by
  rw [UInt64.lt_iff_toNat_lt] at hr hr'
  rw [UInt64.le_iff_toNat_le] at hv
  have hn : 0 < n := UInt64.lt_iff_toNat_lt.mpr (by rw [UInt64.toNat_zero]; omega)
  have hlt := swapResidue_lt hr hr' (dvd_limit hn) (Nat.lt_succ_of_le hv)
  have htoNat : (swapDraw n r r' v).toNat = swapResidue n.toNat r.toNat r'.toNat v.toNat := by
    rw [swapDraw, if_pos (UInt64.le_iff_toNat_le.mpr hv), toNat_ofNat_of_le (Nat.le_of_lt_succ hlt)]
  exact ⟨htoNat, UInt64.le_iff_toNat_le.mpr (by omega)⟩

theorem swapDraw_swapDraw {r' : UInt64} (hr : r < n) (hr' : r' < n) (v : UInt64) :
    swapDraw n r r' (swapDraw n r r' v) = v := by
  by_cases hv : v ≤ limit n
  · obtain ⟨htoNat, hle⟩ := toNat_swapDraw hr hr' hv
    refine UInt64.toNat_inj.mp ?_
    rw [(toNat_swapDraw hr hr' hle).1, htoNat]
    exact swapResidue_swapResidue (UInt64.lt_iff_toNat_lt.mp hr) (UInt64.lt_iff_toNat_lt.mp hr') _
  · rw [swapDraw, swapDraw, if_neg hv, if_neg hv]

/-- The exchange turns one residue into the other. -/
theorem swapDraw_mod {r' v : UInt64} (hr : r < n) (hr' : r' < n) (hv : v ≤ limit n) :
    swapDraw n r r' v % n = r' ↔ v % n = r := by
  rw [← UInt64.toNat_inj, ← UInt64.toNat_inj, UInt64.toNat_mod, UInt64.toNat_mod,
    (toNat_swapDraw hr hr' hv).1,
    swapResidue_mod (UInt64.lt_iff_toNat_lt.mp hr) (UInt64.lt_iff_toNat_lt.mp hr'),
      Equiv.swap_apply_eq_iff,
    Equiv.swap_apply_right]

theorem mod_lt (hn : 0 < n) (v : UInt64) : v % n < n := by
  rw [UInt64.lt_iff_toNat_lt, UInt64.toNat_mod]
  exact Nat.mod_lt _ (UInt64.lt_iff_toNat_lt.mp hn)

theorem lt_of_next (hn : 0 < n) {p p' : EntropyPool} (h : next n p = .ok (r, p')) : r < n := by
  rw [next, if_neg (UInt64.ne_of_lt hn).symm] at h
  cases hdraw : draw (limit n) p with
  | none =>
    rw [hdraw] at h
    cases h
  | some drawn =>
    rw [hdraw] at h
    obtain ⟨rfl, -⟩ := Prod.mk.inj (Except.ok.inj h)
    exact mod_lt hn drawn.1

/-- The values up to the limit with one residue. -/
theorem card_residue (hn : 0 < n) (hr : r < n) :
    Nat.card { v : UInt64 // v ≤ limit n ∧ v % n = r } = ((limit n).toNat + 1) / n.toNat := by
  rw [← card_fiber (UInt64.lt_iff_toNat_lt.mp hr) (dvd_limit hn)]
  refine Nat.card_congr ⟨fun v => ⟨v.1.toNat, ?_, ?_⟩, fun v => ⟨UInt64.ofNat v.1, ?_, ?_⟩, fun v =>
    ?_, fun v => ?_⟩
  · exact Nat.lt_succ_of_le (UInt64.le_iff_toNat_le.mp v.2.1)
  · rw [← UInt64.toNat_mod, v.2.2]
  · rw [UInt64.le_iff_toNat_le, toNat_ofNat_of_le (Nat.le_of_lt_succ v.2.1)]
    exact Nat.le_of_lt_succ v.2.1
  · rw [← UInt64.toNat_inj, UInt64.toNat_mod, toNat_ofNat_of_le (Nat.le_of_lt_succ v.2.1)]
    exact v.2.2
  · exact Subtype.ext (UInt64.ofNat_toNat)
  · exact Subtype.ext (toNat_ofNat_of_le (Nat.le_of_lt_succ v.2.1))

/-- **What tells the residues apart is uniform.** -/
theorem uniformOn_of_injective (hn : 0 < n) {f : UInt64 → UInt64}
    (hf : ∀ r r', r < n → r' < n → f r = f r' → r = r') :
    UniformOn (limit n) (fun v => f (v % n)) (fun x => ∃ r < n, f r = x)
      (((limit n).toNat + 1) / n.toNat) where
  within v _ := ⟨v % n, mod_lt hn v, rfl⟩
  shares := by
    rintro x ⟨r, hr, rfl⟩
    rw [← card_residue hn hr]
    refine Nat.card_congr (Equiv.subtypeEquivRight fun v => and_congr_right fun _ => ?_)
    exact ⟨fun h => hf _ _ (mod_lt hn v) hr h, fun h => congrArg f h⟩
  runs := by
    rintro k x x' ⟨r, hr, rfl⟩ ⟨r', hr', rfl⟩
    have hinvolutive : Function.Involutive (swapDraw n r r') := swapDraw_swapDraw hr hr'
    refine card_runs_eq hinvolutive.toPerm (fun v => ?_) (fun v hv => ?_) k
    · change decide (swapDraw n r r' v ≤ limit n) = decide (v ≤ limit n)
      by_cases hv : v ≤ limit n
      · rw [decide_eq_true hv, decide_eq_true (toNat_swapDraw hr hr' hv).2]
      · rw [swapDraw, if_neg hv]
    · have hsame {a b : UInt64} (ha : a < n) (hb : b < n) : f a = f b ↔ a = b :=
        ⟨hf a b ha hb, congrArg f⟩
      change f (swapDraw n r r' v % n) = f r' ↔ f (v % n) = f r
      rw [hsame (mod_lt hn _) hr', hsame (mod_lt hn _) hr]
      exact swapDraw_mod hr hr' (of_decide_eq_true hv)

theorem uniformOn_next (hn : 0 < n) :
    UniformOn (limit n) (fun v => v % n) (fun x => x < n) (((limit n).toNat + 1) / n.toNat) := by
  have huniform := uniformOn_of_injective hn (f := id) fun r r' _ _ h => h
  have hresults : (fun x => ∃ r < n, id r = x) = fun x => x < n := by
    funext x
    exact propext ⟨fun ⟨r, hr, hx⟩ => hx ▸ hr, fun hx => ⟨x, hx, rfl⟩⟩
  rwa [hresults] at huniform

/-- The sum of `range` does not wrap. -/
theorem toNat_range {lo hi : UInt64} (h : lo < hi) (hr : r < hi - lo) :
    (lo + r).toNat = lo.toNat + r.toNat ∧ lo ≤ lo + r ∧ lo + r < hi := by
  have hsub := UInt64.toNat_sub_of_le _ _ (UInt64.le_of_lt h)
  have hhi := hi.toNat_lt
  rw [UInt64.lt_iff_toNat_lt] at h hr
  have hsum : (lo + r).toNat = lo.toNat + r.toNat := by
    rw [UInt64.toNat_add, Nat.mod_eq_of_lt (by omega)]
  rw [UInt64.le_iff_toNat_le, UInt64.lt_iff_toNat_lt]
  omega

theorem sub_pos {lo hi : UInt64} (h : lo < hi) : 0 < hi - lo := by
  have hsub := UInt64.toNat_sub_of_le _ _ (UInt64.le_of_lt h)
  rw [UInt64.lt_iff_toNat_lt] at h ⊢
  rw [hsub, UInt64.toNat_zero]
  omega

theorem uniformOn_range {lo hi : UInt64} (h : lo < hi) :
    UniformOn (limit (hi - lo)) (fun v => lo + v % (hi - lo)) (fun x => lo ≤ x ∧ x < hi)
      (((limit (hi - lo)).toNat + 1) / (hi - lo).toNat) := by
  have huniform := uniformOn_of_injective (sub_pos h) (f := (lo + ·)) fun r r' hr hr' heq => by
    rw [← UInt64.toNat_inj, (toNat_range h hr).1, (toNat_range h hr').1] at heq
    exact UInt64.toNat_inj.mp (by omega)
  have hresults : (fun x => ∃ r < hi - lo, lo + r = x) = fun x => lo ≤ x ∧ x < hi := by
    funext x
    refine propext ⟨fun ⟨r, hr, hx⟩ => hx ▸ (toNat_range h hr).2, fun ⟨hlo, hhi⟩ =>
      ⟨x - lo, ?_, ?_⟩⟩
    · have hsub := UInt64.toNat_sub_of_le _ _ (UInt64.le_of_lt h)
      have hsub' := UInt64.toNat_sub_of_le _ _ hlo
      rw [UInt64.le_iff_toNat_le] at hlo
      rw [UInt64.lt_iff_toNat_lt] at hhi ⊢
      omega
    · rw [UInt64.add_comm, UInt64.sub_add_cancel]
  rwa [hresults] at huniform

/-- What is asked of `next`: its limit, what it returns, and that this is uniform. -/
structure NextUniform (n : UInt64) : Prop where
  multiple : n.toNat ∣ (limit n).toNat + 1
  half : 2 ^ 63 < (limit n).toNat + 1
  returns : ∀ p, outcome (next n p) =
    (firstAccepted (fun v => v ≤ limit n) p.pending).map fun drawn => (drawn.1 % n, drawn.2)
  uniform : UniformOn (limit n) (fun v => v % n) (fun x => x < n) (((limit n).toNat + 1) / n.toNat)

/-- What is asked of `range`: it adds to `lo` what `next` returns, which does not wrap, and that
this is uniform. -/
structure RangeUniform (lo hi : UInt64) : Prop where
  returns : ∀ p, outcome (range lo hi p) = (outcome (next (hi - lo) p)).map fun drawn =>
    (lo + drawn.1, drawn.2)
  below : ∀ p r p', next (hi - lo) p = .ok (r, p') → r < hi - lo ∧ (lo + r).toNat = lo.toNat +
    r.toNat
  uniform : UniformOn (limit (hi - lo)) (fun v => lo + v % (hi - lo)) (fun x => lo ≤ x ∧ x < hi)
    (((limit (hi - lo)).toNat + 1) / (hi - lo).toNat)

/-- **`next` and `range` are uniform.** -/
theorem next_uniform : (∀ n, 0 < n → NextUniform n) ∧ ∀ lo hi, lo < hi → RangeUniform lo hi := by
  refine ⟨fun n hn => ⟨dvd_limit hn, half_lt_limit hn, next_eq hn, uniformOn_next hn⟩,
    fun lo hi h => ?_⟩
  refine ⟨range_eq h, fun p r p' hnext => ?_, uniformOn_range h⟩
  have hr := lt_of_next (sub_pos h) hnext
  exact ⟨hr, (toNat_range h hr).1⟩

/-- A die. -/
theorem next_uniform_six : NextUniform 6 ∧ RangeUniform 1 7 :=
  ⟨next_uniform.1 6 (by decide), next_uniform.2 1 7 (by decide)⟩

end Libca.Random
