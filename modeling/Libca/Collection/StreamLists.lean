import Libca.Collection.Stream

/-!
# Pipelines as list functions (`collection/stream.hpp`)

* `Reads`: what one `next` of a node means. `denote` gives, for the node as it stands, its elements
  for a rest of the source; the element that `next` returns needs the source up to one element and
  not more.
* `Reads.stage`: every adapter keeps it, so that it holds of every pipeline.
* `Reads.loop_eq`, `Reads.search_stops`: the terminal operations of any node that has it.
* `Stage.parentState_next`: an adapter does nothing to its parent but call `next`. So what `next` of
  a node keeps is kept by everything behind it; a count of the calls is one such thing.
-/

namespace Libca.Collection

open StreamBase

variable {T U V A S : Type}

/-! ## One call of `next` -/

/-- The result of `next` at `s`, in the elements of the source that it reads. -/
def ReadsStep (source : S → List T) (denote : S → List T → List V) (s : S) : Option V × S → Prop
  | (some y, s') =>
    ∃ pre x, source s = pre ++ x :: source s' ∧ denote s pre = [] ∧ ∀ l, denote s (pre ++ x :: l) =
      y :: denote s' l
  | (none, _) => denote s (source s) = []

/-- Every call of `next` of a node. -/
def Reads (n : StreamBase V) (source : n.State → List T) (denote : n.State → List T → List V) :
    Prop :=
  ∀ s, ReadsStep source denote s (n.next s)

/-- An element of the parent that means nothing is read first. -/
theorem ReadsStep.behind {source : S → List T} {denote : S → List T → List V} {s s' : S}
    {pre : List T} {x : T} {r : Option V × S} (hsource : source s = pre ++ x :: source s')
    (hdenote : ∀ l, denote s (pre ++ x :: l) = denote s' l) (h : ReadsStep source denote s' r) :
    ReadsStep source denote s r := by
  rcases r with ⟨_ | y, t⟩
  · change denote s (source s) = []
    rw [hsource, hdenote]
    exact h
  · obtain ⟨pre', x', hsource', hpre', hdenote'⟩ := h
    refine ⟨pre ++ x :: pre', x', ?_, ?_, fun l => ?_⟩
    · rw [hsource, hsource', List.append_assoc, List.cons_append]
    · rw [hdenote, hpre']
    · rw [List.append_assoc, List.cons_append, hdenote, hdenote']

section Adapters

variable {n : StreamBase U} {source : n.State → List T} {denote : n.State → List T → List U}

theorem Reads.next_some (h : Reads n source denote) {s s' : n.State} {y : U}
    (hn : n.next s = (some y, s')) :
    ∃ pre x, source s = pre ++ x :: source s' ∧ denote s pre = [] ∧
      ∀ l, denote s (pre ++ x :: l) = y :: denote s' l := by
  have hs := h s
  rwa [hn] at hs

theorem Reads.next_none (h : Reads n source denote) {s s' : n.State} (hn : n.next s = (none, s')) :
    denote s (source s) = [] := by
  have hs := h s
  rwa [hn] at hs

theorem Reads.source_cons (h : Reads n source denote) {s s' : n.State} {y : U}
    (hn : n.next s = (some y, s')) :
    denote s (source s) = y :: denote s' (source s') := by
  obtain ⟨pre, x, hsource, -, hdenote⟩ := h.next_some hn
  rw [hsource, hdenote]

theorem Reads.filter (h : Reads n source denote) (predicate : U → Bool) :
    Reads (FilterStream n predicate) source (fun s l => (denote s l).filter predicate) := by
  intro s
  change ReadsStep _ _ s (filterNext n predicate s)
  fun_induction filterNext n predicate s with
  | case1 s s' hn =>
    change (denote s (source s)).filter predicate = []
    rw [h.next_none hn, List.filter_nil]
  | case2 s y s' hn hy =>
    obtain ⟨pre, x, hsource, hpre, hdenote⟩ := h.next_some hn
    refine ⟨pre, x, hsource, ?_, fun l => ?_⟩
    · change (denote s pre).filter predicate = []
      rw [hpre, List.filter_nil]
    · change (denote s (pre ++ x :: l)).filter predicate = y :: (denote s' l).filter predicate
      rw [hdenote, List.filter_cons_of_pos hy]
  | case3 s y s' hn hy ih =>
    obtain ⟨pre, x, hsource, -, hdenote⟩ := h.next_some hn
    refine ih.behind hsource fun l => ?_
    rw [hdenote, List.filter_cons_of_neg hy]

theorem Reads.map (h : Reads n source denote) (mapper : U → V) :
    Reads (MapStream n mapper) source (fun s l => (denote s l).map mapper) := by
  intro s
  change ReadsStep _ _ s ((n.next s).1.map mapper, (n.next s).2)
  rcases hn : n.next s with ⟨_ | y, s'⟩
  · change (denote s (source s)).map mapper = []
    rw [h.next_none hn, List.map_nil]
  · obtain ⟨pre, x, hsource, hpre, hdenote⟩ := h.next_some hn
    refine ⟨pre, x, hsource, ?_, fun l => ?_⟩
    · change (denote s pre).map mapper = []
      rw [hpre, List.map_nil]
    · change (denote s (pre ++ x :: l)).map mapper = mapper y :: (denote s' l).map mapper
      rw [hdenote, List.map_cons]

theorem toNat_pred {k : UInt64} (hk : k ≠ 0) : k.toNat = (k - 1).toNat + 1 := by
  have hpos : k.toNat ≠ 0 := fun h => hk (UInt64.toNat.inj h)
  have hle : (1 : UInt64) ≤ k := UInt64.le_iff_toNat_le.mpr (Nat.one_le_iff_ne_zero.mpr hpos)
  rw [UInt64.toNat_sub_of_le _ _ hle, UInt64.toNat_one]
  omega

theorem Reads.take (h : Reads n source denote) :
    Reads (TakeStream n) (fun t => source t.1) (fun t l => (denote t.1 l).take t.2.toNat) := by
  rintro ⟨s, remaining⟩
  by_cases hz : remaining = 0
  · subst hz
    exact List.take_zero
  have hnext : (TakeStream n).next (s, remaining) = ((n.next s).1, ((n.next s).2, remaining - 1)) :=
    if_neg hz
  rw [hnext]
  rcases hn : n.next s with ⟨_ | y, s'⟩
  · change (denote s (source s)).take remaining.toNat = []
    rw [h.next_none hn, List.take_nil]
  · obtain ⟨pre, x, hsource, hpre, hdenote⟩ := h.next_some hn
    refine ⟨pre, x, hsource, ?_, fun l => ?_⟩
    · change (denote s pre).take remaining.toNat = []
      rw [hpre, List.take_nil]
    · change (denote s (pre ++ x :: l)).take remaining.toNat = y :: (denote s' l).take
        (remaining - 1).toNat
      rw [hdenote, toNat_pred hz, List.take_succ_cons]

theorem Reads.skip (h : Reads n source denote) :
    Reads (SkipStream n) (fun t => source t.1) (fun t l => (denote t.1 l).drop t.2.toNat) := by
  rintro ⟨s, toSkip⟩
  change ReadsStep _ _ (s, toSkip) (skipNext n s toSkip)
  fun_induction skipNext n s toSkip with
  | case1 s toSkip hpos s' hn =>
    change (denote s (source s)).drop toSkip.toNat = []
    rw [h.next_none hn, List.drop_nil]
  | case2 s toSkip hpos y s' hn ih =>
    obtain ⟨pre, x, hsource, -, hdenote⟩ := h.next_some hn
    have hk : toSkip.toNat = (toSkip - 1).toNat + 1 := toNat_pred (UInt64.pos_iff_ne_zero.mp hpos)
    refine ih.behind hsource fun l => ?_
    change (denote s (pre ++ x :: l)).drop toSkip.toNat = (denote s' l).drop (toSkip - 1).toNat
    rw [hdenote, hk, List.drop_succ_cons]
  | case3 s toSkip hpos item s' hn =>
    -- nothing is left to skip: the parent's element
    have hz : toSkip = 0 := by
      by_contra hz
      exact hpos (UInt64.pos_iff_ne_zero.mpr hz)
    subst hz
    have hs := h s
    rw [hn] at hs
    rcases item with _ | y
    · exact hs
    · exact hs

/-! ## The terminal operations -/

/-- A loop over a node is the loop over its elements. -/
theorem Reads.loop_eq (h : Reads n source denote) (body : A → U → A) (a : A) (s : n.State) :
    (n.loop body a s).1 = (denote s (source s)).foldl body a := by
  fun_induction StreamBase.loop n body a s with
  | case1 a s s' hn => rw [h.next_none hn, List.foldl_nil]
  | case2 a s y s' hn ih => rw [ih, h.source_cons hn, List.foldl_cons]

/-- Where a search ends: at the end, or behind the source element that brings the first element of
the kind. -/
theorem Reads.search_stops (h : Reads n source denote) (found : U → Bool) (s : n.State) :
    match n.search found s with
    | (false, _) => (denote s (source s)).any found = false
    | (true, s') => ∃ pre x y, source s = pre ++ x :: source s' ∧ (denote s pre).any found = false ∧
      found y = true ∧ ∀ l, denote s (pre ++ x :: l) = denote s pre ++ y :: denote s' l := by
  fun_induction StreamBase.search n found s with
  | case1 s s' hn => simp only [h.next_none hn, List.any_nil]
  | case2 s y s' hn hy =>
    obtain ⟨pre, x, hsource, hpre, hdenote⟩ := h.next_some hn
    refine ⟨pre, x, y, hsource, ?_, hy, fun l => ?_⟩
    · rw [hpre, List.any_nil]
    · rw [hdenote, hpre, List.nil_append]
  | case3 s y s' hn hy ih =>
    obtain ⟨pre, x, hsource, -, hdenote⟩ := h.next_some hn
    have hno : found y = false := Bool.eq_false_iff.mpr hy
    rcases hr : n.search found s' with ⟨_ | _, t⟩ <;> rw [hr] at ih
    · change (denote s (source s)).any found = false
      rw [h.source_cons hn, List.any_cons, hno, Bool.false_or]
      exact ih
    · obtain ⟨pre', x', y', hsource', hbefore, hy', hdenote'⟩ := ih
      refine ⟨pre ++ x :: pre', x', y', ?_, ?_, hy', fun l => ?_⟩
      · rw [hsource, hsource', List.append_assoc, List.cons_append]
      · rw [hdenote, List.any_cons, hno, hbefore, Bool.false_or]
      · rw [List.append_assoc, List.cons_append, hdenote, hdenote', hdenote, List.cons_append]

theorem Reads.search_eq (h : Reads n source denote) (found : U → Bool) (s : n.State) :
    (n.search found s).1 = (denote s (source s)).any found := by
  have hstops := h.search_stops found s
  rcases hr : n.search found s with ⟨_ | _, t⟩ <;> rw [hr] at hstops
  · exact hstops.symm
  · obtain ⟨pre, x, y, hsource, -, hy, hdenote⟩ := hstops
    rw [hsource, hdenote, List.any_append, List.any_cons, hy, Bool.true_or, Bool.or_true]

end Adapters

/-! ## Every pipeline -/

namespace Stage

/-- What a stage as it stands makes of the elements of its parent. -/
def denote : (stage : Stage U V) → (parent : StreamBase U) → (stage.node parent).State → List U →
    List V
  | .filter predicate, _, _, xs => xs.filter predicate
  | .map mapper, _, _, xs => xs.map mapper
  | .take _, _, t, xs => xs.take (Prod.snd t : UInt64).toNat
  | .skip _, _, t, xs => xs.drop (Prod.snd t : UInt64).toNat

theorem denote_start (stage : Stage U V) (parent : StreamBase U) (s : parent.State) :
    stage.denote parent (stage.start parent s) = stage.apply := by
  cases stage <;> rfl

theorem parentState_start (stage : Stage U V) (parent : StreamBase U) (s : parent.State) :
    stage.parentState parent (stage.start parent s) = s := by
  cases stage <;> rfl

theorem denote_nil (stage : Stage U V) (parent : StreamBase U) (t : (stage.node parent).State) :
    stage.denote parent t [] = [] := by
  cases stage with
  | filter | map => rfl
  | take => exact List.take_nil
  | skip => exact List.drop_nil

end Stage

/-- Every adapter. -/
theorem Reads.stage {n : StreamBase U} {source : n.State → List T}
    {denote : n.State → List T → List U} (h : Reads n source denote) (stage : Stage U V) :
    Reads (stage.node n) (fun t => source (stage.parentState n t))
      (fun t l => stage.denote n t (denote (stage.parentState n t) l)) := by
  cases stage with
  | filter predicate => exact h.filter predicate
  | map mapper => exact h.map mapper
  | take count => exact h.take
  | skip count => exact h.skip

theorem reads_stream : Reads (Stream T) (fun xs : List T => xs) (fun _ l => l) := by
  intro xs
  cases xs with
  | nil => rfl
  | cons x xs => exact ⟨[], x, rfl, rfl, fun l => rfl⟩

namespace Pipeline

/-- What a pipeline as it stands makes of a rest of the source. -/
def denote : {V : Type} → (p : Pipeline T V) → (p.node (Stream T)).State → List T → List V
  | _, .source, _, xs => xs
  | _, .behind upstream stage, t, xs =>
    stage.denote (upstream.node (Stream T)) t
      (upstream.denote (stage.parentState (upstream.node (Stream T)) t) xs)

theorem reads (p : Pipeline T V) : Reads (p.node (Stream T)) (p.rootState (Stream T)) p.denote := by
  induction p with
  | source => exact reads_stream
  | behind upstream stage ih => exact ih.stage stage

theorem rootState_start (p : Pipeline T V) (root : StreamBase T) (s : root.State) :
    p.rootState root (p.start root s) = s := by
  induction p with
  | source => rfl
  | behind upstream stage ih =>
    change upstream.rootState root (stage.parentState _ (stage.start _ (upstream.start root s))) = s
    rw [stage.parentState_start, ih]

theorem denote_start (p : Pipeline T V) (xs l : List T) :
    p.denote (p.start (Stream T) xs) l = p.apply l := by
  induction p with
  | source => rfl
  | behind upstream stage ih =>
    change stage.denote _ (stage.start _ (upstream.start (Stream T) xs))
      (upstream.denote (stage.parentState _ (stage.start _ (upstream.start (Stream T) xs))) l) =
        stage.apply _
    rw [stage.denote_start, stage.parentState_start, ih]

theorem denote_nil (p : Pipeline T V) (t : (p.node (Stream T)).State) : p.denote t [] = [] := by
  induction p with
  | source => rfl
  | behind upstream stage ih =>
    change stage.denote _ t (upstream.denote _ []) = []
    rw [ih]
    exact stage.denote_nil _ t

theorem denote_source (p : Pipeline T V) (xs : List T) :
    p.denote (p.start (Stream T) xs) (p.rootState (Stream T) (p.start (Stream T) xs)) =
      p.apply xs :=
  (congrArg (p.denote (p.start (Stream T) xs)) (p.rootState_start (Stream T) xs)).trans
    (p.denote_start xs xs)

end Pipeline

/-! ## What the calls of `next` keep -/

section Kept

variable {n : StreamBase U} {P : n.State → Prop}

variable {s : n.State}

theorem filterNext_keeps (hP : ∀ s, P s → P (n.next s).2) (predicate : U → Bool) (hs : P s) :
    P (filterNext n predicate s).2 := by
  fun_induction filterNext n predicate s with
  | case1 s s' hn =>
    have hnext := hP s hs
    rwa [hn] at hnext
  | case2 s y s' hn hy =>
    have hnext := hP s hs
    rwa [hn] at hnext
  | case3 s y s' hn hy ih =>
    have hnext := hP s hs
    rw [hn] at hnext
    exact ih hnext

theorem skipNext_keeps (hP : ∀ s, P s → P (n.next s).2) (toSkip : UInt64) (hs : P s) :
    P (skipNext n s toSkip).2.1 := by
  fun_induction skipNext n s toSkip with
  | case1 s toSkip hpos s' hn =>
    have hnext := hP s hs
    rwa [hn] at hnext
  | case2 s toSkip hpos y s' hn ih =>
    have hnext := hP s hs
    rw [hn] at hnext
    exact ih hnext
  | case3 s toSkip hpos item s' hn =>
    have hnext := hP s hs
    rwa [hn] at hnext

theorem Stage.parentState_next (stage : Stage U V) (hP : ∀ s, P s → P (n.next s).2)
    (t : (stage.node n).State)
    (ht : P (stage.parentState n t)) : P (stage.parentState n ((stage.node n).next t).2) := by
  cases stage with
  | filter predicate => exact filterNext_keeps hP predicate ht
  | map mapper => exact hP t ht
  | take count =>
    rcases t with ⟨s, remaining⟩
    change P ((TakeStream n).next (s, remaining)).2.1
    by_cases hz : remaining = 0
    · have hnext : (TakeStream n).next (s, remaining) = (none, (s, remaining)) := if_pos hz
      rw [hnext]
      exact ht
    · have hnext : (TakeStream n).next (s, remaining) =
        ((n.next s).1, ((n.next s).2, remaining - 1)) := if_neg hz
      rw [hnext]
      exact hP s ht
  | skip count => exact skipNext_keeps hP t.2 ht

theorem Pipeline.rootState_next {root : StreamBase T} {P : root.State → Prop}
    (hP : ∀ s, P s → P (root.next s).2)
    (p : Pipeline T V) :
    ∀ t, P (p.rootState root t) → P (p.rootState root ((p.node root).next t).2) := by
  induction p with
  | source => exact hP
  | behind upstream stage ih => exact stage.parentState_next ih

theorem loop_keeps (hP : ∀ s, P s → P (n.next s).2) (body : A → U → A) (a : A) (hs : P s) :
    P (n.loop body a s).2 := by
  fun_induction StreamBase.loop n body a s with
  | case1 a s s' hn =>
    have hnext := hP s hs
    rwa [hn] at hnext
  | case2 a s y s' hn ih =>
    have hnext := hP s hs
    rw [hn] at hnext
    exact ih hnext

theorem search_keeps (hP : ∀ s, P s → P (n.next s).2) (found : U → Bool) (hs : P s) :
    P (n.search found s).2 := by
  fun_induction StreamBase.search n found s with
  | case1 s s' hn =>
    have hnext := hP s hs
    rwa [hn] at hnext
  | case2 s y s' hn hy =>
    have hnext := hP s hs
    rwa [hn] at hnext
  | case3 s y s' hn hy ih =>
    have hnext := hP s hs
    rw [hn] at hnext
    exact ih hnext

end Kept

/-- A node with the count of the calls of its `next`. -/
def counted (n : StreamBase T) : StreamBase T where
  State := n.State × Nat
  next t := ((n.next t.1).1, ((n.next t.1).2, t.2 + 1))
  left t := n.left t.1
  left_le t := n.left_le t.1
  left_lt t := n.left_lt t.1

/-- The calls and the quota together stay. -/
theorem take_calls (n : StreamBase T) (t : (TakeStream (counted n)).State) :
    ((TakeStream (counted n)).next t).2.1.2 + ((TakeStream (counted n)).next t).2.2.toNat =
      t.1.2 + t.2.toNat := by
  rcases t with ⟨s, remaining⟩
  by_cases hz : remaining = 0
  · have hnext : (TakeStream (counted n)).next (s, remaining) = (none, (s, remaining)) := if_pos hz
    rw [hnext]
  · have hnext : (TakeStream (counted n)).next (s, remaining) =
        ((n.next s.1).1, (((n.next s.1).2, s.2 + 1), remaining - 1)) := if_neg hz
    rw [hnext]
    have hpred := toNat_pred hz
    change s.2 + 1 + (remaining - 1).toNat = s.2 + remaining.toNat
    omega

/-! ## The operations -/

/-- The terminal operations of a pipeline over a range, and the list of its elements. -/
structure OperatesOn (p : Pipeline T V) (xs : List T) (ys : List V) : Prop where
  collect : ((p.node (Stream T)).collect (p.start (Stream T) xs)).1 = ys
  count : ((p.node (Stream T)).count (p.start (Stream T) xs)).1 = UInt64.ofNat ys.length
  reduce {A : Type} (init : A) (op : A → V → A) :
    ((p.node (Stream T)).reduce init op (p.start (Stream T) xs)).1 = ys.foldl op init
  forEach {A : Type} (consumer : A → V → A) (world : A) :
    ((p.node (Stream T)).forEach consumer world (p.start (Stream T) xs)).1 = ys.foldl consumer world
  any (predicate : V → Bool) : ((p.node (Stream T)).any predicate (p.start (Stream T) xs)).1 =
    ys.any predicate
  all (predicate : V → Bool) : ((p.node (Stream T)).all predicate (p.start (Stream T) xs)).1 =
    ys.all predicate

/-- The range is read to the source element that brings the first element of a kind, and not behind
it. -/
def ReadUpTo (p : Pipeline T V) (kind : V → Bool) (xs rest : List T) : Prop :=
  ∃ before x y, xs = before ++ x :: rest ∧ (p.apply before).any kind = false ∧ kind y = true ∧
    p.apply (before ++ [x]) = p.apply before ++ [y]

/-- Every state that calls of `next` and the terminal operations lead to from a state. -/
inductive Leads (n : StreamBase V) (s : n.State) : n.State → Prop
  | start : Leads n s s
  | next {t : n.State} : Leads n s t → Leads n s (n.next t).2
  | loop {t : n.State} {A : Type} (body : A → V → A) (a : A) :
    Leads n s t → Leads n s (n.loop body a t).2
  | search {t : n.State} (found : V → Bool) : Leads n s t → Leads n s (n.search found t).2

theorem Leads.keeps {n : StreamBase V} {P : n.State → Prop} (hP : ∀ s, P s → P (n.next s).2)
    {s t : n.State} (hs : P s) (h : Leads n s t) : P t := by
  induction h with
  | start => exact hs
  | next _ ih => exact hP _ ih
  | loop body a _ ih => exact loop_keeps hP body a ih
  | search found _ ih => exact search_keeps hP found ih

/-- What calls of `next` of the first node keep holds of it whatever is done with the pipeline. -/
theorem Pipeline.leads_keep {root : StreamBase T} {P : root.State → Prop}
    (hP : ∀ s, P s → P (root.next s).2)
    (p : Pipeline T V) {s : root.State} (hs : P s) {t : (p.node root).State}
    (h : Leads (p.node root) (p.start root s) t) : P (p.rootState root t) := by
  have hstart : P (p.rootState root (p.start root s)) := by rwa [p.rootState_start]
  exact h.keeps (p.rootState_next hP) hstart

namespace Pipeline

theorem foldl_append (xs ys : List V) : ys.foldl (fun result x => result ++ [x]) xs = xs ++ ys := by
  induction ys generalizing xs with
  | nil => rw [List.foldl_nil, List.append_nil]
  | cons y ys ih => rw [List.foldl_cons, ih, List.append_assoc, List.singleton_append]

theorem foldl_count (ys : List V) (total : UInt64) :
    ys.foldl (fun total _ => total + 1) total = total + UInt64.ofNat ys.length := by
  induction ys generalizing total with
  | nil => exact (UInt64.add_zero total).symm
  | cons y ys ih =>
    rw [List.foldl_cons, ih, List.length_cons, UInt64.ofNat_add, UInt64.add_assoc,
      UInt64.add_comm 1]
    rfl

theorem loop_start (p : Pipeline T V) (xs : List T) (body : A → V → A) (a : A) :
    ((p.node (Stream T)).loop body a (p.start (Stream T) xs)).1 = (p.apply xs).foldl body a := by
  rw [p.reads.loop_eq, p.denote_source]

theorem search_start (p : Pipeline T V) (xs : List T) (found : V → Bool) :
    ((p.node (Stream T)).search found (p.start (Stream T) xs)).1 = (p.apply xs).any found := by
  rw [p.reads.search_eq, p.denote_source]

theorem operatesOn (p : Pipeline T V) (xs : List T) : OperatesOn p xs (p.apply xs) where
  collect := (p.loop_start xs _ _).trans (foldl_append [] _)
  count := (p.loop_start xs _ _).trans ((foldl_count _ 0).trans (UInt64.zero_add _))
  reduce init op := p.loop_start xs op init
  forEach consumer world := p.loop_start xs consumer world
  any predicate := p.search_start xs predicate
  all predicate := by
    change (!((p.node (Stream T)).search _ (p.start (Stream T) xs)).1) = _
    rw [p.search_start, List.all_eq_not_any_not]

theorem search_reads (p : Pipeline T V) (xs : List T) (found : V → Bool)
    {t : (p.node (Stream T)).State}
    (h : (p.node (Stream T)).search found (p.start (Stream T) xs) = (true, t)) :
    ReadUpTo p found xs (p.rootState (Stream T) t) := by
  have hstops := p.reads.search_stops found (p.start (Stream T) xs)
  rw [h] at hstops
  obtain ⟨before, x, y, hsource, hbefore, hy, hdenote⟩ := hstops
  have hone := hdenote []
  rw [p.denote_start, p.denote_start, p.denote_nil] at hone
  rw [p.denote_start] at hbefore
  exact ⟨before, x, y, (p.rootState_start (Stream T) xs).symm.trans hsource, hbefore, hy, hone⟩

theorem all_reads (p : Pipeline T V) (xs : List T) (predicate : V → Bool)
    {t : (p.node (Stream T)).State}
    (h : (p.node (Stream T)).all predicate (p.start (Stream T) xs) = (false, t)) :
    ReadUpTo p (fun y => !predicate y) xs (p.rootState (Stream T) t) := by
  apply p.search_reads
  rcases hr : (p.node (Stream T)).search (fun y => !predicate y)
    (p.start (Stream T) xs) with ⟨found, t'⟩
  unfold StreamBase.all at h
  rw [hr] at h
  obtain ⟨hfound, rfl⟩ := Prod.mk.inj h
  cases found with
  | false => nomatch hfound
  | true => rfl

end Pipeline

/-- Over every range, the operations of every pipeline are those of the list that its list functions
give; `any` and `all` read nothing behind the source element that decides; and whatever is behind a
`take` calls what is before it as often as it allows at most. -/
theorem pipelines_operate :
    (∀ (T V : Type) (p : Pipeline T V) (xs : List T),
      OperatesOn p xs (p.apply xs) ∧
      (∀ predicate t, (p.node (Stream T)).any predicate (p.start (Stream T) xs) = (true, t) →
        ReadUpTo p predicate xs (p.rootState (Stream T) t)) ∧
      ∀ predicate t, (p.node (Stream T)).all predicate (p.start (Stream T) xs) = (false, t) →
        ReadUpTo p (fun y => !predicate y) xs (p.rootState (Stream T) t)) ∧
    ∀ (T V : Type) (upstream : StreamBase T) (s : upstream.State) (count : UInt64) (p : Pipeline T V) t,
      Leads (p.node (TakeStream (counted upstream))) (p.start (TakeStream (counted upstream))
      ((s, 0), count)) t → (p.rootState (TakeStream (counted upstream)) t).1.2 ≤ count.toNat := by
  constructor
  · intro T V p xs
    exact ⟨p.operatesOn xs, fun predicate t h => p.search_reads xs predicate h,
      fun predicate t h => p.all_reads xs predicate h⟩
  · intro T V upstream s count p t ht
    have hkept : (p.rootState (TakeStream (counted upstream)) t).1.2 +
        (p.rootState (TakeStream (counted upstream)) t).2.toNat = count.toNat :=
      p.leads_keep (P := fun t : (TakeStream (counted upstream)).State => t.1.2 + t.2.toNat =
        count.toNat)
        (fun t h => (take_calls upstream t).trans h) (Nat.zero_add _) ht
    exact Nat.le.intro hkept

end Libca.Collection
