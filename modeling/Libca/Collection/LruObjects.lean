import Libca.Collection.LruNodes
import Libca.Common.Except

/-!
# A set of `LruCache` objects (`collection/lru_cache.hpp` 46-69)

Calls on objects that a program names: construction, `get`, `put`, `remove`, `clear`, and the copies
and moves that the compiler declares for `LruCache`, each member by member. The calls are the same
over a machine of what one object is, so that a program runs on linked caches and on lists in the
order of last use.

A copied list has nodes of its own, and a copied index the iterators of its source. A list, an index
or a function that was moved from is empty, as the standard libraries leave it; a list that is moved
onto itself is cleared, and an index and a function keep what they have.

* `step_simulates`: a call that copies no entries does on linked caches what it does on lists.
* `run_actsAsLists`: so does every program of such calls.
-/

namespace Libca.Collection

open Common

/-- What a call needs of one object. `none` is undefined behaviour, and a number is the next address
of a node. -/
structure Machine (C K V : Type) where
  create : Nat → Option Nat → C
  get : C → K → Option (Option V × C)
  put : C → Nat → K → V → Option (List (Nat × K × V) × C)
  remove : C → K → Option (Option V × C)
  clear : C → C
  /-- The number of nodes that a copy needs. -/
  size : C → Nat
  /-- A copy of the second over the first, if there is one. -/
  copy : Option C → C → Nat → C
  /-- What a move to another object leaves. -/
  movedFrom : C → C
  /-- What a move onto the object itself leaves. -/
  selfMoved : C → C

/-- The nodes of a copy of `source`, those at hand first. -/
def copyNodes {K V : Type} : List (Node K V) → List (Node K V) → Nat → List (Node K V)
  | _, [], _ => []
  | own :: rest, node :: source, next =>
    { node with address := own.address } :: copyNodes rest source next
  | [], node :: source, next => { node with address := next } :: copyNodes [] source (next + 1)

variable {O K V : Type} [DecidableEq O] [DecidableEq K]

/-- `LruCache`. -/
def linkedCaches : Machine (LinkedCache K V) K V where
  create capacity onEvict := { capacity, onEvict }
  get := LinkedCache.get
  put := LinkedCache.put
  remove := LinkedCache.remove
  clear := LinkedCache.clear
  size cache := cache.items.length
  copy target source next :=
    { source with items := copyNodes (target.elim [] LinkedCache.items) source.items next }
  movedFrom cache := { cache with items := [], index := ∅, onEvict := none }
  selfMoved cache := { cache with items := [] }

/-- Lists in the order of last use. -/
def lruLists : Machine (LruList K V) K V where
  create capacity onEvict := { cache := { capacity }, onEvict }
  get list key := some (list.get key)
  put list _ key value := some (list.put key value)
  remove list key := some (list.remove key)
  clear := LruList.clear
  size list := list.cache.items.length
  copy _ source _ := source
  movedFrom list := { cache := { list.cache with items := [] }, onEvict := none }
  selfMoved list := { list with cache := { list.cache with items := [] } }

/-! ## Programs -/

inductive Call (O K V : Type) where
  | construct (object : O) (capacity : Nat) (onEvict : Option Nat)
  | get (object : O) (key : K)
  | put (object : O) (key : K) (value : V)
  | remove (object : O) (key : K)
  | clear (object : O)
  | copyConstruct (target source : O)
  | copyAssign (target source : O)
  | moveConstruct (target source : O)
  | moveAssign (target source : O)
deriving DecidableEq, Repr

inductive Reply (V : Type) where
  | done
  | value (value : Option V)
  | invalidArgument
deriving DecidableEq, Repr

/-- Why a program does not run on. -/
inductive Halt where
  /-- A call names no object, or constructs one that is there. -/
  | illFormed
  | undefined
deriving DecidableEq, Repr

/-- The objects, the calls of callbacks so far, and the next address of a node. -/
structure Objects (O C K V : Type) where
  object : O → Option C := fun _ => none
  callbacks : List (Nat × K × V) := []
  next : Nat := 0

namespace Objects

variable {C : Type}

def find (s : Objects O C K V) (o : O) : Except Halt C :=
  match s.object o with
  | some c => .ok c
  | none => .error .illFormed

def absent (s : Objects O C K V) (o : O) : Except Halt Unit :=
  match s.object o with
  | some _ => .error .illFormed
  | none => .ok ()

def set (s : Objects O C K V) (o : O) (c : C) : Objects O C K V :=
  { s with object := Function.update s.object o (some c) }

end Objects

def defined {α : Type} : Option α → Except Halt α
  | some a => .ok a
  | none => .error .undefined

/-- One call. -/
def step {C : Type} (m : Machine C K V) (s : Objects O C K V) :
    Call O K V → Except Halt (Reply V × Objects O C K V)
  | .construct o capacity onEvict => do
    s.absent o
    if capacity = 0 then return (.invalidArgument, s)
    else return (.done, s.set o (m.create capacity onEvict))
  | .get o key => do
    let (value, c) ← defined (m.get (← s.find o) key)
    return (.value value, s.set o c)
  | .put o key value => do
    let (calls, c) ← defined (m.put (← s.find o) s.next key value)
    return (.done, { s.set o c with callbacks := s.callbacks ++ calls, next := s.next + 1 })
  | .remove o key => do
    let (value, c) ← defined (m.remove (← s.find o) key)
    return (.value value, s.set o c)
  | .clear o => do
    return (.done, s.set o (m.clear (← s.find o)))
  | .copyConstruct target source => do
    let c ← s.find source
    s.absent target
    return (.done, { s.set target (m.copy none c s.next) with next := s.next + m.size c })
  | .copyAssign target source => do
    let old ← s.find target
    let c ← s.find source
    if target = source then return (.done, s)
    else return (.done, { s.set target (m.copy (some old) c s.next) with next := s.next + m.size c })
  | .moveConstruct target source => do
    let c ← s.find source
    s.absent target
    return (.done, (s.set source (m.movedFrom c)).set target c)
  | .moveAssign target source => do
    let _ ← s.find target
    let c ← s.find source
    if target = source then return (.done, s.set target (m.selfMoved c))
    else return (.done, (s.set source (m.movedFrom c)).set target c)

/-- A program from where no object is. -/
def run {C : Type} (m : Machine C K V) (s : Objects O C K V) :
    List (Call O K V) → Except Halt (List (Reply V) × Objects O C K V)
  | [] => .ok ([], s)
  | call :: calls => do
    let (reply, s) ← step m s call
    let (replies, s) ← run m s calls
    return (reply :: replies, s)

/-! ## Simulation -/

/-- The objects are linked caches that keep the lists. -/
structure Simulates (s : Objects O (LinkedCache K V) K V) (t : Objects O (LruList K V) K V) :
    Prop where
  object : ∀ o, Option.Rel (fun cache list => LinkedCache.Keeps s.next cache list) (s.object o)
    (t.object o)
  callbacks : s.callbacks = t.callbacks

/-- Two results are the same reply with states that are related, or both programs are ill-formed. -/
inductive Agrees {S T α : Type} (rel : S → T → Prop) :
    Except Halt (α × S) → Except Halt (α × T) → Prop where
  | ok {a : α} {s : S} {t : T} (h : rel s t) : Agrees rel (.ok (a, s)) (.ok (a, t))
  | illFormed : Agrees rel (.error .illFormed) (.error .illFormed)

/-- The call copies no entries, and moves none onto their own object. -/
def Harmless (s : Objects O (LinkedCache K V) K V) : Call O K V → Prop
  | .copyConstruct _ source => ∀ cache, s.object source = some cache → cache.items = []
  | .copyAssign target source => target ≠ source → ∀ cache, s.object source = some cache →
    cache.items = []
  | .moveAssign target source => target = source → ∀ cache, s.object source = some cache →
    cache.items = []
  | _ => True

variable {s s' : Objects O (LinkedCache K V) K V} {t t' : Objects O (LruList K V) K V}
variable {cache : LinkedCache K V} {list : LruList K V} {o : O}

namespace Simulates

omit [DecidableEq O] in
/-- An object is in both states, or in neither. -/
theorem cases (h : Simulates s t) (o : O) :
    (s.object o = none ∧ t.object o = none) ∨
      ∃ cache list, s.object o = some cache ∧ t.object o = some list ∧ cache.Keeps s.next list := by
  have hrel := h.object o
  cases hs : s.object o with
  | none =>
    cases ht : t.object o with
    | none => exact .inl ⟨rfl, rfl⟩
    | some list =>
      rw [hs, ht] at hrel
      nomatch hrel
  | some cache =>
    cases ht : t.object o with
    | none =>
      rw [hs, ht] at hrel
      nomatch hrel
    | some list =>
      rw [hs, ht] at hrel
      cases hrel with
      | some hkeeps => exact .inr ⟨cache, list, rfl, rfl, hkeeps⟩

/-- One object changes in both states. -/
theorem update (h : Simulates s t) (hkeeps : cache.Keeps s'.next list)
    (hs : s'.object = Function.update s.object o (some cache))
    (ht : t'.object = Function.update t.object o (some list)) (hnext : s.next ≤ s'.next)
    (hcallbacks : s'.callbacks = t'.callbacks) : Simulates s' t' where
  object o' := by
    rw [hs, ht]
    by_cases ho : o' = o
    · rw [ho, Function.update_self, Function.update_self]
      exact .some hkeeps
    · rw [Function.update_of_ne ho, Function.update_of_ne ho]
      rcases h.cases o' with ⟨hs, ht⟩ | ⟨cache, list, hs, ht, hkeeps⟩
      · rw [hs, ht]
        exact .none
      · rw [hs, ht]
        exact .some (hkeeps.mono hnext)
  callbacks := hcallbacks

end Simulates

section Steps

variable {C : Type} {m : Machine C K V} {w : Objects O C K V} {c : C}

omit [DecidableEq O] [DecidableEq K] in
theorem find_some (h : w.object o = some c) : w.find o = .ok c := by rw [Objects.find, h]

omit [DecidableEq O] [DecidableEq K] in
theorem find_none (h : w.object o = none) : w.find o = .error .illFormed := by rw [Objects.find, h]

omit [DecidableEq O] [DecidableEq K] in
theorem absent_some (h : w.object o = some c) : w.absent o = .error .illFormed := by
  rw [Objects.absent, h]

omit [DecidableEq O] [DecidableEq K] in
theorem absent_none (h : w.object o = none) : w.absent o = .ok () := by rw [Objects.absent, h]

end Steps

omit [DecidableEq K] in
/-- A copy of no entries is its source. -/
theorem copy_eq_self (old : Option (LinkedCache K V)) (hitems : cache.items = []) (next : Nat) :
    { cache with items := copyNodes (old.elim [] LinkedCache.items) cache.items next } = cache := by
  rw [hitems]
  have hnil : copyNodes (old.elim [] LinkedCache.items) ([] : List (Node K V)) next = [] := by
    rw [copyNodes]
  rw [hnil, ← hitems]

/-- The entries move to another object. -/
theorem Simulates.move {target source : O} (h : Simulates s t) (hkeeps : cache.Keeps s.next list) :
    Simulates ((s.set source (linkedCaches.movedFrom cache)).set target cache)
      ((t.set source (lruLists.movedFrom list)).set target list) := by
  have hsource : Simulates (s.set source (linkedCaches.movedFrom cache))
    (t.set source (lruLists.movedFrom list)) :=
    h.update (hkeeps.emptied none) rfl rfl le_rfl h.callbacks
  exact hsource.update hkeeps rfl rfl le_rfl h.callbacks

/-- **A call that copies no entries does on linked caches what it does on lists.** -/
theorem step_simulates (h : Simulates s t) (call : Call O K V) (hcall : Harmless s call) :
    Agrees Simulates (step linkedCaches s call) (step lruLists t call) := by
  cases call with
  | construct o capacity onEvict =>
    rcases h.cases o with ⟨hs, ht⟩ | ⟨cache, list, hs, ht, hkeeps⟩
    · by_cases hzero : capacity = 0
      · rw [step, step, absent_none hs, absent_none ht, hzero]
        exact .ok h
      · rw [step, step, absent_none hs, absent_none ht, if_neg hzero, if_neg hzero]
        exact .ok (h.update (LinkedCache.keeps_new (Nat.pos_of_ne_zero hzero) _ _) rfl rfl le_rfl
          h.callbacks)
    · rw [step, step, absent_some hs, absent_some ht]
      exact .illFormed
  | get o key =>
    rcases h.cases o with ⟨hs, ht⟩ | ⟨cache, list, hs, ht, hkeeps⟩
    · rw [step, step, find_none hs, find_none ht]
      exact .illFormed
    · obtain ⟨cache', hget, hkeeps'⟩ := LinkedCache.get_keeps hkeeps key
      rw [step, step, find_some hs, find_some ht]
      show Agrees _ (defined (cache.get key) >>= _) _
      rw [hget]
      exact .ok (h.update hkeeps' rfl rfl le_rfl h.callbacks)
  | put o key value =>
    rcases h.cases o with ⟨hs, ht⟩ | ⟨cache, list, hs, ht, hkeeps⟩
    · rw [step, step, find_none hs, find_none ht]
      exact .illFormed
    · obtain ⟨cache', hput, hkeeps'⟩ := LinkedCache.put_keeps hkeeps key value
      rw [step, step, find_some hs, find_some ht]
      show Agrees _ (defined (cache.put s.next key value) >>= _) _
      rw [hput]
      refine .ok (h.update hkeeps' rfl rfl (Nat.le_succ _) ?_)
      exact congrArg (· ++ _) h.callbacks
  | remove o key =>
    rcases h.cases o with ⟨hs, ht⟩ | ⟨cache, list, hs, ht, hkeeps⟩
    · rw [step, step, find_none hs, find_none ht]
      exact .illFormed
    · obtain ⟨cache', hremove, hkeeps'⟩ := LinkedCache.remove_keeps hkeeps key
      rw [step, step, find_some hs, find_some ht]
      show Agrees _ (defined (cache.remove key) >>= _) _
      rw [hremove]
      exact .ok (h.update hkeeps' rfl rfl le_rfl h.callbacks)
  | clear o =>
    rcases h.cases o with ⟨hs, ht⟩ | ⟨cache, list, hs, ht, hkeeps⟩
    · rw [step, step, find_none hs, find_none ht]
      exact .illFormed
    · rw [step, step, find_some hs, find_some ht]
      exact .ok (h.update (LinkedCache.clear_keeps hkeeps) rfl rfl le_rfl h.callbacks)
  | copyConstruct target source =>
    rcases h.cases source with ⟨hs, ht⟩ | ⟨cache, list, hs, ht, hkeeps⟩
    · rw [step, step, find_none hs, find_none ht]
      exact .illFormed
    · rw [step, step, find_some hs, find_some ht]
      rcases h.cases target with ⟨hs', ht'⟩ | ⟨old, oldList, hs', ht', -⟩
      · rw [absent_none hs', absent_none ht']
        have hcopy : linkedCaches.copy none cache s.next = cache :=
          copy_eq_self none (hcall cache hs) s.next
        refine .ok (h.update ?_ rfl rfl (Nat.le_add_right _ _) h.callbacks)
        rw [hcopy]
        exact hkeeps.mono (Nat.le_add_right _ _)
      · rw [absent_some hs', absent_some ht']
        exact .illFormed
  | copyAssign target source =>
    rcases h.cases target with ⟨hs', ht'⟩ | ⟨old, oldList, hs', ht', -⟩
    · rw [step, step, find_none hs', find_none ht']
      exact .illFormed
    · rw [step, step, find_some hs', find_some ht']
      rcases h.cases source with ⟨hs, ht⟩ | ⟨cache, list, hs, ht, hkeeps⟩
      · rw [find_none hs, find_none ht]
        exact .illFormed
      · rw [find_some hs, find_some ht]
        show Agrees _ (if target = source then _ else _) (if target = source then _ else _)
        by_cases hself : target = source
        · rw [if_pos hself, if_pos hself]
          exact .ok h
        · rw [if_neg hself, if_neg hself]
          have hcopy : linkedCaches.copy (some old) cache s.next = cache :=
            copy_eq_self (some old) (hcall hself cache hs) s.next
          refine .ok (h.update ?_ rfl rfl (Nat.le_add_right _ _) h.callbacks)
          rw [hcopy]
          exact hkeeps.mono (Nat.le_add_right _ _)
  | moveConstruct target source =>
    rcases h.cases source with ⟨hs, ht⟩ | ⟨cache, list, hs, ht, hkeeps⟩
    · rw [step, step, find_none hs, find_none ht]
      exact .illFormed
    · rw [step, step, find_some hs, find_some ht]
      rcases h.cases target with ⟨hs', ht'⟩ | ⟨old, oldList, hs', ht', -⟩
      · rw [absent_none hs', absent_none ht']
        exact .ok (h.move hkeeps)
      · rw [absent_some hs', absent_some ht']
        exact .illFormed
  | moveAssign target source =>
    rcases h.cases target with ⟨hs', ht'⟩ | ⟨old, oldList, hs', ht', -⟩
    · rw [step, step, find_none hs', find_none ht']
      exact .illFormed
    · rw [step, step, find_some hs', find_some ht']
      rcases h.cases source with ⟨hs, ht⟩ | ⟨cache, list, hs, ht, hkeeps⟩
      · rw [find_none hs, find_none ht]
        exact .illFormed
      · rw [find_some hs, find_some ht]
        show Agrees _ (if target = source then _ else _) (if target = source then _ else _)
        by_cases hself : target = source
        · rw [if_pos hself, if_pos hself]
          have hitems := hcall hself cache hs
          have hempty : list.cache.items = [] := by rw [hkeeps.items, hitems, List.map_nil]
          have hselfMoved : linkedCaches.selfMoved cache = cache :=
            congrArg ({ cache with items := · }) hitems.symm
          have hselfMoved' : lruLists.selfMoved list = list :=
            congrArg (fun items => { list with cache := { list.cache with items } }) hempty.symm
          rw [hselfMoved, hselfMoved']
          exact .ok (h.update hkeeps rfl rfl le_rfl h.callbacks)
        · rw [if_neg hself, if_neg hself]
          exact .ok (h.move hkeeps)

/-- No call of a program copies entries or moves them onto their own object. -/
def HarmlessRun (s : Objects O (LinkedCache K V) K V) : List (Call O K V) → Prop
  | [] => True
  | call :: calls =>
    Harmless s call ∧ ∀ reply s', step linkedCaches s call = .ok (reply, s') → HarmlessRun s' calls

theorem run_simulates (h : Simulates s t) (calls : List (Call O K V))
    (hcalls : HarmlessRun s calls) :
    Agrees Simulates (run linkedCaches s calls) (run lruLists t calls) := by
  induction calls generalizing s t with
  | nil => exact .ok h
  | cons call calls ih =>
    obtain ⟨hcall, hrest⟩ := hcalls
    rw [run, run]
    have hstep := step_simulates h call hcall
    generalize hs : step linkedCaches s call = result at hstep
    generalize step lruLists t call = result' at hstep
    cases hstep with
    | illFormed => exact .illFormed
    | ok h' =>
      rename_i reply s' t'
      have hrun := ih h' (hrest reply s' hs)
      show Agrees _ (run linkedCaches s' calls >>= _) (run lruLists t' calls >>= _)
      generalize run linkedCaches s' calls = result at hrun
      generalize run lruLists t' calls = result' at hrun
      cases hrun with
      | illFormed => exact .illFormed
      | ok h'' => exact .ok h''

/-! ## Counters -/

/-- No counter is above `n`. -/
def CacheStatus.UpTo (n : Nat) (status : CacheStatus) : Prop :=
  status.hits ≤ n ∧ status.misses ≤ n ∧ status.evictions ≤ n

theorem CacheStatus.UpTo.succ {n : Nat} {status : CacheStatus} (h : status.UpTo n) :
    status.UpTo (n + 1) :=
  ⟨Nat.le_succ_of_le h.1, Nat.le_succ_of_le h.2.1, Nat.le_succ_of_le h.2.2⟩

/-- Counters that do not wrap are exact. -/
theorem CacheStatus.UpTo.wrapped_eq {n : Nat} {status : CacheStatus} (h : status.UpTo n)
    (hn : n < 2 ^ 64) :
    status.wrapped = status := by
  obtain ⟨hhits, hmisses, hevictions⟩ := h
  rw [wrapped, Nat.mod_eq_of_lt (by omega), Nat.mod_eq_of_lt (by omega),
    Nat.mod_eq_of_lt (by omega)]

def CountsUpTo (n : Nat) (t : Objects O (LruList K V) K V) : Prop :=
  ∀ o list, t.object o = some list → list.cache.status.UpTo n

variable {n : Nat}

theorem upTo_get (h : list.cache.status.UpTo n) (key : K) :
    (list.get key).2.cache.status.UpTo (n + 1) := by
  rw [LruList.get, LruCache.get]
  cases list.cache.find key with
  | none => exact ⟨h.succ.1, Nat.succ_le_succ h.2.1, h.succ.2.2⟩
  | some value => exact ⟨Nat.succ_le_succ h.1, h.succ.2.1, h.succ.2.2⟩

theorem upTo_put (h : list.cache.status.UpTo n) (key : K) (value : V) :
    (list.put key value).2.cache.status.UpTo (n + 1) := by
  rw [LruList.put, LruCache.put]
  cases list.cache.find key with
  | some old => exact h.succ
  | none =>
    dsimp only
    split_ifs
    · exact ⟨h.succ.1, h.succ.2.1, Nat.succ_le_succ h.2.2⟩
    · exact h.succ

namespace CountsUpTo

omit [DecidableEq O] [DecidableEq K] in
theorem succ (h : CountsUpTo n t) : CountsUpTo (n + 1) t := fun o list ho => (h o list ho).succ

omit [DecidableEq K] in
/-- One object changes. -/
theorem update (h : CountsUpTo n t) (ht : t'.object = Function.update t.object o (some list))
    (hlist : list.cache.status.UpTo n) : CountsUpTo n t' := by
  intro o' list' ho'
  rw [ht] at ho'
  by_cases ho : o' = o
  · rw [ho, Function.update_self] at ho'
    cases ho'
    exact hlist
  · rw [Function.update_of_ne ho] at ho'
    exact h o' list' ho'

theorem move {target source : O} (h : CountsUpTo n t) (hlist : list.cache.status.UpTo n) :
    CountsUpTo n ((t.set source (lruLists.movedFrom list)).set target list) := by
  have hsource : CountsUpTo n (t.set source (lruLists.movedFrom list)) := h.update rfl hlist
  exact hsource.update rfl hlist

omit [DecidableEq O] [DecidableEq K] in
/-- What a call finds counts up to `n`. -/
theorem of_find (h : CountsUpTo n t) (ho : t.find o = .ok list) : list.cache.status.UpTo n := by
  unfold Objects.find at ho
  cases hobject : t.object o with
  | none =>
    rw [hobject] at ho
    nomatch ho
  | some found =>
    rw [hobject] at ho
    cases ho
    exact h o _ hobject

theorem step (h : CountsUpTo n t) (call : Call O K V) {reply : Reply V}
    (hstep : step lruLists t call = .ok (reply, t')) : CountsUpTo (n + 1) t' := by
  cases call with
  | construct o capacity onEvict =>
    obtain ⟨-, -, hstep⟩ := except_bind_eq_ok.mp hstep
    split_ifs at hstep
    · cases hstep
      exact h.succ
    · cases hstep
      exact h.succ.update rfl ⟨Nat.zero_le _, Nat.zero_le _, Nat.zero_le _⟩
  | get o key =>
    obtain ⟨list, hlist, hstep⟩ := except_bind_eq_ok.mp hstep
    cases hstep
    exact h.succ.update rfl (upTo_get (h.of_find hlist) key)
  | put o key value =>
    obtain ⟨list, hlist, hstep⟩ := except_bind_eq_ok.mp hstep
    cases hstep
    exact h.succ.update rfl (upTo_put (h.of_find hlist) key value)
  | remove o key =>
    obtain ⟨list, hlist, hstep⟩ := except_bind_eq_ok.mp hstep
    cases hstep
    have hupTo := h.succ.of_find hlist
    exact h.succ.update rfl hupTo
  | clear o =>
    obtain ⟨list, hlist, hstep⟩ := except_bind_eq_ok.mp hstep
    cases hstep
    have hupTo := h.succ.of_find hlist
    exact h.succ.update rfl hupTo
  | copyConstruct target source =>
    obtain ⟨list, hlist, hstep⟩ := except_bind_eq_ok.mp hstep
    obtain ⟨-, -, hstep⟩ := except_bind_eq_ok.mp hstep
    cases hstep
    exact h.succ.update rfl (h.succ.of_find hlist)
  | copyAssign target source =>
    obtain ⟨old, -, hstep⟩ := except_bind_eq_ok.mp hstep
    obtain ⟨list, hlist, hstep⟩ := except_bind_eq_ok.mp hstep
    split_ifs at hstep
    · cases hstep
      exact h.succ
    · cases hstep
      exact h.succ.update rfl (h.succ.of_find hlist)
  | moveConstruct target source =>
    obtain ⟨list, hlist, hstep⟩ := except_bind_eq_ok.mp hstep
    obtain ⟨-, -, hstep⟩ := except_bind_eq_ok.mp hstep
    cases hstep
    exact h.succ.move (h.succ.of_find hlist)
  | moveAssign target source =>
    obtain ⟨-, -, hstep⟩ := except_bind_eq_ok.mp hstep
    obtain ⟨list, hlist, hstep⟩ := except_bind_eq_ok.mp hstep
    split_ifs at hstep
    · cases hstep
      have hupTo := h.succ.of_find hlist
      exact h.succ.update rfl hupTo
    · cases hstep
      exact h.succ.move (h.succ.of_find hlist)

theorem run {m : Nat} (h : CountsUpTo m t) (calls : List (Call O K V)) {replies : List (Reply V)}
    (hrun : run lruLists t calls = .ok (replies, t')) : CountsUpTo (m + calls.length) t' := by
  induction calls generalizing m t replies with
  | nil =>
    cases hrun
    exact h
  | cons call calls ih =>
    obtain ⟨⟨reply, next⟩, hstep, hrun⟩ := except_bind_eq_ok.mp hrun
    obtain ⟨⟨rest, last⟩, hrest, hrun⟩ := except_bind_eq_ok.mp hrun
    cases hrun
    rw [List.length_cons, Nat.add_comm calls.length, ← Nat.add_assoc]
    exact ih (h.step call hstep) hrest

end CountsUpTo

/-! ## Programs on caches and on lists -/

/-- A cache has the entries of a list, all linked, and its counters, which are exact until they
wrap. -/
def Shows (length : Nat) (cache : LinkedCache K V) (list : LruList K V) : Prop :=
  cache.WellLinked ∧ cache.capacity = list.cache.capacity ∧ cache.items.map Node.entry =
    list.cache.items ∧
    cache.status = list.cache.status.wrapped ∧ (length < 2 ^ 64 → cache.status = list.cache.status)

/-- A program has no undefined behaviour, and its replies, its calls of callbacks and all its
objects are those of lists in the order of last use. -/
def ActsAsLists (calls : List (Call O K V)) : Prop :=
  run linkedCaches {} calls ≠ .error .undefined ∧
    ∀ replies s, run linkedCaches {} calls = .ok (replies, s) →
      ∃ t, run lruLists {} calls = .ok (replies, t) ∧ s.callbacks = t.callbacks ∧
        ∀ o, Option.Rel (Shows calls.length) (s.object o) (t.object o)

/-- **A program that copies no entries acts as on lists in the order of last use.** -/
theorem run_actsAsLists (calls : List (Call O K V)) (h : HarmlessRun {} calls) :
    ActsAsLists calls := by
  have hinitial : Simulates ({} : Objects O (LinkedCache K V) K V) {} := ⟨fun _ => .none, rfl⟩
  have hcounts : CountsUpTo 0 ({} : Objects O (LruList K V) K V) := nofun
  have hrun := run_simulates hinitial calls h
  unfold ActsAsLists
  generalize hs : Collection.run linkedCaches {} calls = result at hrun
  generalize ht : Collection.run lruLists {} calls = result' at hrun
  cases hrun with
  | illFormed => exact ⟨nofun, nofun⟩
  | ok hsimulates =>
    rename_i replies s t
    refine ⟨nofun, fun replies' s' hresult => ?_⟩
    cases hresult
    refine ⟨t, rfl, hsimulates.callbacks, fun o => ?_⟩
    rcases hsimulates.cases o with ⟨hs', ht'⟩ | ⟨cache, list, hs', ht', hkeeps⟩
    · rw [hs', ht']
      exact .none
    · rw [hs', ht']
      refine .some ⟨hkeeps.linked, hkeeps.capacity.symm, hkeeps.items.symm, hkeeps.status,
        fun hlength => ?_⟩
      have hupTo := hcounts.run calls ht o list ht'
      rw [Nat.zero_add] at hupTo
      rw [hkeeps.status, hupTo.wrapped_eq hlength]

/-- A copy of a new cache, an eviction, and a move over the copy. -/
theorem run_actsAsLists_move :
    ActsAsLists [Call.construct 0 1 (some 3), .copyConstruct 1 0, .put 0 5 6, .put 0 7 8,
    .moveAssign 1 0, .get 1 7] := by
  refine run_actsAsLists _ ⟨trivial, ?_⟩
  rintro reply s ⟨⟩
  refine ⟨?_, fun reply s _ =>
    ⟨trivial, fun reply s _ => ⟨trivial, fun reply s _ => ⟨nofun, fun reply s _ =>
    ⟨trivial, fun reply s _ => trivial⟩⟩⟩⟩⟩
  rintro cache ⟨⟩
  rfl

/-- A copy of a cache with an entry has the iterators of its source: its index is not one of its
list, and `get` splices from a list that is not its own. -/
theorem not_actsAsLists_copy :
    ¬ ActsAsLists [Call.construct 0 1 none, .put 0 5 6, .copyConstruct 1 0] ∧
      run linkedCaches {} [Call.construct 0 1 none, .put 0 5 6, .copyConstruct 1 0, .get 1 5] =
        .error .undefined := by
  refine ⟨?_, rfl⟩
  rintro ⟨-, hshows⟩
  obtain ⟨t, ht, -, hobjects⟩ := hshows _ _ rfl
  cases ht
  cases hobjects 1 with
  | some hshown =>
    obtain ⟨node, hnode, -, haddress⟩ := (hshown.1.lookup_iff 5 0).mp rfl
    rw [List.mem_singleton.mp hnode] at haddress
    nomatch haddress

end Libca.Collection
