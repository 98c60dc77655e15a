import Libca.Collection.LruCache
import Libca.Common.Monitor
import Libca.Io.Stream
import Libca.Thread.Clock

/-!
# `CachedDnsResolver` (`net/dns_cache.cpp` 12-182)

Calls of `resolve` on one cache, from any threads, and a clock. The lookup and the store are
sections under the mutex and one step each; between them the resolver is called, which takes any
time.

The resolver is a parameter.

* `expiresAt_le`: an entry expires no later than its lifetime after the clock of the store.
* `Effect.counted`: the counters count the lookups.
* `Effect.sound`: the entries and answers come from calls of the resolver.
* `answers_fresh`: an answer from the cache is younger than its lifetime, in every run in which the
  clock stands still from the start of a resolution to its store.
* `not_answers_fresh`: the lifetime is counted from the store, so that a slow resolution is answered
  from the cache when it is too old.
-/

namespace Libca.Net

open Common Collection Io Thread

inductive AddressFamily
  | unspecified
  | ipv4
  | ipv6
deriving DecidableEq, Repr

inductive SocketKind
  | stream
  | datagram
deriving DecidableEq, Repr

structure CacheKey where
  host : Bytes
  port : UInt16
  family : AddressFamily
  kind : SocketKind
deriving DecidableEq, Repr

structure CacheEntry (A : Type) where
  addresses : A
  expiresAt : Int64

/-- Where a call of `resolve` is: in front of the lookup, in front of the resolver, in it since a
time, in front of the store with its result, or back. -/
inductive Progress (A : Type)
  | looking
  | missed
  | resolving (started : Int64)
  | resolved (started : Int64) (result : Except IoError A)
  | returned (result : Except IoError A)

structure ResolveCall (A : Type) where
  key : CacheKey
  progress : Progress A

/-- One for a call with a host that has passed the lookup. -/
def ResolveCall.passed {A : Type} (call : ResolveCall A) : Nat :=
  match call.progress with
  | .looking => 0
  | _ => if call.key.host.isEmpty then 0 else 1

/-- A successful call of the resolver, by the time it was started. -/
structure Resolution (A : Type) where
  key : CacheKey
  started : Int64
  addresses : A

/-- An answer from the cache. -/
structure Answer (A : Type) where
  key : CacheKey
  time : Int64
  addresses : A

/-- The cache, its clock and its calls. `A` is the type of the lists of addresses. The last two are
not in the source. -/
structure DnsCache (A : Type) where
  cache : LruCache CacheKey (CacheEntry A)
  ttl : Int64
  hits : Nat := 0
  misses : Nat := 0
  expiries : Nat := 0
  resolverCalls : Nat := 0
  now : Int64
  calls : List (ResolveCall A) := []
  resolutions : List (Resolution A) := []
  answers : List (Answer A) := []

namespace DnsCache

variable {A : Type}

/-- `create`; the flags say that a resolver and a time source are given. -/
def create (A : Type) (ttl : Int64) (capacity : Nat) (resolver timeSource : Bool) (now : Int64) :
    Except IoError (DnsCache A) :=
  if ttl ≤ 0 ∨ capacity = 0 then
    .error { kind := .invalidInput, message :=
      "DNS cache ttl and capacity must be greater than zero" }
  else if resolver = false then
    .error { kind := .invalidInput, message := "DNS cache resolver must not be empty" }
  else if timeSource = false then
    .error { kind := .invalidInput, message := "DNS cache time source must not be empty" }
  else .ok { cache := { capacity := capacity }, ttl := ttl, now := now }

/-- The steps: the clock; a call with its check of the host; the lookup, the start and the end of
the resolver and the store of the call `c`. -/
inductive Action (A : Type)
  | tick (t : Int64)
  | invoke (key : CacheKey)
  | lookup (c : Nat)
  | start (c : Nat)
  | finish (c : Nat) (result : Except IoError A)
  | store (c : Nat)

def emptyHost : IoError where
  kind := .invalidInput
  message := "DNS host must not be empty"

def setProgress (s : DnsCache A) (c : Nat) (key : CacheKey) (progress : Progress A) : DnsCache A :=
  { s with calls := s.calls.set c { key := key, progress := progress } }

/-- The first section of `resolve`. -/
def lookupStep (s : DnsCache A) (c : Nat) (key : CacheKey) : DnsCache A :=
  match s.cache.get key with
  | (some entry, cache) =>
    if s.now < entry.expiresAt then
      setProgress { s with
        cache := cache
        hits := s.hits + 1
        answers := { key := key, time := s.now, addresses := entry.addresses } :: s.answers }
        c key (.returned (.ok entry.addresses))
    else
      setProgress { s with
        cache := cache.remove key
        expiries := s.expiries + 1
        misses := s.misses + 1 }
        c key .missed
  | (none, cache) => setProgress { s with cache := cache, misses := s.misses + 1 } c key .missed

/-- `current > maximum - ttl_ ? maximum : current + ttl_`. -/
def expiresAt (current ttl : Int64) : Int64 :=
  if current > Int64.maxValue - ttl * 1000000 then Int64.maxValue else after current ttl

/-- The second section of `resolve`. -/
def storeStep (s : DnsCache A) (c : Nat) (key : CacheKey) (result : Except IoError A) :
    DnsCache A :=
  let s := { s with resolverCalls := s.resolverCalls + 1 }
  match result with
  | .ok addresses =>
    setProgress { s with
      cache := s.cache.put key { addresses := addresses, expiresAt := expiresAt s.now s.ttl } }
      c key (.returned (.ok addresses))
  | .error e => setProgress s c key (.returned (.error e))

def step (s : DnsCache A) : Action A → Option (DnsCache A)
  | .tick t => if s.now ≤ t then some { s with now := t } else none
  | .invoke key =>
    let progress := if key.host.isEmpty then .returned (.error emptyHost) else .looking
    some { s with calls := s.calls ++ [{ key := key, progress := progress }] }
  | .lookup c =>
    match s.calls[c]? with
    | some { key, progress := .looking } => some (lookupStep s c key)
    | _ => none
  | .start c =>
    match s.calls[c]? with
    | some { key, progress := .missed } => some (setProgress s c key (.resolving s.now))
    | _ => none
  | .finish c result =>
    match s.calls[c]? with
    | some { key, progress := .resolving started } =>
      let resolutions :=
        match result with
        | .ok addresses => { key, started, addresses } :: s.resolutions
        | .error _ => s.resolutions
      some (setProgress { s with resolutions := resolutions } c key (.resolved started result))
    | _ => none
  | .store c =>
    match s.calls[c]? with
    | some { key, progress := .resolved _ result } => some (storeStep s c key result)
    | _ => none

/-- The lifetime in nanoseconds is a duration. -/
def TtlFits (ttl : Int64) : Prop := ttl.toInt * 1000000 < 2 ^ 63

instance (ttl : Int64) : Decidable (TtlFits ttl) := inferInstanceAs (Decidable (_ < _))

/-- The clock has not moved since the resolution started; or what it found is never too old. -/
def onTime (s : DnsCache A) : Action A → Bool
  | .store c =>
    match s.calls[c]? with
    | some { key := _, progress := .resolved started (.ok _) } =>
      (decide (s.now = started) && decide (TtlFits s.ttl)) ||
        decide (2 ^ 63 - 1 ≤ exactAfter started s.ttl)
    | _ => true
  | _ => true

/-! ## The expiry -/

variable {ttl : Int64}

theorem toInt_maxValue_sub (hpos : 0 < ttl.toInt) (hfits : TtlFits ttl) :
    (Int64.maxValue - ttl * 1000000).toInt = 2 ^ 63 - 1 - ttl.toInt * 1000000 := by
  have hfits : ttl.toInt * 1000000 < 2 ^ 63 := hfits
  rw [Int64.toInt_sub, Int64.toInt_mul, Int.sub_bmod_bmod]
  rw [show (1000000 : Int64).toInt = 1000000 from rfl, show Int64.maxValue.toInt =
    2 ^ 63 - 1 from rfl]
  apply Int.bmod_eq_of_le <;> omega

/-- **An entry expires no later than its lifetime** after the store. -/
theorem expiresAt_le {current : Int64} (hpos : 0 < ttl.toInt) (hfits : TtlFits ttl) :
    (expiresAt current ttl).toInt ≤ exactAfter current ttl := by
  have hmax := toInt_maxValue_sub hpos hfits
  unfold expiresAt
  by_cases hlate : current > Int64.maxValue - ttl * 1000000
  · rw [if_pos hlate]
    have hlt := Int64.lt_iff_toInt_lt.mp hlate
    rw [hmax] at hlt
    rw [show Int64.maxValue.toInt = 2 ^ 63 - 1 from rfl, exactAfter]
    omega
  · rw [if_neg hlate]
    have hle := Int64.le_iff_toInt_le.mp (Int64.not_lt.mp hlate)
    rw [hmax] at hle
    refine Int.le_of_eq (toInt_after (Int.le_of_lt hpos) ?_)
    show exactAfter current ttl < 2 ^ 63
    rw [exactAfter]
    omega

/-! ## What a step does -/

/-- The steps by what they do to the state. -/
inductive Effect (s : DnsCache A) : DnsCache A → Prop
  | tick (t : Int64) : Effect s { s with now := t }
  | invoke (key : CacheKey) (progress : Progress A) (h : progress = .looking ∧ key.host.isEmpty =
    false ∨ key.host.isEmpty = true ∧ progress = .returned (.error emptyHost)) :
      Effect s { s with calls := s.calls ++ [{ key := key, progress := progress }] }
  | lookup (c : Nat) (key : CacheKey) (h : s.calls[c]? = some ⟨key, .looking⟩) :
      Effect s (lookupStep s c key)
  | start (c : Nat) (key : CacheKey) (h : s.calls[c]? = some ⟨key, .missed⟩) :
      Effect s (setProgress s c key (.resolving s.now))
  | succeed (c : Nat) (key : CacheKey) (started : Int64) (addresses : A)
      (h : s.calls[c]? = some ⟨key, .resolving started⟩) :
      Effect s (setProgress { s with resolutions := ⟨key, started, addresses⟩ :: s.resolutions } c
        key
        (.resolved started (.ok addresses)))
  | fail (c : Nat) (key : CacheKey) (started : Int64) (e : IoError)
      (h : s.calls[c]? = some ⟨key, .resolving started⟩) :
      Effect s (setProgress s c key (.resolved started (.error e)))
  | store (c : Nat) (key : CacheKey) (started : Int64) (result : Except IoError A)
      (h : s.calls[c]? = some ⟨key, .resolved started result⟩)
      (hon : ∀ addresses, result = .ok addresses → s.now = started ∧ TtlFits s.ttl ∨
        2 ^ 63 - 1 ≤ exactAfter started s.ttl) :
      Effect s (storeStep s c key result)

variable {s s' : DnsCache A}

theorem step_effect {a : Action A} (hon : onTime s a = true) (h : step s a = some s') :
    Effect s s' := by
  cases a with
  | tick t =>
    change (if s.now ≤ t then _ else none) = _ at h
    split_ifs at h
    cases h
    exact .tick t
  | invoke key =>
    cases h
    refine .invoke key _ ?_
    by_cases hhost : key.host.isEmpty = true
    · exact .inr ⟨hhost, if_pos hhost⟩
    · exact .inl ⟨if_neg hhost, by simpa using hhost⟩
  | lookup c =>
    simp only [step] at h
    split at h
    · next key hcall =>
      cases h
      exact .lookup c key hcall
    · cases h
  | start c =>
    simp only [step] at h
    split at h
    · next key hcall =>
      cases h
      exact .start c key hcall
    · cases h
  | finish c result =>
    simp only [step] at h
    split at h
    · next key started hcall =>
      cases h
      cases result with
      | ok addresses => exact .succeed c key started addresses hcall
      | error e => exact .fail c key started e hcall
    · cases h
  | store c =>
    simp only [step] at h
    split at h
    · next key started result hcall =>
      cases h
      refine .store c key started result hcall ?_
      rintro addresses rfl
      simpa [onTime, hcall] using hon
    · cases h

/-! ## The counters -/

structure Counted (s : DnsCache A) : Prop where
  named : ∀ call ∈ s.calls, call.key.host.isEmpty = true → ∃ result,
    call.progress = .returned result
  lookups : s.hits + s.misses = tally ResolveCall.passed s.calls
  expiries : s.expiries ≤ s.misses

variable {c : Nat} {key : CacheKey} {progress progress' : Progress A}

/-- A call that is not back has a host. -/
theorem Counted.host (hs : Counted s) (h : s.calls[c]? = some ⟨key, progress⟩)
    (hprogress : ∀ result, progress ≠ .returned result) : key.host.isEmpty = false := by
  by_contra hempty
  obtain ⟨result, hresult⟩ := hs.named _ (List.mem_of_getElem? h) (by simpa using hempty)
  exact hprogress result hresult

theorem passed_of_host {call : ResolveCall A} (hhost : call.key.host.isEmpty = false)
    (hprogress : call.progress ≠ .looking) : call.passed = 1 := by
  unfold ResolveCall.passed
  split
  · contradiction
  · rw [hhost, if_neg Bool.false_ne_true]

/-- One call goes on, and the counters with it. -/
theorem Counted.of_set (hs : Counted s) (h : s.calls[c]? = some ⟨key, progress⟩)
    (hprogress : ∀ result, progress ≠ .returned result) (hafter : progress' ≠ .looking)
    (hcalls : s'.calls = s.calls.set c ⟨key, progress'⟩)
    (hlookups : s'.hits + s'.misses + (ResolveCall.passed ⟨key, progress⟩) = s.hits + s.misses + 1)
    (hexpiries : s'.expiries ≤ s'.misses) : Counted s' := by
  have hhost := hs.host h hprogress
  refine ⟨fun call hmem hempty => ?_, ?_, hexpiries⟩
  · rw [hcalls] at hmem
    rcases List.mem_or_eq_of_mem_set hmem with hmem | rfl
    · exact hs.named call hmem hempty
    · rw [hhost] at hempty
      cases hempty
  · have hset := tally_set ResolveCall.passed h ⟨key, progress'⟩
    have hpassed : ResolveCall.passed ⟨key, progress'⟩ = 1 := passed_of_host hhost hafter
    have hbefore := hs.lookups
    rw [hcalls]
    omega

/-- A call that has passed the lookup goes on. -/
theorem Counted.of_later (hs : Counted s) (h : s.calls[c]? = some ⟨key, progress⟩)
    (hprogress : ∀ result, progress ≠ .returned result) (hbefore : progress ≠ .looking)
    (hafter : progress' ≠ .looking) (hcalls : s'.calls = s.calls.set c ⟨key, progress'⟩)
    (hcounters : s'.hits = s.hits ∧ s'.misses = s.misses ∧ s'.expiries = s.expiries) :
    Counted s' := by
  obtain ⟨hhits, hmisses, hexpiries⟩ := hcounters
  refine hs.of_set h hprogress hafter hcalls ?_ ?_
  · rw [passed_of_host (hs.host h hprogress) hbefore, hhits, hmisses]
  · rw [hexpiries, hmisses]
    exact hs.expiries

/-- What a lookup does: a hit with an answer, or a miss. -/
theorem lookupStep_spec (s : DnsCache A) (c : Nat) (key : CacheKey) :
    (∃ entry cache, (key, entry) ∈ s.cache.items ∧ s.now < entry.expiresAt ∧
        (∀ item ∈ cache.items, item ∈ s.cache.items) ∧
        lookupStep s c key = setProgress { s with
          cache := cache
          hits := s.hits + 1
          answers := ⟨key, s.now, entry.addresses⟩ :: s.answers } c key
            (.returned (.ok entry.addresses))) ∨
      ∃ cache expiries, (∀ item ∈ cache.items, item ∈ s.cache.items) ∧ expiries ≤ s.expiries + 1 ∧
        lookupStep s c key = setProgress { s with
          cache := cache
          expiries := expiries
          misses := s.misses + 1 } c key .missed := by
  obtain ⟨hfound, hitems⟩ := LruCache.get_spec s.cache key
  unfold lookupStep
  rcases hget : s.cache.get key with ⟨_ | entry, cache⟩
  · rw [hget] at hitems
    exact .inr ⟨cache, s.expiries, hitems, Nat.le_succ _, rfl⟩
  · rw [hget] at hfound hitems
    by_cases hfresh : s.now < entry.expiresAt
    · exact .inl ⟨entry, cache, hfound entry rfl, hfresh, hitems, if_pos hfresh⟩
    · exact .inr ⟨cache.remove key, s.expiries + 1, fun item hmem =>
        hitems item (LruCache.mem_remove hmem), le_rfl, if_neg hfresh⟩

theorem Effect.counted (h : Effect s s') (hs : Counted s) : Counted s' := by
  cases h with
  | tick t => exact ⟨hs.named, hs.lookups, hs.expiries⟩
  | invoke key progress hprogress =>
    refine ⟨fun call hmem hempty => ?_, ?_, hs.expiries⟩
    · rcases List.mem_append.mp hmem with hmem | hmem
      · exact hs.named call hmem hempty
      · obtain rfl := List.mem_singleton.mp hmem
        rcases hprogress with ⟨-, hhost⟩ | ⟨-, hreturned⟩
        · rw [hhost] at hempty
          cases hempty
        · exact ⟨_, hreturned⟩
    · have hpassed : ResolveCall.passed ⟨key, progress⟩ = 0 := by
        rcases hprogress with ⟨rfl, -⟩ | ⟨hempty, rfl⟩
        · rfl
        · exact if_pos hempty
      show s.hits + s.misses = tally _ (s.calls ++ [_])
      rw [tally_append, hpassed]
      exact hs.lookups
  | lookup c key hcall =>
    have hle := hs.expiries
    rcases lookupStep_spec s c key with ⟨entry, cache, -, -, -, heq⟩ | ⟨cache, expiries, -,
      hexpiries, heq⟩
    · rw [heq]
      have hafter : Progress.returned (.ok entry.addresses) ≠ .looking := by simp
      refine hs.of_set hcall (by simp) hafter rfl ?_ hle
      show s.hits + 1 + s.misses + 0 = _
      omega
    · rw [heq]
      have hafter : (.missed : Progress A) ≠ .looking := by simp
      refine hs.of_set hcall (by simp) hafter rfl rfl ?_
      show expiries ≤ s.misses + 1
      omega
  | start c key hcall => exact hs.of_later hcall (by simp) (by simp) (by simp) rfl ⟨rfl, rfl, rfl⟩
  | succeed c key started addresses hcall =>
    exact hs.of_later hcall (by simp) (by simp) (by simp) rfl ⟨rfl, rfl, rfl⟩
  | fail c key started e hcall => exact hs.of_later hcall (by simp) (by simp) (by simp) rfl ⟨rfl,
    rfl, rfl⟩
  | store c key started result hcall =>
    cases result with
    | ok addresses => exact hs.of_later hcall (by simp) (by simp) (by simp) rfl ⟨rfl, rfl, rfl⟩
    | error e => exact hs.of_later hcall (by simp) (by simp) (by simp) rfl ⟨rfl, rfl, rfl⟩

/-! ## The lifetime -/

structure Sound (s : DnsCache A) : Prop where
  ttl_pos : 0 < s.ttl.toInt
  /-- the entries come from the resolver, and expire in time -/
  items : ∀ item ∈ s.cache.items, ∃ r ∈ s.resolutions, r.key = item.1 ∧
    r.addresses = item.2.addresses ∧ item.2.expiresAt.toInt ≤ exactAfter r.started s.ttl
  /-- so do the results in front of the store -/
  resolved : ∀ call ∈ s.calls, ∀ started addresses,
    call.progress = .resolved started (.ok addresses) →
    ⟨call.key, started, addresses⟩ ∈ s.resolutions
  answers : ∀ a ∈ s.answers, ∃ r ∈ s.resolutions, r.key = a.key ∧ r.addresses = a.addresses ∧
    a.time.toInt < exactAfter r.started s.ttl

/-- A call goes on, and keeps nothing that the resolver has not found. -/
theorem Sound.resolved_set (hs : Sound s)
    (hprogress : ∀ started addresses, progress = .resolved started (.ok addresses) →
      ⟨key, started, addresses⟩ ∈ s.resolutions) :
    ∀ call ∈ s.calls.set c ⟨key, progress⟩, ∀ started addresses,
      call.progress = .resolved started (.ok addresses) →
        ⟨call.key, started, addresses⟩ ∈ s.resolutions := by
  intro call hmem started addresses hcall
  rcases List.mem_or_eq_of_mem_set hmem with hmem | rfl
  · exact hs.resolved call hmem started addresses hcall
  · exact hprogress started addresses hcall

/-- What has been found stays found. -/
theorem Sound.resolutions (hs : Sound s) (r : Resolution A) :
    Sound { s with resolutions := r :: s.resolutions } where
  ttl_pos := hs.ttl_pos
  items := fun item hmem => by
    obtain ⟨r', hr', hspec⟩ := hs.items item hmem
    exact ⟨r', .tail _ hr', hspec⟩
  resolved := fun call hmem started addresses hcall =>
    .tail _ (hs.resolved call hmem started addresses hcall)
  answers := fun a hmem => by
    obtain ⟨r', hr', hspec⟩ := hs.answers a hmem
    exact ⟨r', .tail _ hr', hspec⟩

/-- **The expiry of a store on time.** -/
theorem expiresAt_onTime {now started : Int64} (hpos : 0 < ttl.toInt)
    (hon : now = started ∧ TtlFits ttl ∨ 2 ^ 63 - 1 ≤ exactAfter started ttl) :
    (expiresAt now ttl).toInt ≤ exactAfter started ttl := by
  rcases hon with ⟨rfl, hfits⟩ | hlate
  · exact expiresAt_le hpos hfits
  · have hlt : (expiresAt now ttl).toInt < 2 ^ 63 := Int64.toInt_lt _
    omega

theorem Effect.sound (h : Effect s s') (hs : Sound s) : Sound s' := by
  cases h with
  | tick t => exact ⟨hs.ttl_pos, hs.items, hs.resolved, hs.answers⟩
  | invoke key progress hprogress =>
    refine ⟨hs.ttl_pos, hs.items, fun call hmem started addresses hcall => ?_, hs.answers⟩
    rcases List.mem_append.mp hmem with hmem | hmem
    · exact hs.resolved call hmem started addresses hcall
    · obtain rfl := List.mem_singleton.mp hmem
      rcases hprogress with ⟨rfl, -⟩ | ⟨-, rfl⟩ <;> cases hcall
  | lookup c key hcall =>
    rcases lookupStep_spec s c key with
      ⟨entry, cache, hfound, hfresh, hitems, heq⟩ | ⟨cache, expiries, hitems, -, heq⟩
    · rw [heq]
      refine ⟨hs.ttl_pos, fun item hmem => hs.items item (hitems item hmem),
        hs.resolved_set (by simp), fun a hmem => ?_⟩
      rcases List.mem_cons.mp hmem with rfl | hmem
      · obtain ⟨r, hr, hkey, haddresses, hexpires⟩ := hs.items _ hfound
        exact ⟨r, hr, hkey, haddresses,
          Int.lt_of_lt_of_le (Int64.lt_iff_toInt_lt.mp hfresh) hexpires⟩
      · exact hs.answers a hmem
    · rw [heq]
      exact ⟨hs.ttl_pos, fun item hmem => hs.items item (hitems item hmem),
        hs.resolved_set (by simp), hs.answers⟩
  | start c key hcall => exact ⟨hs.ttl_pos, hs.items, hs.resolved_set (by simp), hs.answers⟩
  | succeed c key started addresses hcall =>
    have hmore := hs.resolutions ⟨key, started, addresses⟩
    refine ⟨hs.ttl_pos, hmore.items, hmore.resolved_set ?_, hmore.answers⟩
    rintro started' addresses' ⟨⟩
    exact List.mem_cons_self
  | fail c key started e hcall =>
    exact ⟨hs.ttl_pos, hs.items, hs.resolved_set (by simp), hs.answers⟩
  | store c key started result hcall hon =>
    cases result with
    | error e => exact ⟨hs.ttl_pos, hs.items, hs.resolved_set (by simp), hs.answers⟩
    | ok addresses =>
      refine ⟨hs.ttl_pos, fun item hmem => ?_, hs.resolved_set (by simp), hs.answers⟩
      rcases LruCache.mem_put hmem with rfl | hmem
      · have hfound := hs.resolved _ (List.mem_of_getElem? hcall) started addresses rfl
        exact ⟨_, hfound, rfl, rfl, expiresAt_onTime hs.ttl_pos (hon addresses rfl)⟩
      · exact hs.items item hmem

/-! ## Runs -/

/-- What holds in every state of a cache. -/
structure Fresh (s : DnsCache A) : Prop where
  /-- an answer comes from a resolution that was started later than its lifetime ago -/
  answers : ∀ a ∈ s.answers, ∃ r ∈ s.resolutions, r.key = a.key ∧ r.addresses = a.addresses ∧
    a.time.toInt - s.ttl.toInt * 1000000 < r.started.toInt
  lookups : s.hits + s.misses = tally ResolveCall.passed s.calls
  expiries : s.expiries ≤ s.misses

/-- A cache that was created is empty, and has a lifetime. -/
theorem create_spec {capacity : Nat} {resolver timeSource : Bool} {now : Int64}
    (h : create A ttl capacity resolver timeSource now = .ok s) :
    s = { cache := { capacity := capacity }, ttl := ttl, now := now } ∧ 0 < ttl.toInt := by
  unfold create at h
  split_ifs at h with hzero
  refine ⟨(Except.ok.inj h).symm, ?_⟩
  exact Int64.lt_iff_toInt_lt.mp (Int64.not_le.mp fun hle => hzero (.inl hle))

/-- **Answers from the cache are fresh** when the clock stands still while a resolution runs. -/
theorem answers_fresh (ttl : Int64) (capacity : Nat) (resolver timeSource : Bool) (now : Int64)
    (created s : DnsCache A)
    (hcreated : create A ttl capacity resolver timeSource now = .ok created)
    (h : Reach step (fun s a => onTime s a = true) created s) : Fresh s := by
  obtain ⟨rfl, hpos⟩ := create_spec hcreated
  have hcounted : Counted ({ cache := { capacity := capacity }, ttl := ttl, now :=
    now } : DnsCache A) :=
    ⟨by rintro call ⟨⟩, rfl, Nat.le_refl 0⟩
  have hsound : Sound ({ cache := { capacity := capacity }, ttl := ttl, now :=
    now } : DnsCache A) :=
    ⟨hpos, by rintro item ⟨⟩, by rintro call ⟨⟩, by rintro a ⟨⟩⟩
  obtain ⟨hcounted, hsound⟩ := h.invariant (fun s => Counted s ∧ Sound s) ⟨hcounted, hsound⟩
    fun s a s' hs hon hstep =>
      ⟨(step_effect hon hstep).counted hs.1, (step_effect hon hstep).sound hs.2⟩
  refine ⟨fun a hmem => ?_, hcounted.lookups, hcounted.expiries⟩
  obtain ⟨r, hr, hkey, haddresses, hlt⟩ := hsound.answers a hmem
  refine ⟨r, hr, hkey, haddresses, ?_⟩
  unfold exactAfter at hlt
  omega

/-- The host `h` at port 80. -/
def exampleKey : CacheKey := { host := [104], port := 80, family := .unspecified, kind := .stream }

/-- A cache with room for one entry, which lives one millisecond. -/
def exampleCache : DnsCache Nat := { cache := { capacity := 1 }, ttl := 1, now := 0 }

/-- A resolution is stored, and answers a second call. -/
theorem answers_fresh_hit :
    ∃ s, Reach step (fun s a => onTime s a = true) exampleCache s ∧ s.hits = 1 ∧ Fresh s := by
  have hrun : (run step onTime
      [.invoke exampleKey, .lookup 0, .start 0, .finish 0 (.ok 7), .store 0, .tick 500000,
        .invoke exampleKey, .lookup 1] exampleCache).any (fun s => s.hits == 1) = true := by
    decide
  obtain ⟨s, hreach, hs⟩ := Reach.exists_of_run (fun _ _ h => h) hrun
  rw [beq_iff_eq] at hs
  exact ⟨s, hreach, hs, answers_fresh 1 1 true true 0 exampleCache s rfl hreach⟩

/-- **A slow resolution**: it takes a second, and is answered from the cache half a millisecond
after. -/
theorem not_answers_fresh :
    ¬ ∀ (ttl : Int64) (capacity : Nat) (resolver timeSource : Bool) (now : Int64)
      (created s : DnsCache Nat), create Nat ttl capacity resolver timeSource now = .ok created →
      Reach step (fun _ _ => True) created s → Fresh s := by
  intro hclaim
  have hrun : (run step (fun _ _ => true)
      [.invoke exampleKey, .lookup 0, .start 0, .finish 0 (.ok 7), .tick 1000000000, .store 0,
        .tick 1000500000, .invoke exampleKey, .lookup 1] exampleCache).any
      (fun s => (s.ttl == 1 && s.answers.any (·.time == 1000500000)) &&
        s.resolutions.all (·.started == 0)) = true := by
    decide
  obtain ⟨s, hreach, hs⟩ := Reach.exists_of_run (fun _ _ _ => trivial) hrun
  rw [Bool.and_eq_true, Bool.and_eq_true, beq_iff_eq, List.any_eq_true, List.all_eq_true] at hs
  obtain ⟨⟨httl, a, hmem, htime⟩, hstarted⟩ := hs
  obtain ⟨r, hr, -, -, hlt⟩ := (hclaim 1 1 true true 0 exampleCache s rfl hreach).answers a hmem
  rw [httl, beq_iff_eq.mp htime, beq_iff_eq.mp (hstarted r hr)] at hlt
  revert hlt
  decide

end DnsCache

end Libca.Net
