import Libca.Common.Bytes
import Libca.Common.LastWins

/-!
# Messages by language and key

The process-wide registry of `i18n.hpp`: `init` registers tables and picks a language from the
environment, `set_lang` and `apply_lang_from_argv` switch it, `tr` looks a key up. A C string is the
bytes before its terminator; `none` is the null pointer.

* `State.init`, `State.setLang`, `State.applyLangFromArgv`, `State.tr`: the functions.
* `Tracks`: what the registry has to do with the tables given so far. `tracks_run`.
* `tr_run`: **after any calls a key has the value that was registered last for the current language,
  or else for the fallback language, or else itself; each index ascends; the current language is
  known, and `set_lang` changes it.**
-/

namespace Libca.I18n

open Common

/-- An `Entry`. -/
structure Entry where
  key : Bytes
  val : Bytes
  deriving DecidableEq

/-- A `LangTable`. -/
structure LangTable where
  lang : Bytes
  entries : List Entry

/-- A `TableSet`. -/
abbrev TableSet := List LangTable

/-- `kFallbackLang`. -/
def fallbackLang : Bytes := ascii "zh_CN"

/-- A `LangIndex`. -/
structure LangIndex where
  lang : Bytes
  entries : List Entry

/-- `lang_registry` and `current_lang`. -/
structure State where
  registry : List LangIndex := []
  currentLang : Bytes := fallbackLang

/-- `find_lang`. -/
def findLang (registry : List LangIndex) (lang : Bytes) : Option LangIndex :=
  registry.find? fun index => index.lang = lang

/-- `lookup_in`. -/
def lookupIn (index : LangIndex) (key : Bytes) : Option Entry :=
  searchKey Entry.key key index.entries

/-- The body of the loop over the tables: the entries go to the index of their language, or to a new
one. -/
def addTable (table : LangTable) : List LangIndex → List LangIndex
  | [] => [⟨table.lang, table.entries⟩]
  | index :: registry =>
    if index.lang = table.lang then ⟨index.lang, index.entries ++ table.entries⟩ :: registry
    else index :: addTable table registry

/-- The body of the loop over the registry. -/
def LangIndex.merge (index : LangIndex) : LangIndex :=
  ⟨index.lang, sortedLast Entry.key index.entries⟩

namespace State

/-- `lookup`, with the value of a key. -/
def lookup (s : State) (key : Bytes) : Bytes :=
  let hit := (findLang s.registry s.currentLang).bind fun index => lookupIn index key
  match hit with
  | some entry => entry.val
  | none =>
    if s.currentLang ≠ fallbackLang then
      match (findLang s.registry fallbackLang).bind fun fallback => lookupIn fallback key with
      | some entry => entry.val
      | none => key
    else key

/-- `initialized`. -/
def initialized (s : State) : Bool := !s.registry.isEmpty

/-- `set_lang`. -/
def setLang (s : State) (lang : Option Bytes) : State × Bool :=
  match lang with
  | none => (s, false)
  | some lang =>
    if lang = [] then (s, false)
    else if (findLang s.registry lang).isNone then (s, false)
    else ({ s with currentLang := lang }, true)

/-- The loop over the names of environment variables. -/
def selectLang (environment : Bytes → Option Bytes) (s : State) : List Bytes → State
  | [] => s
  | name :: names =>
    match environment name with
    | none => selectLang environment s names
    | some value =>
      if value = [] then selectLang environment s names
      else
        match s.setLang (some value) with
        | (s, true) => s
        | (s, false) => selectLang environment s names

/-- `init`. -/
def init (s : State) (sets : List TableSet) (environment : Bytes → Option Bytes)
    (envNames : List Bytes) : State :=
  let registry := sets.foldl (fun registry set =>
    set.foldl (fun registry table => addTable table registry) registry)
    s.registry
  selectLang environment { s with registry := registry.map LangIndex.merge } envNames

/-- `!lang.empty() && set_lang(lang.c_str())`. -/
def attemptLang (s : State) (lang : Bytes) : State × Bool :=
  if lang ≠ [] then s.setLang (some lang) else (s, false)

/-- The loop of `apply_lang_from_argv` over the arguments behind the program. -/
def applyLoop (s : State) : List Bytes → State × Bool
  | [] => (s, false)
  | arg :: args =>
    if arg = ascii "--lang" then
      match args with
      | [] => (s, false)
      | value :: rest =>
        match s.attemptLang value with
        | (s, true) => (s, true)
        | (s, false) => applyLoop s (value :: rest)
    else if arg.take (ascii "--lang=").length = ascii "--lang=" then
      match s.attemptLang (arg.drop (ascii "--lang=").length) with
      | (s, true) => (s, true)
      | (s, false) => applyLoop s args
    else applyLoop s args

/-- `apply_lang_from_argv`. -/
def applyLangFromArgv (s : State) (argv : List Bytes) : State × Bool := applyLoop s argv.tail

/-- `tr`. -/
def tr (s : State) (key : Bytes) : Bytes := s.lookup key

end State

/-! ## Runs -/

/-- The calls that change the state. -/
inductive Call where
  | init (sets : List TableSet) (environment : Bytes → Option Bytes) (envNames : List Bytes)
  | setLang (lang : Option Bytes)
  | applyLangFromArgv (argv : List Bytes)

/-- A call in a state. -/
def State.call (s : State) : Call → State
  | .init sets environment envNames => s.init sets environment envNames
  | .setLang lang => (s.setLang lang).1
  | .applyLangFromArgv argv => (s.applyLangFromArgv argv).1

/-- The state after calls from the start of the process. -/
def run (calls : List Call) : State := calls.foldl State.call {}

/-- The tables that a call registers, in order. -/
def Call.tables : Call → List LangTable
  | .init sets _ _ => sets.flatten
  | .setLang _ => []
  | .applyLangFromArgv _ => []

/-- The entries registered for a language, in order. -/
def entriesFor (tables : List LangTable) (lang : Bytes) : List Entry :=
  (tables.filter fun table => table.lang = lang).flatMap LangTable.entries

/-- The value registered last for a key in a language. -/
def registeredLast (calls : List Call) (lang key : Bytes) : Option Bytes :=
  (lastOf Entry.key key (entriesFor (calls.flatMap Call.tables) lang)).map Entry.val

/-- A language that was registered. -/
def Registered (calls : List Call) (lang : Bytes) : Prop :=
  ∃ table ∈ calls.flatMap Call.tables, table.lang = lang

/-- The entries that a registry has for a language. -/
def entriesOf (registry : List LangIndex) (lang : Bytes) : List Entry :=
  (findLang registry lang).elim [] LangIndex.entries

/-! ## The registry -/

variable {registry : List LangIndex} {table : LangTable} {lang key : Bytes}
    {tables : List LangTable}
  {s s' : State}

theorem findLang_cons (index : LangIndex) (registry : List LangIndex) (lang : Bytes) :
    findLang (index :: registry) lang = if index.lang = lang then some index
      else findLang registry lang := by
  unfold findLang
  rw [List.find?_cons]
  by_cases h : index.lang = lang
  · rw [decide_eq_true h, if_pos h]
  · rw [decide_eq_false h, if_neg h]

/-- A table is added behind what is there of its language. -/
theorem findLang_addTable (table : LangTable) (registry : List LangIndex) (lang : Bytes) :
    findLang (addTable table registry) lang =
      if table.lang = lang then some ⟨lang, entriesOf registry lang ++ table.entries⟩
      else findLang registry lang := by
  induction registry with
  | nil =>
    rw [addTable, findLang_cons]
    split_ifs with h
    · rw [← h]
      rfl
    · rfl
  | cons index registry ih =>
    rw [addTable]
    by_cases hindex : index.lang = table.lang
    · rw [if_pos hindex, findLang_cons, findLang_cons, ← hindex]
      split_ifs with h
      · rw [entriesOf, findLang_cons, if_pos h, ← h]
        rfl
      · rfl
    · rw [if_neg hindex, findLang_cons, findLang_cons, ih, entriesOf, entriesOf, findLang_cons]
      by_cases h : table.lang = lang
      · have hne : index.lang ≠ lang := fun heq => hindex (heq.trans h.symm)
        rw [if_pos h, if_pos h, if_neg hne, if_neg hne]
      · rw [if_neg h, if_neg h]

theorem entriesOf_addTable (table : LangTable) (registry : List LangIndex) (lang : Bytes) :
    entriesOf (addTable table registry) lang =
      entriesOf registry lang ++ if table.lang = lang then table.entries else [] := by
  rw [entriesOf, findLang_addTable]
  split_ifs with h
  · rfl
  · rw [List.append_nil]
    rfl

theorem isSome_findLang_addTable (table : LangTable) (registry : List LangIndex) (lang : Bytes) :
    (findLang (addTable table registry) lang).isSome ↔ (findLang registry lang).isSome ∨
      table.lang = lang := by
  rw [findLang_addTable]
  split_ifs with h
  · exact iff_of_true rfl (.inr h)
  · exact (or_iff_left h).symm

/-- The tables of one call. -/
theorem entriesOf_foldl (tables : List LangTable) (registry : List LangIndex) (lang : Bytes) :
    entriesOf (tables.foldl (fun registry table => addTable table registry) registry) lang =
      entriesOf registry lang ++ entriesFor tables lang := by
  induction tables generalizing registry with
  | nil => exact (List.append_nil _).symm
  | cons table tables ih =>
    rw [List.foldl_cons, ih, entriesOf_addTable, List.append_assoc]
    unfold entriesFor
    congr 1
    by_cases h : table.lang = lang
    · rw [if_pos h, List.filter_cons, if_pos (decide_eq_true h)]
      rfl
    · rw [if_neg h, List.filter_cons, if_neg (by simpa using h)]
      rfl

theorem isSome_findLang_foldl (tables : List LangTable) (registry : List LangIndex) (lang : Bytes) :
    (findLang (tables.foldl (fun registry table => addTable table registry) registry) lang).isSome ↔
      (findLang registry lang).isSome ∨ ∃ table ∈ tables, table.lang = lang := by
  induction tables generalizing registry with
  | nil => simp
  | cons table tables ih =>
    rw [List.foldl_cons, ih, isSome_findLang_addTable, List.exists_mem_cons_iff, or_assoc]

theorem findLang_merge (registry : List LangIndex) (lang : Bytes) :
    findLang (registry.map LangIndex.merge) lang =
      (findLang registry lang).map LangIndex.merge := by
  unfold findLang
  rw [List.find?_map]
  rfl

/-- Merging keeps what was registered last. -/
theorem lastOf_entriesOf_merge (registry : List LangIndex) (lang key : Bytes) :
    lastOf Entry.key key (entriesOf (registry.map LangIndex.merge) lang) =
      lastOf Entry.key key (entriesOf registry lang) := by
  unfold entriesOf
  rw [findLang_merge]
  cases findLang registry lang with
  | none => rfl
  | some index => exact lastOf_sortedLast Entry.key key index.entries

/-! ## The language -/

/-- The registry is the same, and a language that changed is in it. -/
def Selects (s s' : State) : Prop :=
  s'.registry = s.registry ∧
    (s'.currentLang = s.currentLang ∨ (findLang s.registry s'.currentLang).isSome)

theorem Selects.refl (s : State) : Selects s s := ⟨rfl, .inl rfl⟩

theorem Selects.trans {s s' s'' : State} (h : Selects s s') (h' : Selects s' s'') :
    Selects s s'' := by
  obtain ⟨hregistry, hlang⟩ := h
  obtain ⟨hregistry', hlang'⟩ := h'
  refine ⟨hregistry'.trans hregistry, ?_⟩
  rw [hregistry] at hlang'
  rcases hlang' with heq | hfound
  · rw [heq]
    exact hlang
  · exact .inr hfound

theorem selects_setLang (s : State) (lang : Option Bytes) : Selects s (s.setLang lang).1 := by
  cases lang with
  | none => exact .refl s
  | some lang =>
    unfold State.setLang
    dsimp only
    split_ifs with hempty hfound
    · exact .refl s
    · exact .refl s
    · refine ⟨rfl, .inr ?_⟩
      rwa [Option.isSome_iff_ne_none, ne_eq, ← Option.isNone_iff_eq_none]

theorem selects_selectLang (environment : Bytes → Option Bytes) (s : State) (names : List Bytes) :
    Selects s (s.selectLang environment names) := by
  induction names generalizing s with
  | nil => exact .refl s
  | cons name names ih =>
    rw [State.selectLang]
    cases environment name with
    | none => exact ih s
    | some value =>
      dsimp only
      split_ifs with hempty
      · exact ih s
      · have hset := selects_setLang s (some value)
        generalize s.setLang (some value) = result at hset ⊢
        rcases result with ⟨s', _ | _⟩
        · exact hset.trans (ih s')
        · exact hset

theorem selects_attemptLang (s : State) (lang : Bytes) : Selects s (s.attemptLang lang).1 := by
  unfold State.attemptLang
  split_ifs
  · exact selects_setLang s _
  · exact .refl s

theorem selects_applyLoop (s : State) (args : List Bytes) : Selects s (s.applyLoop args).1 := by
  induction args generalizing s with
  | nil => exact .refl s
  | cons arg args ih =>
    unfold State.applyLoop
    split_ifs with hflag hinline
    · cases args with
      | nil => exact .refl s
      | cons value rest =>
        have hset := selects_attemptLang s value
        dsimp only
        generalize s.attemptLang value = result at hset ⊢
        rcases result with ⟨s', _ | _⟩
        · exact hset.trans (ih s')
        · exact hset
    · have hset := selects_attemptLang s (arg.drop (ascii "--lang=").length)
      generalize s.attemptLang (arg.drop (ascii "--lang=").length) = result at hset ⊢
      rcases result with ⟨s', _ | _⟩
      · exact hset.trans (ih s')
      · exact hset
    · exact ih s

/-! ## The invariant -/

/-- A state has the entries of the tables, and a language of theirs or the fallback. -/
structure Tracks (tables : List LangTable) (s : State) : Prop where
  last : ∀ lang key, lastOf Entry.key key (entriesOf s.registry lang) =
    lastOf Entry.key key (entriesFor tables lang)
  ascending : ∀ index ∈ s.registry, index.entries.Pairwise fun x y => x.key < y.key
  known : ∀ lang, (findLang s.registry lang).isSome ↔ ∃ table ∈ tables, table.lang = lang
  current : s.currentLang = fallbackLang ∨ ∃ table ∈ tables, table.lang = s.currentLang

theorem tracks_start : Tracks [] {} where
  last _ _ := rfl
  ascending _ h := nomatch h
  known _ := by simp [findLang]
  current := .inl rfl

namespace Tracks

theorem selects (h : Tracks tables s) (hs : Selects s s') : Tracks tables s' := by
  obtain ⟨hregistry, hlang⟩ := hs
  refine ⟨?_, ?_, ?_, ?_⟩
  · rw [hregistry]
    exact h.last
  · rw [hregistry]
    exact h.ascending
  · rw [hregistry]
    exact h.known
  · rcases hlang with heq | hfound
    · rw [heq]
      exact h.current
    · exact .inr ((h.known _).mp hfound)

/-- The two loops of `init`. -/
theorem register (h : Tracks tables s) (new : List LangTable) :
    Tracks (tables ++ new)
      { s with registry :=
        (new.foldl (fun registry table => addTable table registry) s.registry).map .merge } where
  last lang key := by
    rw [lastOf_entriesOf_merge, entriesOf_foldl, lastOf_append, h.last lang key, ← lastOf_append]
    unfold entriesFor
    rw [List.filter_append, List.flatMap_append]
  ascending index hindex := by
    obtain ⟨old, -, rfl⟩ := List.mem_map.mp hindex
    exact pairwise_sortedLast Entry.key old.entries
  known lang := by
    rw [findLang_merge, Option.isSome_map, isSome_findLang_foldl, h.known lang]
    simp only [List.mem_append, or_and_right, exists_or]
  current := by
    rcases h.current with heq | ⟨table, hmem, heq⟩
    · exact .inl heq
    · exact .inr ⟨table, List.mem_append_left new hmem, heq⟩

/-- **A call registers its tables.** -/
theorem call (h : Tracks tables s) (call : Call) : Tracks (tables ++ call.tables)
    (s.call call) := by
  cases call with
  | init sets environment envNames =>
    have hregistered := h.register sets.flatten
    rw [List.foldl_flatten] at hregistered
    exact hregistered.selects (selects_selectLang environment _ envNames)
  | setLang lang =>
    rw [Call.tables, List.append_nil]
    exact h.selects (selects_setLang s lang)
  | applyLangFromArgv argv =>
    rw [Call.tables, List.append_nil]
    exact h.selects (selects_applyLoop s argv.tail)

end Tracks

theorem tracks_run (calls : List Call) : Tracks (calls.flatMap Call.tables) (run calls) := by
  suffices ∀ tables s, Tracks tables s → Tracks (tables ++ calls.flatMap Call.tables)
    (calls.foldl State.call s) from
    this [] {} tracks_start
  induction calls with
  | nil =>
    intro tables s h
    rw [List.flatMap_nil, List.append_nil]
    exact h
  | cons call calls ih =>
    intro tables s h
    rw [List.flatMap_cons, ← List.append_assoc]
    exact ih _ _ (h.call call)

/-! ## Lookups -/

/-- What a lookup in the index of a language finds. -/
theorem find_of_tracks (h : Tracks tables s) (lang key : Bytes) :
    ((findLang s.registry lang).bind fun index => lookupIn index key) =
      lastOf Entry.key key (entriesFor tables lang) := by
  rw [← h.last lang key, entriesOf]
  cases hfound : findLang s.registry lang with
  | none => rfl
  | some index => exact searchKey_eq (h.ascending index (List.mem_of_find?_eq_some hfound)) key

theorem tr_of_tracks (h : Tracks tables s) (key : Bytes) :
    s.tr key = (((lastOf Entry.key key (entriesFor tables s.currentLang)).map Entry.val).or
      ((lastOf Entry.key key (entriesFor tables fallbackLang)).map Entry.val)).getD key := by
  unfold State.tr State.lookup
  rw [find_of_tracks h, find_of_tracks h]
  cases hhit : lastOf Entry.key key (entriesFor tables s.currentLang) with
  | some entry => rfl
  | none =>
    dsimp only
    split_ifs with hlang
    · cases lastOf Entry.key key (entriesFor tables fallbackLang) <;> rfl
    · rw [not_not] at hlang
      rw [← hlang, hhit]
      rfl

/-- `set_lang` takes the languages that were registered. -/
theorem setLang_of_tracks (h : Tracks tables s) (lang : Bytes) :
    ((s.setLang (some lang)).2 = true ↔ lang ≠ [] ∧ ∃ table ∈ tables, table.lang = lang) ∧
      (s.setLang (some lang)).1.currentLang =
        if (s.setLang (some lang)).2 then lang else s.currentLang := by
  rw [← h.known lang, State.setLang]
  by_cases hempty : lang = []
  · rw [if_pos hempty]
    exact ⟨iff_of_false Bool.false_ne_true fun hset => hset.1 hempty, rfl⟩
  · rw [if_neg hempty]
    cases hfound : findLang s.registry lang with
    | none => exact ⟨iff_of_false Bool.false_ne_true fun hset => Bool.false_ne_true hset.2, rfl⟩
    | some index => exact ⟨iff_of_true rfl ⟨hempty, rfl⟩, rfl⟩

/-- **After any calls a key has the value registered last for the current language, or else for the
fallback language, or else itself; the indexes ascend; the current language is the fallback or was
registered; and `set_lang` makes a language that was registered the current one, and no other.** -/
theorem tr_run (calls : List Call) :
    (∀ key, (run calls).tr key =
      ((registeredLast calls (run calls).currentLang key).or
      (registeredLast calls fallbackLang key)).getD key) ∧
    (∀ index ∈ (run calls).registry, index.entries.Pairwise fun x y => x.key < y.key) ∧
    ((run calls).currentLang = fallbackLang ∨ Registered calls (run calls).currentLang) ∧
    ∀ lang, (((run calls).setLang (some lang)).2 = true ↔ lang ≠ [] ∧ Registered calls lang) ∧
      ((run calls).setLang (some lang)).1.currentLang =
        if ((run calls).setLang (some lang)).2 then lang else (run calls).currentLang := by
  have htracks := tracks_run calls
  exact ⟨fun key => tr_of_tracks htracks key, htracks.ascending, htracks.current,
    fun lang => setLang_of_tracks htracks lang⟩

end Libca.I18n
