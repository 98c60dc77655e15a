import Libca.Opt.Occurrences

/-!
# Command line, initial values and defaults (`opt/opt.cpp`)

* `Law`: what a result holds of a name, from its occurrences, its declarations, and the declarations
  as a list that were seeded before it occurred.
* `parse_law`: **every parse that succeeds has the law of every name.** `not_seededOnce`: an initial
  list is in the result once for each of two commands.
-/

namespace Libca.Opt

open Common

/-! ## Occurrences and declarations of a name -/

/-- An event is an occurrence of a name. -/
def Event.isOf (n : Bytes) : Event → Bool
  | .occur arg _ => arg.name = n
  | _ => false

/-- The occurrences of a name, in order. -/
def occurrencesOf (n : Bytes) (es : List Event) : List (Arg × Bytes) := es.filterMap fun
  | .occur arg value => if arg.name = n then some (arg, value) else none
  | _ => none

/-- A declaration of a name for an option that takes a value. -/
def declares (n : Bytes) (arg : Arg) : Bool := arg.name = n ∧ arg.kind.takesValue

/-- The declarations of a name by the commands that are entered. -/
def declarations (n : Bytes) (es : List Event) : List Arg :=
  (entered es).flatMap fun cmd => cmd.args.filter (declares n)

/-- How many of the declarations before the first occurrence are of a list. -/
def seedings (n : Bytes) (es : List Event) : Nat :=
  (declarations n (es.takeWhile fun e => !e.isOf n)).countP (·.kind = .stringList)

/-- The pieces of the initial value. -/
def initialPieces (initials : AList fun _ : Bytes => Bytes) (n : Bytes) : List Bytes :=
  match initials.lookup n with
  | some init => splitComma init
  | none => []

/-- The pieces of the occurrences of a list. -/
def occurredPieces (occurrences : List (Arg × Bytes)) : List Bytes :=
  (occurrences.filter (·.1.kind = .stringList)).flatMap fun o => splitComma o.2

theorem occurredPieces_append (os os' : List (Arg × Bytes)) :
    occurredPieces (os ++ os') = occurredPieces os ++ occurredPieces os' := by
  rw [occurredPieces, List.filter_append, List.flatMap_append]
  rfl

/-- The list that is stored. -/
def ParseResult.getList (result : ParseResult) (n : Bytes) : List Bytes :=
  (result.lists.lookup n).getD []

/-- What a result holds of a name: its last occurrence, or the initial value, or a default, or
nothing. -/
structure Law (initials : AList fun _ : Bytes => Bytes) (n : Bytes)
    (occurrences : List (Arg × Bytes))
    (decls : List Arg) (seeded : Nat) (result : ParseResult) : Prop where
  occurred : ∀ o ∈ occurrences.getLast?, result.values.lookup n = some o.2 ∧ result.sourceOf n =
    .commandLine
  initial : occurrences = [] → decls ≠ [] → ∀ init ∈ initials.lookup n,
    result.values.lookup n = some init ∧ result.sourceOf n = .initial
  default : occurrences = [] → initials.lookup n = none → (∃ arg ∈ decls, arg.defaultValue ≠ []) →
    ∃ arg ∈ decls, arg.defaultValue ≠ [] ∧ result.values.lookup n = some arg.defaultValue ∧
      result.sourceOf n = .default
  absent : occurrences = [] → (initials.lookup n = none ∨ decls = []) →
    (∀ arg ∈ decls, arg.defaultValue = []) →
    result.values.lookup n = none ∧ result.sourceOf n = .none
  list : result.getList n =
    (List.replicate seeded (initialPieces initials n)).flatten ++ occurredPieces occurrences

/-! ## Results -/

variable {initials : AList fun _ : Bytes => Bytes} {n : Bytes} {occurrences : List (Arg × Bytes)}
    {decls : List Arg}
  {seeded : Nat} {result result' : ParseResult} {arg : Arg}

/-- Two results hold the same of a name. -/
structure AgreeOn (n : Bytes) (result result' : ParseResult) : Prop where
  value : result'.values.lookup n = result.values.lookup n
  source : result'.sourceOf n = result.sourceOf n
  list : result'.getList n = result.getList n

theorem put_value (result : ParseResult) (n value : Bytes) (source : ValueSource) :
    (result.put n value source).values.lookup n = some value ∧
      (result.put n value source).sourceOf n = source := by
  refine ⟨AList.lookup_insert _, ?_⟩
  change ((result.sources.insert n source).lookup n).getD .none = source
  rw [AList.lookup_insert]
  rfl

theorem agreeOn_put (result : ParseResult) {name : Bytes} (hne : n ≠ name) (value : Bytes)
    (source : ValueSource) :
    AgreeOn n result (result.put name value source) where
  value := AList.lookup_insert_ne hne
  source := by
    change ((result.sources.insert name source).lookup n).getD .none = _
    rw [AList.lookup_insert_ne hne]
    rfl
  list := rfl

theorem agreeOn_append (result : ParseResult) {name : Bytes} (hne : n ≠ name)
    (pieces : List Bytes) :
    AgreeOn n result (result.append name pieces) where
  value := rfl
  source := rfl
  list := by
    change ((result.lists.insert name _).lookup n).getD [] = _
    rw [AList.lookup_insert_ne hne]
    rfl

theorem AgreeOn.trans {result'' : ParseResult} (h : AgreeOn n result result')
    (h' : AgreeOn n result' result'') :
    AgreeOn n result result'' where
  value := h'.value.trans h.value
  source := h'.source.trans h.source
  list := h'.list.trans h.list

theorem getList_append (result : ParseResult) (n : Bytes) (pieces : List Bytes) :
    (result.append n pieces).getList n = result.getList n ++ pieces := by
  change ((result.lists.insert n _).lookup n).getD [] = _
  rw [AList.lookup_insert]
  rfl

theorem Law.congr (h : Law initials n occurrences decls seeded result)
    (hagree : AgreeOn n result result') :
    Law initials n occurrences decls seeded result' where
  occurred o ho := by
    rw [hagree.value, hagree.source]
    exact h.occurred o ho
  initial hnone hdecls init hinit := by
    rw [hagree.value, hagree.source]
    exact h.initial hnone hdecls init hinit
  default hnone hinit hdefault := by
    rw [hagree.value, hagree.source]
    exact h.default hnone hinit hdefault
  absent hnone hinit hdefault := by
    rw [hagree.value, hagree.source]
    exact h.absent hnone hinit hdefault
  list := hagree.list.trans h.list

/-- The source of a name is the command line only when it occurred. -/
theorem Law.source_iff (h : Law initials n occurrences decls seeded result) :
    result.sourceOf n = .commandLine ↔ occurrences ≠ [] := by
  constructor
  · intro hsource hnone
    by_cases hdefault : ∃ arg ∈ decls, arg.defaultValue ≠ []
    · obtain ⟨arg, harg, -⟩ := id hdefault
      cases hinit : initials.lookup n with
      | some init =>
        have hinitial := (h.initial hnone (List.ne_nil_of_mem harg) init hinit).2
        rw [hsource] at hinitial
        cases hinitial
      | none =>
        obtain ⟨_, _, _, _, hdef⟩ := h.default hnone hinit hdefault
        rw [hsource] at hdef
        cases hdef
    · push Not at hdefault
      by_cases hcase : initials.lookup n = none ∨ decls = []
      · have habsent := (h.absent hnone hcase hdefault).2
        rw [hsource] at habsent
        cases habsent
      · push Not at hcase
        obtain ⟨init, hinit⟩ := Option.ne_none_iff_exists'.mp hcase.1
        have hinitial := (h.initial hnone hcase.2 init hinit).2
        rw [hsource] at hinitial
        cases hinitial
  · intro hne
    have hlast := List.getLast?_eq_some_getLast hne
    exact (h.occurred _ hlast).2

/-! ## One step -/

/-- An occurrence. -/
theorem Law.occur (h : Law initials n occurrences decls seeded result) (arg : Arg) (value : Bytes) :
    Law initials n (occurrences ++ if arg.name = n then [(arg, value)] else []) decls seeded
      (result.occur arg value) := by
  unfold ParseResult.occur
  by_cases hname : arg.name = n
  · rw [if_pos hname, hname]
    have hput := put_value (if arg.kind = .stringList then
      result.append n (splitComma value) else result) n value
      .commandLine
    refine ⟨fun o ho => ?_, fun hnil => ?_, fun hnil => ?_, fun hnil => ?_, ?_⟩
    · rw [List.getLast?_concat] at ho
      cases ho
      exact hput
    · exact absurd hnil (List.append_ne_nil_of_right_ne_nil _ (List.cons_ne_nil _ _))
    · exact absurd hnil (List.append_ne_nil_of_right_ne_nil _ (List.cons_ne_nil _ _))
    · exact absurd hnil (List.append_ne_nil_of_right_ne_nil _ (List.cons_ne_nil _ _))
    · change (if arg.kind = .stringList then result.append n (splitComma value) else result).getList
        n = _
      rw [occurredPieces_append, ← List.append_assoc, ← h.list]
      by_cases hkind : arg.kind = .stringList
      · rw [if_pos hkind, getList_append]
        simp [occurredPieces, hkind]
      · rw [if_neg hkind]
        simp [occurredPieces, hkind]
  · rw [if_neg hname, List.append_nil]
    refine h.congr ?_
    split_ifs
    · exact (agreeOn_append result (Ne.symm hname) _).trans (agreeOn_put _ (Ne.symm hname) _ _)
    · exact agreeOn_put result (Ne.symm hname) _ _

/-- What a declaration leaves where it does not fail. -/
def seedOf (initials : AList fun _ : Bytes => Bytes) (result : ParseResult) (arg : Arg) :
    ParseResult :=
  if ¬ arg.kind.takesValue ∨ result.sourceOf arg.name = .commandLine then result
  else
    match initials.lookup arg.name with
    | some init =>
      (if arg.kind = .stringList then result.append arg.name (splitComma init) else result).put
        arg.name init .initial
    | none => if arg.defaultValue ≠ [] then result.put arg.name arg.defaultValue .default
    else result

theorem seedOptionValue_ok (h : seedOptionValue initials result arg = .ok result') :
    result' = seedOf initials result arg := by
  unfold seedOptionValue at h
  unfold seedOf
  by_cases hkind : ¬ arg.kind.takesValue
  · rw [if_pos hkind] at h
    rw [if_pos (.inl hkind)]
    exact (Except.ok.inj h).symm
  rw [if_neg hkind] at h
  by_cases hsource : result.sourceOf arg.name = .commandLine
  · rw [if_pos hsource] at h
    rw [if_pos (.inr hsource)]
    exact (Except.ok.inj h).symm
  rw [if_neg hsource] at h
  rw [if_neg (not_or.mpr ⟨hkind, hsource⟩)]
  cases hinit : initials.lookup arg.name with
  | some init =>
    rw [hinit] at h
    dsimp only at h ⊢
    split at h
    · cases h
    · split at h
      · rename_i hint
        split at h
        · cases h
        · rw [if_neg (by rw [hint]; exact nofun)]
          exact (Except.ok.inj h).symm
      · rename_i hlist
        rw [if_pos hlist]
        exact (Except.ok.inj h).symm
      · rename_i hlist
        rw [if_neg hlist]
        exact (Except.ok.inj h).symm
  | none =>
    rw [hinit] at h
    dsimp only at h ⊢
    by_cases hdefault : arg.defaultValue ≠ []
    · rw [if_pos hdefault] at h ⊢
      exact (Except.ok.inj h).symm
    · rw [if_neg hdefault] at h ⊢
      exact (Except.ok.inj h).symm

/-- The declarations that are added, as far as they seed a list. -/
def newSeeds (occurrences : List (Arg × Bytes)) (decls : List Arg) : Nat :=
  if occurrences = [] then decls.countP (·.kind = .stringList) else 0

/-- A declaration of the name that seeds it. -/
theorem Law.seed_declared (h : Law initials n [] decls seeded result) (hname : arg.name = n)
    (hkind : arg.kind.takesValue = true) :
    Law initials n [] (decls ++ [arg]) (seeded + [arg].countP (·.kind = .stringList))
      (seedOf initials result arg) := by
  have hsource : ¬ (¬ arg.kind.takesValue ∨ result.sourceOf arg.name = .commandLine) := by
    rw [hname, h.source_iff]
    exact fun hor => hor.elim (fun hk => hk hkind) fun hne => hne rfl
  rw [seedOf, if_neg hsource, hname]
  cases hinit : initials.lookup n with
  | some init =>
    have hpieces : initialPieces initials n = splitComma init := by rw [initialPieces, hinit]
    dsimp only
    have hput := put_value (if arg.kind = .stringList then
      result.append n (splitComma init) else result) n init
      .initial
    refine ⟨nofun, fun _ _ init' hinit' => ?_, fun _ hnone => ?_, fun _ hor => ?_, ?_⟩
    · rw [hinit] at hinit'
      cases hinit'
      exact hput
    · rw [hinit] at hnone
      cases hnone
    · rcases hor with hnone | hnil
      · rw [hinit] at hnone
        cases hnone
      · exact absurd hnil (List.append_ne_nil_of_right_ne_nil _ (List.cons_ne_nil _ _))
    · change (if arg.kind = .stringList then result.append n (splitComma init) else result).getList
        n = _
      have hlist : result.getList n =
        (List.replicate seeded (initialPieces initials n)).flatten := by
        rw [h.list]
        exact List.append_nil _
      by_cases hk : arg.kind = .stringList
      · rw [if_pos hk, getList_append, hlist, ← hpieces]
        simp [hk, occurredPieces, List.replicate_succ', List.flatten_append]
      · rw [if_neg hk, hlist]
        simp [hk, occurredPieces]
  | none =>
    have hpieces : initialPieces initials n = [] := by rw [initialPieces, hinit]
    have hlist (r : ParseResult) (hr : r.getList n = result.getList n) : r.getList n =
        (List.replicate (seeded + [arg].countP (·.kind = .stringList))
          (initialPieces initials n)).flatten ++
          occurredPieces [] := by
      rw [hr, h.list, hpieces]
      simp
    dsimp only
    by_cases hdefault : arg.defaultValue ≠ []
    · rw [if_pos hdefault]
      have hput := put_value result n arg.defaultValue .default
      refine ⟨nofun, fun _ _ init hsome => ?_, fun _ _ _ => ?_, fun _ _ hall => ?_, hlist _ rfl⟩
      · rw [hinit] at hsome
        cases hsome
      · exact ⟨arg, List.mem_append_right _ (.head _), hdefault, hput⟩
      · exact absurd (hall arg (List.mem_append_right _ (.head _))) hdefault
    · rw [if_neg hdefault]
      refine ⟨nofun, fun _ _ init hsome => ?_, fun _ hnone hex => ?_, fun _ _ hall => ?_,
        hlist _ rfl⟩
      · rw [hinit] at hsome
        cases hsome
      · obtain ⟨arg', harg', hne⟩ := hex
        have hmem : arg' ∈ decls := by
          rcases List.mem_append.mp harg' with hmem | hmem
          · exact hmem
          · rw [List.mem_singleton.mp hmem] at hne
            exact absurd hne hdefault
        obtain ⟨found, hfound, hrest⟩ := h.default rfl hnone ⟨arg', hmem, hne⟩
        exact ⟨found, List.mem_append_left _ hfound, hrest⟩
      · exact h.absent rfl (.inl hinit) fun arg' harg' => hall arg' (List.mem_append_left _ harg')

/-- A declaration of an option. -/
theorem Law.seed (h : Law initials n occurrences decls seeded result) (arg : Arg) :
    Law initials n occurrences (decls ++ [arg].filter (declares n))
      (seeded + newSeeds occurrences ([arg].filter (declares n))) (seedOf initials result arg) := by
  by_cases hdeclares : declares n arg = true
  · obtain ⟨hname, hkind⟩ := of_decide_eq_true hdeclares
    rw [List.filter_cons_of_pos hdeclares, List.filter_nil]
    by_cases hnone : occurrences = []
    · subst hnone
      exact h.seed_declared hname hkind
    · have hsource := h.source_iff.mpr hnone
      rw [seedOf, hname, if_pos (.inr hsource), newSeeds, if_neg hnone, Nat.add_zero]
      exact ⟨h.occurred, fun hnil => absurd hnil hnone, fun hnil => absurd hnil hnone,
        fun hnil => absurd hnil hnone, h.list⟩
  · have hzero : newSeeds occurrences [] = 0 := by
      unfold newSeeds
      split_ifs <;> rfl
    rw [List.filter_cons_of_neg hdeclares, List.filter_nil, List.append_nil, hzero, Nat.add_zero]
    by_cases hname : arg.name = n
    · have hkind : ¬ arg.kind.takesValue := fun hkind => hdeclares (decide_eq_true ⟨hname, hkind⟩)
      rw [seedOf, if_pos (.inl hkind)]
      exact h
    · refine h.congr ?_
      by_cases hkeep : ¬ arg.kind.takesValue ∨ result.sourceOf arg.name = .commandLine
      · rw [seedOf, if_pos hkeep]
        exact ⟨rfl, rfl, rfl⟩
      · rw [seedOf, if_neg hkeep]
        cases initials.lookup arg.name with
        | some init =>
          dsimp only
          split_ifs
          · exact (agreeOn_append result (Ne.symm hname) _).trans
              (agreeOn_put _ (Ne.symm hname) _ _)
          · exact agreeOn_put result (Ne.symm hname) _ _
        | none =>
          dsimp only
          split_ifs
          · exact agreeOn_put result (Ne.symm hname) _ _
          · exact ⟨rfl, rfl, rfl⟩

/-- The options of a command. -/
theorem Law.seedAll (args : List Arg) (h : Law initials n occurrences decls seeded result)
    (hseed : args.foldlM (seedOptionValue initials) result = .ok result') :
    Law initials n occurrences (decls ++ args.filter (declares n))
      (seeded + newSeeds occurrences (args.filter (declares n))) result' := by
  induction args generalizing decls seeded result with
  | nil =>
    cases hseed
    have hzero : newSeeds occurrences [] = 0 := by
      unfold newSeeds
      split_ifs <;> rfl
    rw [List.filter_nil, List.append_nil, hzero]
    exact h
  | cons arg args ih =>
    rw [List.foldlM_cons] at hseed
    rcases hone : seedOptionValue initials result arg with e | r
    · rw [hone] at hseed
      cases hseed
    · rw [hone] at hseed
      have hr := seedOptionValue_ok hone
      subst hr
      have hnext := ih (h.seed arg) hseed
      have hadd : newSeeds occurrences ([arg].filter (declares n)) + newSeeds occurrences
        (args.filter (declares n)) = newSeeds occurrences ((arg :: args).filter (declares n)) := by
        rw [show arg :: args = [arg] ++ args from rfl, List.filter_append]
        unfold newSeeds
        split_ifs
        · rw [List.countP_append]
        · rfl
      rw [List.append_assoc, ← List.filter_append, Nat.add_assoc, hadd] at hnext
      exact hnext

/-! ## Runs -/

/-- The declarations before the first occurrence, when the name occurred or did not. -/
def laterSeeds (n : Bytes) (occurrences : List (Arg × Bytes)) (es : List Event) : Nat :=
  if occurrences = [] then seedings n es else 0

/-- Every run. -/
theorem Law.replays (es : List Event) (h : Law initials n occurrences decls seeded result)
    (hrun : Replays initials result es result') :
    Law initials n (occurrences ++ occurrencesOf n es) (decls ++ declarations n es)
      (seeded + laterSeeds n occurrences es) result' := by
  induction es generalizing occurrences decls seeded result with
  | nil =>
    cases hrun
    have hzero : laterSeeds n occurrences [] = 0 := by
      unfold laterSeeds
      split_ifs <;> rfl
    rw [hzero]
    change Law initials n (occurrences ++ []) (decls ++ []) seeded _
    rw [List.append_nil, List.append_nil]
    exact h
  | cons e es ih =>
    unfold Replays at hrun
    rw [List.foldlM_cons] at hrun
    cases e with
    | enter cmd =>
      rcases hseed : seedOptionValues cmd initials result with err | r
      · rw [Event.apply, hseed] at hrun
        cases hrun
      · rw [Event.apply, hseed] at hrun
        have hnext := ih (h.seedAll cmd.args hseed) hrun
        have hdecls : declarations n (.enter cmd :: es) = cmd.args.filter (declares n) ++
          declarations n es := rfl
        have hseeds : newSeeds occurrences (cmd.args.filter (declares n)) +
          laterSeeds n occurrences es = laterSeeds n occurrences (.enter cmd :: es) := by
          unfold newSeeds laterSeeds
          split_ifs
          · exact (List.countP_append ..).symm
          · rfl
        rw [List.append_assoc, Nat.add_assoc, hseeds, ← hdecls] at hnext
        exact hnext
    | occur arg value =>
      have hnext := ih (h.occur arg value) hrun
      by_cases hname : arg.name = n
      · have hof : occurrencesOf n (.occur arg value :: es) = (arg, value) :: occurrencesOf n es :=
          List.filterMap_cons_some (if_pos hname)
        have hseeds : laterSeeds n occurrences (.occur arg value :: es) = 0 := by
          unfold laterSeeds seedings
          rw [List.takeWhile_cons_of_neg (by simp [Event.isOf, hname])]
          split_ifs <;> rfl
        have hmore : laterSeeds n (occurrences ++ [(arg, value)]) es = 0 :=
          if_neg (List.append_ne_nil_of_right_ne_nil _ (List.cons_ne_nil _ _))
        rw [if_pos hname, hmore, List.append_assoc] at hnext
        rw [hof, hseeds]
        exact hnext
      · have hof : occurrencesOf n (.occur arg value :: es) = occurrencesOf n es :=
          List.filterMap_cons_none (if_neg hname)
        have hseeds : laterSeeds n occurrences (.occur arg value :: es) =
          laterSeeds n occurrences es := by
          unfold laterSeeds seedings
          rw [List.takeWhile_cons_of_pos (by simp [Event.isOf, hname])]
          rfl
        rw [if_neg hname, List.append_nil] at hnext
        rw [hof, hseeds]
        exact hnext
    | positional token =>
      have hagree : AgreeOn n result { result with positionals := result.positionals ++ [token] } :=
        ⟨rfl, rfl, rfl⟩
      exact ih (h.congr hagree) hrun

theorem law_empty (initials : AList fun _ : Bytes => Bytes) (n : Bytes) :
    Law initials n [] [] 0 {} where
  occurred := nofun
  initial _ hne := absurd rfl hne
  default _ _ h := by
    obtain ⟨_, harg, -⟩ := h
    cases harg
  absent _ _ _ := ⟨rfl, rfl⟩
  list := rfl

/-- **Every parse that succeeds has, of every name, its last occurrence, or its initial value, or a
default that a command which is entered declares, or nothing.** A list has the initial pieces for
every declaration of a list before the first occurrence, and then those of each occurrence. -/
theorem parse_law {p : Setup} {argv : List Bytes} {result : ParseResult}
    (h : parse p argv = .ok result) :
    result.subcommandPath = ((entered (commandLine p.root argv)).drop 1).map (·.name) ∧
      ∀ n, Law p.initials n (occurrencesOf n (commandLine p.root argv))
        (declarations n (commandLine p.root argv))
        (seedings n (commandLine p.root argv)) result := by
  obtain ⟨r, hreplays, hresult⟩ := parse_replays h
  subst hresult
  refine ⟨rfl, fun n => ?_⟩
  have hlaw := (law_empty p.initials n).replays (commandLine p.root argv) hreplays
  rw [laterSeeds, if_pos rfl, Nat.zero_add] at hlaw
  exact hlaw.congr ⟨rfl, rfl, rfl⟩

/-- A command with a list, and a subcommand with the same list. -/
def tagsArg : Arg := { name := ascii "tags", kind := .stringList }

def tagsSetup : Setup where
  root := { name := ascii "app", args := [tagsArg], subcommands :=
    [{ name := ascii "run", args := [tagsArg] }] }
  initials := AList.insert (ascii "tags") (ascii "a,b") ∅

theorem parse_law_tags : ∃ result, parse tagsSetup [ascii "run", ascii "--tags=c"] = .ok result ∧
    Law tagsSetup.initials (ascii "tags") [(tagsArg, ascii "c")] [tagsArg, tagsArg] 2 result :=
  ⟨_, rfl, (parse_law (show parse tagsSetup [ascii "run", ascii "--tags=c"] = .ok _ from rfl)).2
    (ascii "tags")⟩

/-- The initial pieces are not stored once. -/
theorem not_seededOnce : ¬ ∀ (p : Setup) (argv : List Bytes) (result : ParseResult),
    parse p argv = .ok result →
    ∀ n, (∃ arg ∈ declarations n (commandLine p.root argv), arg.kind = .stringList) →
      result.getList n = (if seedings n (commandLine p.root argv) = 0 then
      [] else initialPieces p.initials n) ++
        occurredPieces (occurrencesOf n (commandLine p.root argv)) := by
  intro h
  have hlist := h tagsSetup [ascii "run"] _ rfl (ascii "tags") ⟨tagsArg, .head _, rfl⟩
  cases hlist

end Libca.Opt
