import Libca.Common.Bytes
import Mathlib.Computability.Language

/-!
# Glob patterns

Model of `glob_match` (`fs/file_util.cpp`). An index or a `substr` out of range ends a call with
`none`.

* `GlobPiece.language`, `globLanguage`: what a pattern stands for, piece by piece from the left.
* `globMatch_eq`: the matcher ends, stays in range, and answers whether the text is in the language.
-/

namespace Libca.Fs

open Common

/-! ## The matcher -/

/-- `substr(position)` of a `std::string_view`. -/
def substr (s : Bytes) (position : Nat) : Option Bytes :=
  if position ≤ s.length then some (s.drop position) else none

variable {s : Bytes}

theorem substr_eq_some {rest : Bytes} {position : Nat} :
    substr s position = some rest ↔ position ≤ s.length ∧ s.drop position = rest := by
  unfold substr
  split_ifs with h
  · rw [Option.some.injEq, and_iff_right h]
  · exact iff_of_false nofun fun h' => h h'.1

/-- `i < s.size() && s[i] == c`. -/
def byteIs (s : Bytes) (i : Nat) (c : UInt8) : Bool := decide (i < s.length) && s[i]? == some c

/-- The loop over the separators from `k` on; `next` matches a suffix of the text. -/
def afterSlash (next : Bytes → Option Bool) (text : Bytes) (k : Nat) : Option Bool :=
  if _h : k < text.length then do
    let c ← text[k]?
    if c = '/'.toUInt8 then
      let matched ← next (← substr text (k + 1))
      if matched then pure true else afterSlash next text (k + 1)
    else afterSlash next text (k + 1)
  else pure false
termination_by text.length - k

/-- The loop over the suffixes from `k - 1` down to `ti`. -/
def fromLongest (next : Bytes → Option Bool) (text : Bytes) (ti : Nat) : Nat → Option Bool
  | 0 => pure false
  | k + 1 =>
    if ti < k + 1 then do
      let matched ← next (← substr text k)
      if matched then pure true else fromLongest next text ti k
    else pure false

/-- The loop over the suffixes from `k` up to the next separator. -/
def upToSlash (next : Bytes → Option Bool) (text : Bytes) (k : Nat) : Option Bool :=
  match hsuffix : substr text k with
  | none => none
  | some suffix => do
    let matched ← next suffix
    if matched then pure true
    else if _h : k = text.length then pure false
    else
      let c ← text[k]?
      if c = '/'.toUInt8 then pure false else upToSlash next text (k + 1)
termination_by text.length - k
decreasing_by
  have hle := (substr_eq_some.mp hsuffix).1
  omega

/-- The loop of `glob_match` at two indices. -/
def globLoop (pattern text : Bytes) (pi ti : Nat) : Option Bool :=
  if pi = pattern.length then pure (ti == text.length)
  else
    match hpc : pattern[pi]? with
    | none => none
    | some pc =>
      if pc = '*'.toUInt8 then
        if byteIs pattern (pi + 1) '*'.toUInt8 then
          if byteIs pattern (pi + 2) '/'.toUInt8 then
            match hrest : substr pattern (pi + 3) with
            | none => none
            | some rest => do
              let matched ← globLoop rest (← substr text ti) 0 0
              if matched then pure true
              else afterSlash (fun suffix => globLoop rest suffix 0 0) text ti
          else
            match hrest : substr pattern (pi + 2) with
            | none => none
            | some rest => fromLongest (fun suffix => globLoop rest suffix 0 0) text ti
              (text.length + 1)
        else
          match hrest : substr pattern (pi + 1) with
          | none => none
          | some rest => upToSlash (fun suffix => globLoop rest suffix 0 0) text ti
      else if ti = text.length then pure false
      else do
        let c ← text[ti]?
        if pc = '?'.toUInt8 then
          if c = '/'.toUInt8 then pure false else globLoop pattern text (pi + 1) (ti + 1)
        else if c ≠ pc then pure false
        else globLoop pattern text (pi + 1) (ti + 1)
termination_by pattern.length - pi
decreasing_by
  all_goals
    have hlt := (List.getElem?_eq_some_iff.mp hpc).1
    first
    | omega
    | obtain ⟨hle, rfl⟩ := substr_eq_some.mp hrest
      rw [List.length_drop]
      omega

/-- `glob_match`. -/
def globMatch (pattern text : Bytes) : Option Bool := globLoop pattern text 0 0

/-! ## The language of a pattern -/

/-- A piece of a pattern. -/
inductive GlobPiece
  /-- `**/`. -/
  | directories
  /-- `**`. -/
  | anything
  /-- `*`. -/
  | segment
  /-- `?`. -/
  | single
  | literal (b : UInt8)
  deriving DecidableEq, Repr

/-- What a piece stands for. -/
def GlobPiece.language : GlobPiece → Language UInt8
  | .directories => 1 + ⊤ * {['/'.toUInt8]}
  | .anything => ⊤
  | .segment => fun text => '/'.toUInt8 ∉ text
  | .single => fun text => ∃ b, text = [b] ∧ b ≠ '/'.toUInt8
  | .literal b => {[b]}

/-- The first piece of a pattern that begins with `c`, and the length of what comes after it. -/
def firstPiece (c : UInt8) (rest : Bytes) : GlobPiece × Bytes :=
  if c = '*'.toUInt8 then
    if byteIs rest 0 '*'.toUInt8 then
      if byteIs rest 1 '/'.toUInt8 then (.directories, rest.drop 2) else (.anything, rest.drop 1)
    else (.segment, rest)
  else if c = '?'.toUInt8 then (.single, rest)
  else (.literal c, rest)

theorem firstPiece_length (c : UInt8) (rest : Bytes) :
    (firstPiece c rest).2.length ≤ rest.length := by
  unfold firstPiece
  split_ifs <;> simp

/-- The pieces of a pattern, from the left. -/
def globPieces (pattern : Bytes) : List GlobPiece :=
  match pattern with
  | [] => []
  | c :: rest => (firstPiece c rest).1 :: globPieces (firstPiece c rest).2
termination_by pattern.length
decreasing_by
  have h := firstPiece_length c rest
  simp only [List.length_cons]
  omega

/-- The language of a pattern. -/
def globLanguage (pattern : Bytes) : Language UInt8 :=
  ((globPieces pattern).map GlobPiece.language).prod

theorem globLanguage_nil : globLanguage [] = 1 := by
  unfold globLanguage
  rw [globPieces, List.map_nil, List.prod_nil]

theorem globLanguage_cons (c : UInt8) (rest : Bytes) :
    globLanguage (c :: rest) = (firstPiece c rest).1.language * globLanguage
      (firstPiece c rest).2 := by
  unfold globLanguage
  rw [globPieces, List.map_cons, List.prod_cons]

variable {l : Language UInt8} {text : Bytes}

theorem mem_segment_mul : text ∈ GlobPiece.segment.language * l ↔
    ∃ u v, text = u ++ v ∧ '/'.toUInt8 ∉ u ∧ v ∈ l := by
  rw [Language.mem_mul]
  constructor
  · rintro ⟨u, hu, v, hv, rfl⟩
    exact ⟨u, v, rfl, hu, hv⟩
  · rintro ⟨u, v, rfl, hu, hv⟩
    exact ⟨u, hu, v, hv, rfl⟩

theorem mem_anything_mul : text ∈ GlobPiece.anything.language * l ↔ ∃ u v, text = u ++ v ∧
    v ∈ l := by
  rw [Language.mem_mul]
  constructor
  · rintro ⟨u, -, v, hv, rfl⟩
    exact ⟨u, v, rfl, hv⟩
  · rintro ⟨u, v, rfl, hv⟩
    exact ⟨u, trivial, v, hv, rfl⟩

theorem mem_directories_mul : text ∈ GlobPiece.directories.language * l ↔
    text ∈ l ∨ ∃ u v, text = u ++ '/'.toUInt8 :: v ∧ v ∈ l := by
  unfold GlobPiece.language
  rw [add_mul, one_mul, Language.mem_add, mul_assoc]
  refine or_congr_right ?_
  rw [Language.mem_mul]
  constructor
  · rintro ⟨u, -, w, hw, rfl⟩
    obtain ⟨s, hs, v, hv, rfl⟩ := Language.mem_mul.mp hw
    obtain rfl := Set.mem_singleton_iff.mp hs
    exact ⟨u, v, rfl, hv⟩
  · rintro ⟨u, v, rfl, hv⟩
    exact ⟨u, trivial, _, Language.mem_mul.mpr ⟨_, Set.mem_singleton _, v, hv, rfl⟩, rfl⟩

theorem mem_single_mul : text ∈ GlobPiece.single.language * l ↔
    ∃ b v, text = b :: v ∧ b ≠ '/'.toUInt8 ∧ v ∈ l := by
  rw [Language.mem_mul]
  constructor
  · rintro ⟨_, ⟨b, rfl, hb⟩, v, hv, rfl⟩
    exact ⟨b, v, rfl, hb, hv⟩
  · rintro ⟨b, v, rfl, hb, hv⟩
    exact ⟨[b], ⟨b, rfl, hb⟩, v, hv, rfl⟩

theorem mem_literal_mul {b : UInt8} :
    text ∈ (GlobPiece.literal b).language * l ↔ ∃ v, text = b :: v ∧ v ∈ l := by
  rw [Language.mem_mul]
  constructor
  · rintro ⟨u, hu, v, hv, rfl⟩
    obtain rfl := Set.mem_singleton_iff.mp hu
    exact ⟨v, rfl, hv⟩
  · rintro ⟨v, rfl, hv⟩
    exact ⟨[b], Set.mem_singleton _, v, hv, rfl⟩

/-! ## The loops -/

/-- An answer that is there, and tells whether `p`. -/
def Answers (answer : Option Bool) (p : Prop) : Prop := ∃ b, answer = some b ∧ (b = true ↔ p)

variable {p : Prop}

theorem answers_true (h : p) : Answers (some true) p := ⟨true, rfl, iff_of_true rfl h⟩

theorem answers_false (h : ¬ p) : Answers (some false) p := ⟨false, rfl, iff_of_false nofun h⟩

theorem Answers.congr {answer : Option Bool} {q : Prop} (h : Answers answer p) (hpq : p ↔ q) :
    Answers answer q :=
  propext hpq ▸ h

/-- A loop that stops at the first match. -/
theorem Answers.orElse {first rest : Option Bool} {q : Prop} (hfirst : Answers first p)
    (hrest : Answers rest q) :
    Answers (first >>= fun matched => if matched then pure true else rest) (p ∨ q) := by
  obtain ⟨b, rfl, hb⟩ := hfirst
  cases b with
  | true => exact answers_true (.inl (hb.mp rfl))
  | false => exact hrest.congr (by rw [or_iff_right fun h => Bool.false_ne_true (hb.mpr h)])

theorem substr_of_le {position : Nat} (h : position ≤ s.length) :
    substr s position = some (s.drop position) := if_pos h

variable {next : Bytes → Option Bool}

variable {c : UInt8}

theorem exists_slash_cons : (∃ u v, c :: text = u ++ '/'.toUInt8 :: v ∧ v ∈ l) ↔
    (c = '/'.toUInt8 ∧ text ∈ l) ∨ ∃ u v, text = u ++ '/'.toUInt8 :: v ∧ v ∈ l := by
  constructor
  · rintro ⟨u, v, heq, hv⟩
    cases u with
    | nil =>
      obtain ⟨rfl, rfl⟩ := List.cons.inj heq
      exact .inl ⟨rfl, hv⟩
    | cons d u => exact .inr ⟨u, v, (List.cons.inj heq).2, hv⟩
  · rintro (⟨rfl, hv⟩ | ⟨u, v, rfl, hv⟩)
    · exact ⟨[], _, rfl, hv⟩
    · exact ⟨c :: u, v, rfl, hv⟩

theorem afterSlash_answers (hnext : ∀ suffix, Answers (next suffix) (suffix ∈ l)) (k : Nat) :
    Answers (afterSlash next text k) (∃ u v, text.drop k = u ++ '/'.toUInt8 :: v ∧ v ∈ l) := by
  induction hleft : text.length - k generalizing k with
  | zero =>
    rw [afterSlash, dif_neg (by omega), List.drop_eq_nil_of_le (by omega)]
    exact answers_false fun ⟨u, v, hnil, _⟩ => by simp at hnil
  | succ left ih =>
    have hlt : k < text.length := by omega
    rw [afterSlash, dif_pos hlt, List.getElem?_eq_getElem hlt, Option.bind_eq_bind,
      Option.bind_some,
      List.drop_eq_getElem_cons hlt, substr_of_le (by omega), Option.bind_eq_bind, Option.bind_some]
    by_cases hslash : text[k] = '/'.toUInt8
    · rw [if_pos hslash]
      refine ((hnext (text.drop (k + 1))).orElse (ih (k + 1) (by omega))).congr ?_
      rw [exists_slash_cons, and_iff_right hslash]
    · rw [if_neg hslash]
      refine (ih (k + 1) (by omega)).congr ?_
      rw [exists_slash_cons, or_iff_right fun h => hslash h.1]

variable {k : Nat}

theorem fromLongest_answers (hnext : ∀ suffix, Answers (next suffix) (suffix ∈ l)) (ti : Nat)
    (hk : k ≤ text.length + 1) :
    Answers (fromLongest next text ti k) (∃ j, ti ≤ j ∧ j < k ∧ text.drop j ∈ l) := by
  induction k with
  | zero => exact answers_false fun ⟨j, _, hj, _⟩ => Nat.not_lt_zero j hj
  | succ k ih =>
    rw [fromLongest]
    by_cases hti : ti < k + 1
    · rw [if_pos hti, substr_of_le (by omega), Option.bind_eq_bind, Option.bind_some]
      refine ((hnext (text.drop k)).orElse (ih (by omega))).congr ?_
      constructor
      · rintro (hdrop | ⟨j, htj, hjk, hdrop⟩)
        · exact ⟨k, by omega, by omega, hdrop⟩
        · exact ⟨j, htj, by omega, hdrop⟩
      · rintro ⟨j, htj, hjk, hdrop⟩
        rcases Nat.lt_succ_iff_lt_or_eq.mp hjk with hlt | rfl
        · exact .inr ⟨j, htj, hlt, hdrop⟩
        · exact .inl hdrop
    · rw [if_neg hti]
      exact answers_false fun ⟨j, htj, hjk, _⟩ => by omega

theorem exists_drop_iff {ti : Nat} (hti : ti ≤ text.length) :
    (∃ j, ti ≤ j ∧ j < text.length + 1 ∧ text.drop j ∈ l) ↔ ∃ u v, text.drop ti = u ++ v ∧
      v ∈ l := by
  constructor
  · rintro ⟨j, htj, -, hdrop⟩
    refine ⟨(text.drop ti).take (j - ti), text.drop j, ?_, hdrop⟩
    have hsplit := List.take_append_drop (j - ti) (text.drop ti)
    rw [List.drop_drop, Nat.add_sub_cancel' htj] at hsplit
    exact hsplit.symm
  · rintro ⟨u, v, heq, hv⟩
    have hlength := congrArg List.length heq
    rw [List.length_drop, List.length_append] at hlength
    refine ⟨ti + u.length, Nat.le_add_right _ _, by omega, ?_⟩
    rw [← List.drop_drop, heq, List.drop_left]
    exact hv

theorem exists_notMem_cons : (∃ u v, c :: text = u ++ v ∧ '/'.toUInt8 ∉ u ∧ v ∈ l) ↔
    c :: text ∈ l ∨ c ≠ '/'.toUInt8 ∧ ∃ u v, text = u ++ v ∧ '/'.toUInt8 ∉ u ∧ v ∈ l := by
  constructor
  · rintro ⟨u, v, heq, hu, hv⟩
    cases u with
    | nil =>
      rw [heq]
      exact .inl hv
    | cons d u =>
      obtain ⟨rfl, rfl⟩ := List.cons.inj heq
      obtain ⟨hd, hu⟩ := not_or.mp (mt List.mem_cons.mpr hu)
      exact .inr ⟨Ne.symm hd, u, v, rfl, hu, hv⟩
  · rintro (hv | ⟨hc, u, v, rfl, hu, hv⟩)
    · exact ⟨[], _, rfl, List.not_mem_nil, hv⟩
    · exact ⟨c :: u, v, rfl, mt List.mem_cons.mp (not_or.mpr ⟨Ne.symm hc, hu⟩), hv⟩

theorem upToSlash_eq (hk : k ≤ text.length) : upToSlash next text k =
    (next (text.drop k) >>= fun matched => if matched then pure true else
      if k = text.length then pure false
      else text[k]? >>= fun c => if c = '/'.toUInt8 then pure false
        else upToSlash next text (k + 1)) := by
  rw [upToSlash]
  split
  · next hsuffix =>
    rw [substr_of_le hk] at hsuffix
    cases hsuffix
  · next suffix hsuffix =>
    rw [substr_of_le hk] at hsuffix
    rw [Option.some.inj hsuffix]
    rfl

theorem upToSlash_answers (hnext : ∀ suffix, Answers (next suffix) (suffix ∈ l))
    (hk : k ≤ text.length) :
    Answers (upToSlash next text k) (∃ u v, text.drop k = u ++ v ∧ '/'.toUInt8 ∉ u ∧ v ∈ l) := by
  induction hleft : text.length - k generalizing k with
  | zero =>
    have hend : k = text.length := by omega
    rw [upToSlash_eq hk, if_pos hend, List.drop_eq_nil_of_le (by omega)]
    refine ((hnext []).orElse (answers_false not_false)).congr ?_
    rw [or_false]
    constructor
    · intro hmem
      exact ⟨[], [], rfl, List.not_mem_nil, hmem⟩
    · rintro ⟨u, v, hnil, -, hv⟩
      obtain ⟨rfl, rfl⟩ := List.append_eq_nil_iff.mp hnil.symm
      exact hv
  | succ left ih =>
    have hlt : k < text.length := by omega
    rw [upToSlash_eq hk, if_neg hlt.ne, List.getElem?_eq_getElem hlt, List.drop_eq_getElem_cons hlt]
    refine Answers.congr ?_ exists_notMem_cons.symm
    refine (hnext _).orElse ?_
    rw [Option.bind_eq_bind, Option.bind_some]
    by_cases hslash : text[k] = '/'.toUInt8
    · rw [if_pos hslash]
      exact answers_false fun h => h.1 hslash
    · rw [if_neg hslash]
      exact (ih (by omega) (by omega)).congr (and_iff_right hslash).symm

/-! ## The matcher and the language -/

theorem byteIs_drop (s : Bytes) (n i : Nat) (c : UInt8) :
    byteIs (s.drop n) i c = byteIs s (n + i) c := by
  unfold byteIs
  rw [List.length_drop, List.getElem?_drop]
  have hlt : i < s.length - n ↔ n + i < s.length := by omega
  simp only [hlt]

theorem le_length_of_byteIs {i : Nat} (h : byteIs s i c = true) : i + 1 ≤ s.length :=
  of_decide_eq_true (Bool.and_eq_true_iff.mp h).1

theorem globLoop_answers {pattern : Bytes} {pi ti : Nat} (hpi : pi ≤ pattern.length)
    (hti : ti ≤ text.length) :
    Answers (globLoop pattern text pi ti) (text.drop ti ∈ globLanguage (pattern.drop pi)) := by
  induction hleft : pattern.length - pi using Nat.strong_induction_on generalizing pattern text pi
    ti with
  | _ left ih =>
  have hrest {n : Nat} (hn : pi + 1 ≤ n) (hle : n ≤ pattern.length) (suffix : Bytes) :
      Answers (globLoop (pattern.drop n) suffix 0 0) (suffix ∈ globLanguage (pattern.drop n)) :=
    ih ((pattern.drop n).length - 0) (by rw [List.length_drop]; omega) (Nat.zero_le _)
      (Nat.zero_le _) rfl
  rw [globLoop]
  by_cases hend : pi = pattern.length
  · rw [if_pos hend, List.drop_eq_nil_of_le (by omega), globLanguage_nil]
    refine ⟨_, rfl, ?_⟩
    rw [Language.mem_one, List.drop_eq_nil_iff, beq_iff_eq]
    omega
  · have hlt : pi < pattern.length := by omega
    rw [if_neg hend, List.drop_eq_getElem_cons hlt, globLanguage_cons]
    split
    · next hpc =>
      rw [List.getElem?_eq_getElem hlt] at hpc
      cases hpc
    · next pc hpc =>
      rw [List.getElem?_eq_getElem hlt] at hpc
      cases hpc
      unfold firstPiece
      by_cases hstar : pattern[pi] = '*'.toUInt8
      · rw [if_pos hstar, if_pos hstar, byteIs_drop, byteIs_drop, Nat.add_zero]
        by_cases htwo : byteIs pattern (pi + 1) '*'.toUInt8 = true
        · rw [if_pos htwo, if_pos htwo]
          by_cases hslash : byteIs pattern (pi + 2) '/'.toUInt8 = true
          · rw [if_pos hslash, if_pos hslash, List.drop_drop]
            have hle := le_length_of_byteIs hslash
            split
            · next hnone => exact absurd (hnone.symm.trans (substr_of_le hle)) nofun
            · next rest hsome =>
              obtain rfl := (substr_eq_some.mp hsome).2
              rw [substr_of_le hti]
              have hnext := hrest (n := pi + 3) (by omega) hle
              exact ((hnext _).orElse (afterSlash_answers hnext ti)).congr mem_directories_mul.symm
          · rw [if_neg hslash, if_neg hslash, List.drop_drop]
            have hle := le_length_of_byteIs htwo
            split
            · next hnone => exact absurd (hnone.symm.trans (substr_of_le hle)) nofun
            · next rest hsome =>
              obtain rfl := (substr_eq_some.mp hsome).2
              have hanswers := fromLongest_answers (hrest (n := pi + 2) (by omega) hle) ti
                (Nat.le_refl (text.length + 1))
              exact hanswers.congr ((exists_drop_iff hti).trans mem_anything_mul.symm)
        · rw [if_neg htwo, if_neg htwo]
          split
          · next hnone => exact absurd (hnone.symm.trans (substr_of_le hlt)) nofun
          · next rest hsome =>
            obtain rfl := (substr_eq_some.mp hsome).2
            exact (upToSlash_answers (hrest (le_rfl) hlt) hti).congr mem_segment_mul.symm
      · rw [if_neg hstar, if_neg hstar]
        by_cases hover : ti = text.length
        · have hnil : text.drop ti = [] := List.drop_eq_nil_of_le hover.ge
          rw [if_pos hover, hnil]
          refine answers_false fun hmem => ?_
          split_ifs at hmem
          · obtain ⟨b, v, hnil, -⟩ := mem_single_mul.mp hmem
            cases hnil
          · obtain ⟨v, hnil, -⟩ := mem_literal_mul.mp hmem
            cases hnil
        · have hti' : ti < text.length := by omega
          have hstep : Answers (globLoop pattern text (pi + 1) (ti + 1))
              (text.drop (ti + 1) ∈ globLanguage (pattern.drop (pi + 1))) :=
            ih (pattern.length - (pi + 1)) (by omega) hlt hti' rfl
          rw [if_neg hover, List.getElem?_eq_getElem hti', Option.bind_eq_bind, Option.bind_some,
            List.drop_eq_getElem_cons hti']
          by_cases hquery : pattern[pi] = '?'.toUInt8
          · rw [if_pos hquery, if_pos hquery]
            refine Answers.congr ?_ mem_single_mul.symm
            by_cases hslash : text[ti] = '/'.toUInt8
            · rw [if_pos hslash]
              refine answers_false fun ⟨b, v, hcons, hb, _⟩ => hb ?_
              rw [← (List.cons.inj hcons).1, hslash]
            · rw [if_neg hslash]
              exact hstep.congr ⟨fun h => ⟨_, _, rfl, hslash, h⟩, fun ⟨b, v, hcons, _, hv⟩ =>
                (List.cons.inj hcons).2 ▸ hv⟩
          · rw [if_neg hquery, if_neg hquery]
            refine Answers.congr ?_ mem_literal_mul.symm
            by_cases hsame : text[ti] = pattern[pi]
            · rw [if_neg (not_not.mpr hsame)]
              exact hstep.congr ⟨fun h => ⟨_, by rw [hsame], h⟩, fun ⟨v, hcons, hv⟩ =>
                (List.cons.inj hcons).2 ▸ hv⟩
            · rw [if_pos hsame]
              exact answers_false fun ⟨v, hcons, _⟩ => hsame (List.cons.inj hcons).1

/-- **The matcher ends, stays in range, and decides the language of its pattern.** -/
theorem globMatch_eq (pattern text : Bytes) :
    ∃ matched, globMatch pattern text = some matched ∧
      (matched = true ↔ text ∈ globLanguage pattern) :=
  globLoop_answers (Nat.zero_le _) (Nat.zero_le _)

end Libca.Fs
