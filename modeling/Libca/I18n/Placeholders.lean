import Libca.Common.FromChars
import Libca.I18n.Registry
import Libca.Str.Utf8

/-!
# Placeholders in messages (`i18n/i18n.hpp` 227-254)

`trf` puts arguments in the place of `{0}`, `{1}`, … in a message. The number between the braces is
accumulated in a `size_t`.

* `substituteLoop`, `State.trf`: the function.
* `Substituted`: a text with its placeholders replaced, from left to right; `f` has the replacement
  of a number. `Substituted.unique`.
* `substituted_substituteLoop`: the function replaces by the number that the `size_t` holds.
* `substituted_trf_iff`: **`trf` does what it is for, whatever the arguments, unless a number in the
  text is no index and becomes one by wrapping around.** `not_substituted_trf`: such a text.
-/

namespace Libca.I18n

open Common Str

/-! ## The function -/

/-- `n`, `valid` and `q` of `trf`. -/
structure IndexRead where
  n : Nat
  valid : Bool
  q : Bytes

/-- The loop over the digits. -/
def readIndex (n : Nat) (valid : Bool) : Bytes → IndexRead
  | [] => ⟨n, valid, []⟩
  | q :: rest =>
    if decimalDigit q then readIndex ((n * 10 + (q.toNat - 48)) % 2 ^ 64) true rest
      else ⟨n, valid, q :: rest⟩

theorem length_readIndex (n : Nat) (valid : Bool) (text : Bytes) :
    (readIndex n valid text).q.length ≤ text.length := by
  fun_induction readIndex n valid text with
  | case1 => exact le_rfl
  | case2 n valid q rest hdigit ih => exact Nat.le_succ_of_le ih
  | case3 => exact le_rfl

/-- The loop of `trf`: what the builder has, the literal run in front of `p`, and the text from `p`
on. -/
def substituteLoop (args : List Bytes) (buffer literal : Bytes) : Bytes → Bytes
  | [] => buffer ++ literal
  | p :: rest =>
    if p ≠ 123 then substituteLoop args buffer (literal ++ [p]) rest
    else
      let read := readIndex 0 false rest
      if h : read.valid ∧ read.q.head? = some 125 ∧ read.n < args.length then
        substituteLoop args (buffer ++ literal ++ args[read.n]) [] read.q.tail
      else substituteLoop args buffer (literal ++ [p]) rest
termination_by text => text.length
decreasing_by
  all_goals try exact Nat.lt_succ_self _
  have hlength := length_readIndex 0 false rest
  rw [List.length_tail, List.length_cons]
  omega

/-- `trf`. -/
def State.trf (s : State) (key : Bytes) (args : List Bytes) : Bytes :=
  buildOrEmpty (substituteLoop args [] [] (s.lookup key))

/-! ## Substitution -/

/-- The digits of a number. -/
def IsNumber (ds : Bytes) : Prop := ds ≠ [] ∧ ∀ d ∈ ds, decimalDigit d = true

/-- A number in braces. -/
def placeholder (ds : Bytes) : Bytes := 123 :: (ds ++ [125])

/-- A text with the placeholders replaced whose number `f` has a replacement for. -/
inductive Substituted (f : Nat → Option Bytes) : Bytes → Bytes → Prop
  | done : Substituted f [] []
  | insert {ds rest out arg : Bytes} :
    IsNumber ds → f (ofChars 10 ds) = some arg → Substituted f rest out →
      Substituted f (placeholder ds ++ rest) (arg ++ out)
  | copy {b : UInt8} {rest out : Bytes} :
      (∀ ds, IsNumber ds → placeholder ds <+: b :: rest → f (ofChars 10 ds) = none) →
        Substituted f rest out →
      Substituted f (b :: rest) (b :: out)

variable {f g : Nat → Option Bytes} {text out out' ds ds' rest : Bytes} {args : List Bytes}

/-- A placeholder at the front of a text. -/
theorem starts_placeholder {b : UInt8} (hds : IsNumber ds) : placeholder ds <+: b :: rest ↔
    b = 123 ∧ rest.takeWhile decimalDigit = ds ∧ (rest.dropWhile decimalDigit).head? =
      some 125 := by
  unfold placeholder
  rw [List.cons_prefix_cons, eq_comm]
  refine and_congr_right fun _ => ?_
  constructor
  · rintro ⟨tail, rfl⟩
    have hsplit := @takeWhile_digits _ (125 :: tail) hds.2 fun b hb => by
      cases hb
      decide
    rw [List.append_assoc, List.singleton_append, hsplit.1, hsplit.2]
    exact ⟨rfl, rfl⟩
  · rintro ⟨hdigits, hbrace⟩
    obtain ⟨tail, htail⟩ := List.head?_eq_some_iff.mp hbrace
    refine ⟨tail, ?_⟩
    rw [List.append_assoc, List.singleton_append, ← htail, ← hdigits]
    exact List.takeWhile_append_dropWhile

/-- A text starts with one placeholder at most. -/
theorem placeholder_unique (hds : IsNumber ds) (hds' : IsNumber ds') (h : placeholder ds <+: text)
    (h' : placeholder ds' <+: text) : ds = ds' := by
  cases text with
  | nil => exact absurd (List.prefix_nil.mp h) (List.cons_ne_nil _ _)
  | cons b rest =>
    exact ((starts_placeholder hds).mp h).2.1.symm.trans ((starts_placeholder hds').mp h').2.1

/-! ## Texts with placeholders -/

namespace Substituted

theorem of_nil (h : Substituted f [] out) : out = [] := by
  generalize htext : [] = text at h
  cases h with
  | done => rfl
  | insert => cases htext
  | copy => cases htext

/-- A placeholder with a replacement at the front. -/
theorem of_insert {arg : Bytes} (h : Substituted f (placeholder ds ++ rest) out) (hds : IsNumber ds)
    (hf : f (ofChars 10 ds) = some arg) : ∃ out', Substituted f rest out' ∧ out = arg ++ out' := by
  generalize htext : placeholder ds ++ rest = text at h
  have hstarts : placeholder ds <+: text := ⟨rest, htext⟩
  cases h with
  | done => cases htext
  | @insert ds' rest' out' arg' hds' hf' h =>
    obtain rfl := placeholder_unique hds hds' hstarts (List.prefix_append ..)
    obtain rfl := List.append_cancel_left htext
    obtain rfl := Option.some.inj (hf.symm.trans hf')
    exact ⟨out', h, rfl⟩
  | copy hnone h => exact absurd (hf.symm.trans (hnone ds hds hstarts)) nofun

/-- No placeholder with a replacement at the front. -/
theorem of_copy {b : UInt8} (h : Substituted f (b :: rest) out)
    (hnone : ∀ ds, IsNumber ds → placeholder ds <+: b :: rest → f (ofChars 10 ds) = none) :
    ∃ out', Substituted f rest out' ∧ out = b :: out' := by
  generalize htext : b :: rest = text at h
  cases h with
  | done => cases htext
  | @insert ds rest' out' arg hds hf h =>
    exact absurd (hf.symm.trans (hnone ds hds (htext ▸ List.prefix_append ..))) nofun
  | @copy b' rest' out' _ h =>
    obtain ⟨rfl, rfl⟩ := List.cons_eq_cons.mp htext
    exact ⟨out', h, rfl⟩

/-- Bytes that start no placeholder. -/
theorem of_append (as : Bytes) (has : ∀ a ∈ as, a ≠ 123) (h : Substituted f (as ++ rest) out) :
    ∃ out', Substituted f rest out' ∧ out = as ++ out' := by
  induction as generalizing out with
  | nil => exact ⟨out, h, rfl⟩
  | cons a as ih =>
    obtain ⟨hne, has⟩ := List.forall_mem_cons.mp has
    obtain ⟨out', h', rfl⟩ := h.of_copy fun ds hds hstarts =>
      absurd ((starts_placeholder hds).mp hstarts).1 hne
    obtain ⟨out'', h'', rfl⟩ := ih has h'
    exact ⟨out'', h'', rfl⟩

end Substituted

theorem IsNumber.ne_brace (hds : IsNumber ds) : ∀ d ∈ ds ++ [125], d ≠ 123 := by
  intro d hd heq
  rcases List.mem_append.mp hd with hd | hd
  · have hdigit := hds.2 d hd
    rw [heq] at hdigit
    cases hdigit
  · rw [heq] at hd
    exact absurd hd (by decide)

/-- A placeholder without a replacement at the front. -/
theorem Substituted.of_kept (h : Substituted f (placeholder ds ++ rest) out) (hds : IsNumber ds)
    (hf : f (ofChars 10 ds) = none) :
    ∃ out', Substituted f rest out' ∧ out = placeholder ds ++ out' := by
  have hstarts : placeholder ds <+: placeholder ds ++ rest := List.prefix_append ..
  obtain ⟨out', h', rfl⟩ := Substituted.of_copy h fun ds' hds' hstarts' =>
    placeholder_unique hds hds' hstarts hstarts' ▸ hf
  obtain ⟨out'', h'', rfl⟩ := h'.of_append (ds ++ [125]) hds.ne_brace
  exact ⟨out'', h'', rfl⟩

/-- **There is one result.** -/
theorem Substituted.unique (h : Substituted f text out) (h' : Substituted f text out') :
    out = out' := by
  induction h generalizing out' with
  | done => exact h'.of_nil.symm
  | insert hds hf _ ih =>
    obtain ⟨rest, hrest, rfl⟩ := h'.of_insert hds hf
    rw [ih hrest]
  | copy hnone _ ih =>
    obtain ⟨rest, hrest, rfl⟩ := h'.of_copy hnone
    rw [ih hrest]

/-- The result depends on the placeholders that the text has. -/
theorem Substituted.congr (h : Substituted f text out)
    (hfg : ∀ ds, IsNumber ds → placeholder ds <:+: text → f (ofChars 10 ds) = g (ofChars 10 ds)) :
    Substituted g text out := by
  induction h with
  | done => exact .done
  | insert hds hf _ ih =>
    refine .insert hds ((hfg _ hds (List.prefix_append ..).isInfix).symm.trans hf)
      (ih fun ds hds hin => ?_)
    exact hfg ds hds (hin.trans (List.suffix_append ..).isInfix)
  | copy hnone _ ih =>
    refine .copy (fun ds hds hstarts => ?_) (ih fun ds hds hin => ?_)
    · rw [← hfg ds hds hstarts.isInfix]
      exact hnone ds hds hstarts
    · exact hfg ds hds (List.infix_cons hin)

/-- A placeholder starts at the front of a text or behind it. -/
theorem infix_of_append (as : Bytes) (has : ∀ a ∈ as, a ≠ 123)
    (h : placeholder ds <:+: as ++ rest) :
    placeholder ds <:+: rest := by
  induction as with
  | nil => exact h
  | cons a as ih =>
    obtain ⟨hne, has⟩ := List.forall_mem_cons.mp has
    rcases List.infix_cons_iff.mp h with hstarts | hin
    · exact absurd (List.cons_prefix_cons.mp hstarts).1.symm hne
    · exact ih has hin

/-- **Of two ways to replace, the one that erases more leaves less.** -/
theorem length_of_erased (hf : Substituted f text out) (hg : Substituted g text out')
    (herased : ∀ v arg, f v = some arg → arg = []) (hsub : ∀ v, f v = none → g v = none) :
    out.length ≤ out'.length ∧ ∀ ds, IsNumber ds → placeholder ds <:+: text →
      f (ofChars 10 ds) ≠ none → g (ofChars 10 ds) = none → out.length < out'.length := by
  induction hf generalizing out' with
  | done =>
    refine ⟨Nat.zero_le _, fun ds _ hin _ _ => ?_⟩
    exact absurd (List.infix_nil.mp hin) (List.cons_ne_nil _ _)
  | @insert ds rest out arg hds hf _ ih =>
    obtain rfl := herased _ _ hf
    cases hgv : g (ofChars 10 ds) with
    | none =>
      obtain ⟨tail, htail, rfl⟩ := hg.of_kept hds hgv
      have hle := (ih htail).1
      have hlt : out.length < (placeholder ds ++ tail).length := by
        rw [List.length_append, placeholder, List.length_cons]
        omega
      exact ⟨hlt.le, fun _ _ _ _ _ => hlt⟩
    | some arg =>
      obtain ⟨tail, htail, rfl⟩ := hg.of_insert hds hgv
      obtain ⟨hle, hlt⟩ := ih htail
      rw [List.nil_append, List.length_append]
      refine ⟨by omega, fun ds' hds' hin hf' hg' => ?_⟩
      have hbehind : placeholder ds' <:+: rest := by
        rcases List.infix_cons_iff.mp hin with hstarts | hin
        · obtain rfl := placeholder_unique hds' hds hstarts (List.prefix_append ..)
          exact absurd (hg'.symm.trans hgv) nofun
        · exact infix_of_append (ds ++ [125]) hds.ne_brace hin
      have hlt' := hlt ds' hds' hbehind hf' hg'
      omega
  | copy hnone _ ih =>
    obtain ⟨tail, htail, rfl⟩ := hg.of_copy fun ds hds hstarts => hsub _ (hnone ds hds hstarts)
    obtain ⟨hle, hlt⟩ := ih htail
    rw [List.length_cons, List.length_cons]
    refine ⟨Nat.succ_le_succ hle, fun ds hds hin hf' hg' => ?_⟩
    rcases List.infix_cons_iff.mp hin with hstarts | hin
    · exact absurd (hnone ds hds hstarts) hf'
    · exact Nat.succ_lt_succ (hlt ds hds hin hf' hg')

/-- Characters are not cut. -/
theorem isUtf8_of_substituted {before : Bytes} (h : Substituted f text out)
    (htext : IsUtf8 (before ++ text))
    (hf : ∀ v arg, f v = some arg → IsUtf8 arg) : IsUtf8 (before ++ out) := by
  induction h generalizing before with
  | done => exact htext
  | @insert ds rest out arg hds hfv _ ih =>
    obtain ⟨hbefore, hbrace⟩ := IsUtf8.split htext (by decide)
    change IsUtf8 (ds ++ [125] ++ rest) at hbrace
    rw [List.append_assoc, List.singleton_append] at hbrace
    have hrest := (IsUtf8.split hbrace (by decide)).2
    exact hbefore.append ((hf _ _ hfv).append (@ih [] hrest))
  | @copy b rest out _ _ ih =>
    rw [List.append_cons] at htext ⊢
    exact ih htext

/-! ## The loop -/

/-- The digits up to the first byte that is none. -/
theorem readIndex_eq (n : Nat) (valid : Bool) (text : Bytes) : readIndex n valid text =
    ⟨(text.takeWhile decimalDigit).foldl (fun n q => (n * 10 + (q.toNat - 48)) % 2 ^ 64) n,
      valid || !(text.takeWhile decimalDigit).isEmpty, text.dropWhile decimalDigit⟩ := by
  fun_induction readIndex n valid text with
  | case1 => simp
  | case2 n valid q rest hdigit ih =>
    rw [ih, List.takeWhile_cons_of_pos hdigit, List.dropWhile_cons_of_pos hdigit]
    simp
  | case3 n valid q rest hdigit =>
    rw [List.takeWhile_cons_of_neg hdigit, List.dropWhile_cons_of_neg hdigit]
    simp

/-- The accumulated number is the number, as a `size_t`. -/
theorem foldl_index (ds : Bytes) (hds : ∀ d ∈ ds, decimalDigit d = true) (m : Nat) :
    ds.foldl (fun n q => (n * 10 + (q.toNat - 48)) % 2 ^ 64) (m % 2 ^ 64) =
      (ds.foldl (fun acc b => acc * 10 + digitVal b) m) % 2 ^ 64 := by
  induction ds generalizing m with
  | nil => rfl
  | cons d ds ih =>
    obtain ⟨hd, hds⟩ := List.forall_mem_cons.mp hds
    unfold decimalDigit at hd
    rw [Bool.and_eq_true, decide_eq_true_eq, decide_eq_true_eq] at hd
    have hval : digitVal d = d.toNat - 48 := if_pos hd.2
    rw [List.foldl_cons, List.foldl_cons, ← ih hds, hval]
    congr 1
    omega

/-- **The function replaces by the number that the `size_t` holds.** -/
theorem substituted_substituteLoop (args : List Bytes) (buffer literal text : Bytes) :
    ∃ out, Substituted (fun v => args[v % 2 ^ 64]?) text out ∧
      substituteLoop args buffer literal text = buffer ++ literal ++ out := by
  have hread (rest : Bytes) : readIndex 0 false rest =
    ⟨ofChars 10 (rest.takeWhile decimalDigit) % 2 ^ 64,
      !(rest.takeWhile decimalDigit).isEmpty, rest.dropWhile decimalDigit⟩ := by
    rw [readIndex_eq, ofChars, ← foldl_index _ fun d hd => List.mem_takeWhile_imp hd]
    rfl
  fun_induction substituteLoop args buffer literal text with
  | case1 => exact ⟨[], .done, (List.append_nil _).symm⟩
  | case2 buffer literal p rest hp ih =>
    obtain ⟨out, hout, heq⟩ := ih
    refine ⟨p :: out,
      .copy (fun ds hds hstarts => absurd ((starts_placeholder hds).mp hstarts).1 hp) hout, ?_⟩
    rw [heq, List.append_assoc, List.append_assoc, List.append_assoc]
    rfl
  | case3 buffer literal p rest hp read hplaceholder ih =>
    obtain ⟨out, hout, heq⟩ := ih
    obtain rfl : p = 123 := not_not.mp hp
    obtain ⟨hvalid, hbrace, hn⟩ := hplaceholder
    have hdigits : (!(rest.takeWhile decimalDigit).isEmpty) = true :=
      (congrArg IndexRead.valid (hread rest)).symm.trans hvalid
    have hnumber : read.n = ofChars 10 (rest.takeWhile decimalDigit) % 2 ^ 64 :=
      congrArg IndexRead.n (hread rest)
    have hq : read.q = rest.dropWhile decimalDigit := congrArg IndexRead.q (hread rest)
    have hds : IsNumber (rest.takeWhile decimalDigit) :=
      ⟨by simpa using hdigits, fun d hd => List.mem_takeWhile_imp hd⟩
    have hbehind : rest.dropWhile decimalDigit = 125 :: read.q.tail := by
      rw [← hq]
      exact (List.cons_head?_tail hbrace).symm
    have hrest : rest = rest.takeWhile decimalDigit ++ [125] ++ read.q.tail := by
      rw [List.append_assoc, List.singleton_append, ← hbehind]
      exact List.takeWhile_append_dropWhile.symm
    have hfound : args[ofChars 10 (rest.takeWhile decimalDigit) % 2 ^ 64]? = some args[read.n] := by
      rw [← hnumber]
      exact List.getElem?_eq_getElem hn
    refine ⟨args[read.n] ++ out, ?_, ?_⟩
    · have hinsert := Substituted.insert (f := fun v => args[v % 2 ^ 64]?) hds hfound hout
      rwa [placeholder, List.cons_append, ← hrest] at hinsert
    · rw [heq, List.append_nil, List.append_assoc]
  | case4 buffer literal p rest hp read hnone ih =>
    obtain ⟨out, hout, heq⟩ := ih
    refine ⟨p :: out, .copy (fun ds hds hstarts => ?_) hout, ?_⟩
    · obtain ⟨-, hdigits, hbrace⟩ := (starts_placeholder hds).mp hstarts
      refine List.getElem?_eq_none (Nat.le_of_not_lt fun hlt => hnone ?_)
      rw [← hdigits] at hlt hds
      have hvalid : (!(rest.takeWhile decimalDigit).isEmpty) = true := by simpa using hds.1
      refine ⟨(congrArg IndexRead.valid (hread rest)).trans hvalid, ?_, ?_⟩
      · rw [show read.q = rest.dropWhile decimalDigit from congrArg IndexRead.q (hread rest)]
        exact hbrace
      · rw [show read.n = _ from congrArg IndexRead.n (hread rest)]
        exact hlt
    · rw [heq, List.append_assoc, List.append_assoc, List.append_assoc]
      rfl

/-! ## The result -/

/-- What `trf` is for: the arguments replace the placeholders with their numbers. -/
def Replaced (args : List Bytes) (text out : Bytes) : Prop :=
  Substituted (fun v => args[v]?) text out

/-- No number in braces wraps around to an index below `n` that it is not. -/
def NoWrap (text : Bytes) (n : Nat) : Prop :=
  ∀ ds, IsNumber ds → placeholder ds <:+: text → ofChars 10 ds % 2 ^ 64 < n → ofChars 10 ds < n

/-- The result of `trf` is valid, and not empty for that. -/
theorem substituted_trf {s : State} {key : Bytes} (htext : IsUtf8 (s.lookup key))
    (hargs : ∀ arg ∈ args, IsUtf8 arg) :
    Substituted (fun v => args[v % 2 ^ 64]?) (s.lookup key) (s.trf key args) := by
  obtain ⟨out, hout, heq⟩ := substituted_substituteLoop args [] [] (s.lookup key)
  have hutf8 : IsUtf8 out := @isUtf8_of_substituted _ _ _ [] hout htext fun v arg hv =>
    hargs arg (List.mem_of_getElem? hv)
  rw [State.trf, heq, buildOrEmpty_eq_intern]
  exact (intern_of_isUtf8 hutf8).symm ▸ hout

/-- **`trf` replaces what it should, whatever the arguments and whatever message the key has, unless
a number in the text is no index and becomes one by wrapping around.** -/
theorem substituted_trf_iff (htext : IsUtf8 text) {n : Nat} (hn : n < 2 ^ 64) :
    (∀ (s : State) (key : Bytes) (args : List Bytes), s.lookup key = text → args.length = n →
      (∀ arg ∈ args, IsUtf8 arg) → Replaced args text (s.trf key args)) ↔ NoWrap text n := by
  constructor
  · intro h ds hds hin hlt
    by_contra hge
    -- Arguments that leave nothing tell which placeholders were replaced.
    have hargs : ∀ arg ∈ List.replicate n ([] : Bytes), IsUtf8 arg := fun arg harg =>
      (List.eq_of_mem_replicate harg).symm ▸ isUtf8_nil
    have hcode := @substituted_trf _ {} text htext hargs
    have hspec : Substituted _ text _ := h {} text _ rfl (List.length_replicate ..) hargs
    have hlength := (length_of_erased hcode hspec
      (fun v arg hv => List.eq_of_mem_replicate (List.mem_of_getElem? hv)) fun v hv =>
        ?_).2 ds hds hin ?_ ?_
    · exact absurd hlength (Nat.lt_irrefl _)
    · rw [List.getElem?_eq_none_iff, List.length_replicate] at hv ⊢
      exact hv.trans (Nat.mod_le v _)
    · rw [ne_eq, List.getElem?_eq_none_iff, List.length_replicate]
      exact Nat.not_le_of_lt hlt
    · rw [List.getElem?_eq_none_iff, List.length_replicate]
      exact Nat.le_of_not_lt hge
  · rintro h s key args rfl rfl hargs
    refine (substituted_trf htext hargs).congr fun ds hds hin => ?_
    by_cases hlt : ofChars 10 ds % 2 ^ 64 < args.length
    · have hindex : ofChars 10 ds % 2 ^ 64 = ofChars 10 ds :=
        Nat.mod_eq_of_lt ((h ds hds hin hlt).trans hn)
      rw [hindex]
    · have hge : args.length ≤ ofChars 10 ds := (Nat.le_of_not_lt hlt).trans (Nat.mod_le _ _)
      rw [List.getElem?_eq_none (Nat.le_of_not_lt hlt), List.getElem?_eq_none hge]

/-- A message with one placeholder. -/
theorem substituted_trf_greeting : NoWrap (ascii "{0}") 1 ∧
    Replaced [ascii "x"] (ascii "{0}") (State.trf {} (ascii "{0}") [ascii "x"]) := by
  have hnoWrap : NoWrap (ascii "{0}") 1 := by
    intro ds hds hin _
    rcases List.infix_cons_iff.mp hin with hstarts | hin
    · obtain rfl := ((starts_placeholder hds).mp hstarts).2.1
      decide
    · have hnil := @infix_of_append _ [] (ascii "0\x7d") (by decide) hin
      exact absurd (List.infix_nil.mp hnil) (List.cons_ne_nil _ _)
  exact ⟨hnoWrap, (substituted_trf_iff (isUtf8_of_ascii (by decide)) (by decide)).mpr hnoWrap {} _ _
    rfl rfl
    fun arg harg => List.mem_singleton.mp harg ▸ isUtf8_of_ascii (by decide)⟩

/-- The number `2 ^ 64` counts as the index `0`. -/
theorem not_substituted_trf :
    ¬ ∀ (s : State) (key : Bytes) (args : List Bytes), IsUtf8 (s.lookup key) →
    (∀ arg ∈ args, IsUtf8 arg) → Replaced args (s.lookup key) (s.trf key args) := by
  intro h
  have hds : IsNumber (ascii "18446744073709551616") := ⟨by decide, by decide⟩
  have htext : IsUtf8 (State.lookup {} (placeholder (ascii "18446744073709551616") ++ [])) :=
    isUtf8_of_ascii (by decide)
  have hargs : ∀ arg ∈ [ascii "x"], IsUtf8 arg := fun arg harg =>
    List.mem_singleton.mp harg ▸ isUtf8_of_ascii (by decide)
  obtain ⟨out, -, hcode⟩ :=
    (substituted_trf htext hargs).of_insert hds (by decide : _ = some (ascii "x"))
  obtain ⟨out', -, hspec⟩ := (h {} _ _ htext hargs).of_kept hds (by decide)
  exact absurd (List.cons_eq_cons.mp (hcode.symm.trans hspec)).1 (by decide)

end Libca.I18n
