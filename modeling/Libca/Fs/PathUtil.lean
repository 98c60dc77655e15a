import Libca.Fs.FileUtil
import Libca.Fs.LexicalPath
import Libca.Str.Lossy

/-!
# `PathUtil::normalize_within`

Model of `normalize_within` (`fs/path_util.cpp`) on POSIX, where no path has a root name and the
branches about root names are not taken. `none` is the exception that a text throws which is not
decoded.

* `normalizeWithin_ok`: what an accepted path is.
* `normalizeWithin_within`: an accepted path leads from the base down, it is accepted again, and a
  path that never leads above the base is accepted.
-/

namespace Libca.Fs

open Common Str

def backslash : UInt8 := 0x5C

/-- `to_unix_separators`. -/
def toUnixSeparators (path : Bytes) : Bytes := path.map fun c => if c = backslash then slash else c

/-- `Path::from_utf8_lossy(to_unix_separators(text)).native()`. -/
def pathOf (text : Bytes) : Option FsPath :=
  (fromUtf8Lossy (toUnixSeparators text)).map FsPath.ofText

/-- The part of `normalize_within` after both paths are normal. -/
def within (path base : FsPath) : Option (Except FsError Bytes) :=
  if path.rootDirectory ≠ base.rootDirectory then some (.error .pathOutsideBase)
  else
    let relative := path.lexicallyRelative base
    if relative = [] then some (.error .pathOutsideBase)
    else if relative.head? = some dotDot then some (.error .pathOutsideBase)
    else (fromUtf8Lossy path.text).map .ok

/-- `normalize_within`. -/
def normalizeWithin (path base : Bytes) : Option (Except FsError Bytes) :=
  if path = [] ∨ base = [] then some (.error .pathOutsideBase)
  else do
    let baseP ← pathOf base
    let pathP ← pathOf path
    within pathP.lexicallyNormal baseP.lexicallyNormal

/-! ## Texts of paths -/

theorem mem_of_mem_filenames {cur text : Bytes} {c : UInt8} {name : Bytes}
    (hname : name ∈ filenames cur text) (hc : c ∈ name) : c ∈ cur ++ text := by
  induction text generalizing cur with
  | nil =>
    rw [filenames_nil] at hname
    split_ifs at hname
    · cases hname
    · rw [List.mem_singleton.mp hname] at hc
      exact List.mem_append_left _ hc
  | cons d text ih =>
    rw [filenames] at hname
    split_ifs at hname with hslash hcur
    · exact List.mem_append_right _ (.tail _ (ih hname))
    · rcases List.mem_cons.mp hname with rfl | hname
      · exact List.mem_append_left _ hc
      · exact List.mem_append_right _ (.tail _ (ih hname))
    · have hmem := ih hname
      rwa [List.append_assoc] at hmem

/-- The filenames of valid text are valid. -/
theorem isUtf8_filenames {cur text : Bytes} (h : IsUtf8 (cur ++ text)) :
    ∀ name ∈ filenames cur text, IsUtf8 name := by
  induction text generalizing cur with
  | nil =>
    rw [List.append_nil] at h
    rw [filenames_nil]
    split_ifs
    · exact List.forall_mem_nil _
    · exact fun name hname => List.mem_singleton.mp hname ▸ h
  | cons d text ih =>
    rw [filenames]
    split_ifs with hslash hcur
    · rw [hslash] at h
      exact ih (h.split (by decide)).2
    · rw [hslash] at h
      obtain ⟨hleft, hright⟩ := h.split (by decide)
      exact List.forall_mem_cons.mpr ⟨hleft, ih hright⟩
    · refine ih ?_
      rwa [List.append_assoc]

theorem isUtf8_slash : IsUtf8 [slash] := isUtf8_of_ascii (by decide)

theorem FsPath.isUtf8_text {p : FsPath} (h : ∀ name ∈ p.names, IsUtf8 name) : IsUtf8 p.text := by
  have hjoin {names : List Bytes} (h : ∀ name ∈ names, IsUtf8 name) : IsUtf8
    ([slash].intercalate names) := by
    induction names with
    | nil => exact isUtf8_nil
    | cons name names ih =>
      obtain ⟨hname, hnames⟩ := List.forall_mem_cons.mp h
      cases names with
      | nil => rwa [List.intercalate_singleton]
      | cons next rest =>
        rw [List.intercalate_cons_cons]
        exact (hname.append isUtf8_slash).append (ih hnames)
  have hflag (b : Bool) : IsUtf8 (if b then [slash] else []) := by
    cases b
    · exact isUtf8_nil
    · exact isUtf8_slash
  exact ((hflag _).append (hjoin h)).append (hflag _)

/-- A byte of the text of a path is a separator, or stands in a filename. -/
theorem FsPath.mem_text {p : FsPath} {c : UInt8} (h : c ∈ p.text) :
    c = slash ∨ ∃ name ∈ p.names, c ∈ name := by
  have hjoin {names : List Bytes} (h : c ∈ [slash].intercalate names) : c = slash ∨ ∃ name ∈ names,
    c ∈ name := by
    induction names with
    | nil => nomatch h
    | cons name names ih =>
      cases names with
      | nil =>
        rw [List.intercalate_singleton] at h
        exact .inr ⟨name, List.mem_cons_self, h⟩
      | cons next rest =>
        rw [List.intercalate_cons_cons] at h
        rcases List.mem_append.mp h with h | h
        · rcases List.mem_append.mp h with h | h
          · exact .inr ⟨name, List.mem_cons_self, h⟩
          · exact .inl (List.mem_singleton.mp h)
        · rcases ih h with hslash | ⟨n, hn, hmem⟩
          · exact .inl hslash
          · exact .inr ⟨n, .tail _ hn, hmem⟩
  have hflag {b : Bool} (h : c ∈ (if b then [slash] else [] : Bytes)) : c = slash := by
    cases b
    · nomatch h
    · exact List.mem_singleton.mp h
  rcases List.mem_append.mp h with h | h
  · rcases List.mem_append.mp h with h | h
    · exact .inl (hflag h)
    · exact hjoin h
  · exact .inl (hflag h)

/-- The filenames of a normal form are those of the path, or a dot. -/
theorem FsPath.mem_lexicallyNormal_names {p : FsPath} {name : Bytes}
    (h : name ∈ p.lexicallyNormal.names) :
    name ∈ p.names ∨ name = dot := by
  by_cases hempty : normalStack p.rootDirectory p.names = [] ∧ p.rootDirectory = false
  · rw [(lexicallyNormal_dot hempty).2.1] at h
    split_ifs at h
    · cases h
    · exact .inr (List.mem_singleton.mp h)
  · rw [(lexicallyNormal_stack hempty).2.1] at h
    rcases mem_foldl_normalStep (List.mem_reverse.mp h) with hmem | hmem
    · cases hmem
    · exact .inl hmem

variable {text path base r : Bytes} {p : FsPath}

theorem pathOf_eq_some : pathOf text = some p ↔
    IsUtf8 (lossyScan (toUnixSeparators text)) ∧ FsPath.ofText (lossyScan (toUnixSeparators text)) =
      p := by
  unfold pathOf
  rw [Option.map_eq_some_iff]
  constructor
  · rintro ⟨decoded, hdecoded, rfl⟩
    obtain ⟨hvalid, rfl⟩ := fromUtf8Lossy_eq_some.mp hdecoded
    exact ⟨hvalid, rfl⟩
  · rintro ⟨hvalid, rfl⟩
    exact ⟨_, fromUtf8Lossy_eq_some.mpr ⟨hvalid, rfl⟩, rfl⟩

theorem backslash_notMem_toUnixSeparators (text : Bytes) : backslash ∉ toUnixSeparators text := by
  intro hmem
  obtain ⟨c, -, hc⟩ := List.mem_map.mp hmem
  split_ifs at hc with heq
  · cases hc
  · exact heq hc

theorem toUnixSeparators_of_notMem (h : backslash ∉ text) : toUnixSeparators text = text := by
  unfold toUnixSeparators
  conv_rhs => rw [← List.map_id text]
  exact List.map_congr_left fun c hc => if_neg (ne_of_mem_of_not_mem hc h)

/-- **The text of a normal form is decoded to that normal form.** -/
theorem pathOf_text (h : pathOf text = some p) :
    fromUtf8Lossy p.lexicallyNormal.text = some p.lexicallyNormal.text ∧
      pathOf p.lexicallyNormal.text = some p.lexicallyNormal := by
  obtain ⟨hvalid, rfl⟩ := pathOf_eq_some.mp h
  have hutf8 : IsUtf8 (FsPath.ofText (lossyScan (toUnixSeparators text))).lexicallyNormal.text := by
    refine FsPath.isUtf8_text fun name hname => ?_
    rcases FsPath.mem_lexicallyNormal_names hname with hmem | rfl
    · exact @isUtf8_filenames [] _ hvalid name hmem
    · exact isUtf8_of_ascii (by decide)
  have hbackslash : backslash ∉
    (FsPath.ofText (lossyScan (toUnixSeparators text))).lexicallyNormal.text := by
    intro hmem
    rcases FsPath.mem_text hmem with hslash | ⟨name, hname, hmem⟩
    · cases hslash
    · rcases FsPath.mem_lexicallyNormal_names hname with hname | rfl
      · have hdecoded := @mem_of_mem_filenames [] _ _ _ hname hmem
        exact backslash_notMem_toUnixSeparators text (mem_of_mem_lossyScan (by decide) hdecoded)
      · exact absurd hmem (by decide)
  refine ⟨fromUtf8Lossy_of_isUtf8 hutf8, ?_⟩
  unfold pathOf
  rw [toUnixSeparators_of_notMem hbackslash, fromUtf8Lossy_of_isUtf8 hutf8, Option.map_some,
    FsPath.ofText_text]

/-! ## What is accepted -/

theorem within_ok (h : pathOf path = some p) {base : FsPath} {q : Bytes} :
    within p.lexicallyNormal base = some (.ok q) ↔ p.lexicallyNormal.rootDirectory =
      base.rootDirectory ∧
      Descends (p.lexicallyNormal.lexicallyRelative base) ∧ q = p.lexicallyNormal.text := by
  unfold within
  rw [(pathOf_text h).1]
  dsimp only
  unfold Descends
  split_ifs with hroot hempty hup
  · exact iff_of_false nofun fun h => hroot h.1
  · exact iff_of_false nofun fun h => h.2.1.1 hempty
  · exact iff_of_false nofun fun h => h.2.1.2 hup
  · rw [Option.map_some]
    constructor
    · intro hok
      obtain rfl := Except.ok.inj (Option.some.inj hok)
      exact ⟨not_not.mp hroot, ⟨hempty, hup⟩, rfl⟩
    · rintro ⟨-, -, rfl⟩
      rfl

/-- **What an accepted path is.** -/
theorem normalizeWithin_ok {q : Bytes} : normalizeWithin path base = some (.ok q) ↔ path ≠ [] ∧
    base ≠ [] ∧
    ∃ p b, pathOf path = some p ∧ pathOf base = some b ∧ p.lexicallyNormal.rootDirectory =
      b.lexicallyNormal.rootDirectory ∧
      Descends (p.lexicallyNormal.lexicallyRelative b.lexicallyNormal) ∧
        q = p.lexicallyNormal.text := by
  unfold normalizeWithin
  split_ifs with hempty
  · refine iff_of_false nofun fun ⟨hpath, hbase, _⟩ => ?_
    exact hempty.elim hpath hbase
  · obtain ⟨hpath, hbase⟩ := not_or.mp hempty
    rw [and_iff_right hpath, and_iff_right hbase, Option.bind_eq_bind, Option.bind_eq_some_iff]
    constructor
    · rintro ⟨b, hb, h⟩
      obtain ⟨p, hp, h⟩ := Option.bind_eq_some_iff.mp h
      exact ⟨p, b, hp, hb, (within_ok hp).mp h⟩
    · rintro ⟨p, b, hp, hb, h⟩
      exact ⟨b, hb, Option.bind_eq_some_iff.mpr ⟨p, hp, (within_ok hp).mpr h⟩⟩

theorem filenames_ne_nil {cur : Bytes} (h : cur ≠ []) (text : Bytes) : filenames cur text ≠ [] := by
  induction text generalizing cur with
  | nil =>
    rw [filenames_nil, if_neg h]
    exact List.cons_ne_nil _ _
  | cons c text ih =>
    rw [filenames, if_neg h]
    split_ifs
    · exact List.cons_ne_nil _ _
    · exact ih (by simp)

/-- A text that is not empty has a root directory or a filename. -/
theorem FsPath.ofText_root_or_names (h : text ≠ []) :
    (FsPath.ofText text).rootDirectory = true ∨ (FsPath.ofText text).names ≠ [] := by
  obtain ⟨c, rest, rfl⟩ := List.exists_cons_of_ne_nil h
  by_cases hslash : c = slash
  · left
    rw [hslash]
    rfl
  · right
    show filenames [] (c :: rest) ≠ []
    rw [filenames, if_neg hslash]
    exact filenames_ne_nil (by simp) rest

theorem toUnixSeparators_ne_nil (h : text ≠ []) : lossyScan (toUnixSeparators text) ≠ [] := by
  rw [Ne, lossyScan_eq_nil, toUnixSeparators, List.map_eq_nil_iff]
  exact h

/-- The text of an accepted path is not empty. -/
theorem text_ne_nil (h : pathOf text = some p) (htext : text ≠ []) : p.lexicallyNormal.text ≠
    [] := by
  obtain ⟨-, rfl⟩ := pathOf_eq_some.mp h
  intro hnil
  have hparts := List.append_eq_nil_iff.mp hnil
  have hroot : (FsPath.ofText (lossyScan (toUnixSeparators text))).lexicallyNormal.rootDirectory =
    false := by
    by_contra hrooted
    rw [Bool.not_eq_false] at hrooted
    have hfirst := (List.append_eq_nil_iff.mp hparts.1).1
    rw [hrooted] at hfirst
    cases hfirst
  rw [FsPath.lexicallyNormal_rootDirectory] at hroot
  have hnames := (FsPath.ofText_root_or_names (toUnixSeparators_ne_nil htext)).resolve_left
    (by rw [hroot]; decide)
  refine intercalate_ne_nil ?_ (fun name hname => (FsPath.names_valid _ name hname).1)
    (List.append_eq_nil_iff.mp hparts.1).2
  by_cases hempty : normalStack (FsPath.ofText (lossyScan (toUnixSeparators text))).rootDirectory
      (FsPath.ofText (lossyScan (toUnixSeparators text))).names = [] ∧
        (FsPath.ofText (lossyScan (toUnixSeparators text))).rootDirectory = false
  · rw [(FsPath.lexicallyNormal_dot hempty).2.1, if_neg hnames]
    nofun
  · rw [(FsPath.lexicallyNormal_stack hempty).2.1]
    exact fun hstack => hempty ⟨List.reverse_eq_nil_iff.mp hstack, hroot⟩

/-- The components of `q` are those of the normal base, followed by some of which none is a dot-dot.
-/
def Extends (q : Bytes) (base : FsPath) : Prop :=
  ∃ more, (FsPath.ofText q).lexicallyNormal.components = base.lexicallyNormal.components ++ more ∧
    dotDot ∉ more

/-- The filenames of a text as it is decoded. -/
def namesOf (text : Bytes) : List Bytes := filenames [] (lossyScan (toUnixSeparators text))

/-- A base, a separator and more are the filenames of both. -/
theorem pathOf_append (hbase : base ≠ []) (h : pathOf (base ++ slash :: r) = some p) :
    ∃ b, pathOf base = some b ∧ p.rootDirectory = b.rootDirectory ∧
      p.names = b.names ++ namesOf r := by
  obtain ⟨hvalid, rfl⟩ := pathOf_eq_some.mp h
  have htext : lossyScan (toUnixSeparators (base ++ slash :: r)) =
      lossyScan (toUnixSeparators base) ++ slash :: lossyScan (toUnixSeparators r) := by
    have hunix : toUnixSeparators (base ++ slash :: r) = toUnixSeparators base ++ slash ::
      toUnixSeparators r :=
      List.map_append
    rw [hunix, lossyScan_append (by decide)]
  rw [htext] at hvalid ⊢
  refine ⟨_, pathOf_eq_some.mpr ⟨(hvalid.split (by decide)).1, rfl⟩, ?_, filenames_append [] _ _⟩
  obtain ⟨c, rest, hcons⟩ := List.exists_cons_of_ne_nil (toUnixSeparators_ne_nil hbase)
  rw [hcons]
  rfl

/-- **An accepted path leads from the base down unless it is misled, it is accepted again, and a
path that never leads above a base is accepted.** -/
theorem normalizeWithin_within (path base r q : Bytes) :
    (normalizeWithin path base = some (.ok q) → normalizeWithin q base = some (.ok q) ∧
      ∃ p b, pathOf path = some p ∧ pathOf base = some b ∧
        (¬ Misled p.lexicallyNormal b.lexicallyNormal → Extends q b)) ∧
    (base ≠ [] → pathOf (base ++ slash :: r) ≠ none → NeverAbove (namesOf r) →
      ∃ q, normalizeWithin (base ++ slash :: r) base = some (.ok q)) := by
  constructor
  · intro hok
    obtain ⟨hpath, hbase, p, b, hp, hb, hroot, hdescends, rfl⟩ := normalizeWithin_ok.mp hok
    have hnormal := FsPath.lexicallyNormal_lexicallyNormal p
    refine ⟨?_, p, b, hp, hb, fun hmisled => ?_⟩
    · refine normalizeWithin_ok.mpr ⟨text_ne_nil hp hpath, hbase, p.lexicallyNormal, b,
        (pathOf_text hp).2, hb, ?_⟩
      rw [hnormal]
      exact ⟨hroot, hdescends, rfl⟩
    · unfold Extends
      rw [FsPath.ofText_text, hnormal]
      exact FsPath.extends_of_descends hdescends hmisled
  · intro hbase hdecoded hmore
    obtain ⟨p, hp⟩ := Option.ne_none_iff_exists'.mp hdecoded
    obtain ⟨b, hb, hroot, hnames⟩ := pathOf_append hbase hp
    have hsome : b.rootDirectory = true ∨ b.names ≠ [] := by
      obtain ⟨-, rfl⟩ := pathOf_eq_some.mp hb
      exact FsPath.ofText_root_or_names (toUnixSeparators_ne_nil hbase)
    refine ⟨_, normalizeWithin_ok.mpr ⟨by simp, hbase, p, b, hp, hb, ?_, ?_, rfl⟩⟩
    · rw [FsPath.lexicallyNormal_rootDirectory, FsPath.lexicallyNormal_rootDirectory, hroot]
    · exact FsPath.descends_of_neverAbove hroot hnames hmore hsome

/-- A file in a directory that is given by its absolute path. -/
theorem normalizeWithin_within_tmp :
    normalizeWithin (ascii "/tmp/a") (ascii "/tmp") = some (.ok (ascii "/tmp/a")) ∧
    (∃ b, pathOf (ascii "/tmp") = some b ∧ Extends (ascii "/tmp/a") b) ∧
    ∃ q, normalizeWithin (ascii "/tmp" ++ slash :: ascii "a") (ascii "/tmp") = some (.ok q) := by
  obtain ⟨hkept, haccepted⟩ :=
    normalizeWithin_within (ascii "/tmp/a") (ascii "/tmp") (ascii "a") (ascii "/tmp/a")
  obtain ⟨hagain, p, b, hp, hb, hextends⟩ := hkept (by decide +kernel)
  refine ⟨hagain, ⟨b, hb, hextends fun hmisled => ?_⟩, haccepted (by decide) (by decide +kernel) ?_⟩
  · obtain ⟨-, rfl⟩ := pathOf_eq_some.mp hb
    exact absurd hmisled.relative_base (by decide +kernel)
  · intro before hbefore
    have hnone : (namesOf (ascii "a")).count dotDot ≤ 0 := by decide +kernel
    exact ((hbefore.sublist.count_le dotDot).trans hnone).trans (Nat.zero_le _)

/-- An empty base is refused; a base that goes up before it goes down takes in a path beside it; and
a text of an overlong sequence throws. -/
theorem not_normalizeWithin_within :
    normalizeWithin (ascii "/a") [] = some (.error .pathOutsideBase) ∧
      (normalizeWithin (ascii "b") (ascii "../a") = some (.ok (ascii "b")) ∧
        ¬ Extends (ascii "b") (FsPath.ofText (ascii "../a"))) ∧
      normalizeWithin [0x61, slash, 0xC0, 0xAF] [0x61] = none := by
  refine ⟨rfl, ⟨by decide, ?_⟩, by decide +kernel⟩
  rintro ⟨more, hmore, -⟩
  have hpath : (FsPath.ofText (ascii "b")).lexicallyNormal.components = [ascii "b"] := by decide
  have hbase : (FsPath.ofText (ascii "../a")).lexicallyNormal.components = [dotDot, ascii "a"] := by
    decide
  rw [hpath, hbase] at hmore
  have hhead : ascii "b" = dotDot := (List.cons_eq_cons.mp hmore).1
  cases hhead

end Libca.Fs
