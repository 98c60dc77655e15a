import Libca.Common.Bytes
import Mathlib.Data.List.DropRight

/-!
# Pathnames (`fs/path_util.cpp`)

The lexical functions of `std::filesystem::path` on POSIX, where a path has no root name: the
decomposition into a root directory and filenames, the normal form, and the path of one relative to
another.

Left out: root names.

* `FsPath`: a path, whose filenames are not empty and hold no separator.
* `FsPath.ofText_text`: the text of a path is that path.
* `FsPath.lexicallyNormal_lexicallyNormal`: the normal form of a normal form.
-/

namespace Libca.Fs

open Common

def slash : UInt8 := 0x2F

def dot : Bytes := ascii "."

def dotDot : Bytes := ascii ".."

/-- `std::filesystem::path`: a root directory, filenames, and a separator at the end. -/
@[ext]
structure FsPath where
  rootDirectory : Bool
  names : List Bytes
  trailing : Bool
  names_valid : ∀ name ∈ names, name ≠ [] ∧ slash ∉ name
  trailing_valid : trailing = true → names ≠ []

/-! ## Text -/

/-- The filenames of a text, after the beginning `cur` of one. -/
def filenames : Bytes → Bytes → List Bytes
  | cur, [] => if cur = [] then [] else [cur]
  | cur, c :: text =>
    if c = slash then (if cur = [] then filenames [] text else cur :: filenames [] text)
    else filenames (cur ++ [c]) text

theorem filenames_valid {cur text : Bytes} (hcur : slash ∉ cur) :
    ∀ name ∈ filenames cur text, name ≠ [] ∧ slash ∉ name := by
  induction text generalizing cur with
  | nil =>
    unfold filenames
    split_ifs with hnil
    · nofun
    · intro name hname
      rw [List.mem_singleton.mp hname]
      exact ⟨hnil, hcur⟩
  | cons c text ih =>
    unfold filenames
    split_ifs with hslash hnil
    · exact ih List.not_mem_nil
    · exact List.forall_mem_cons.mpr ⟨⟨hnil, hcur⟩, ih List.not_mem_nil⟩
    · refine ih fun hmem => ?_
      rcases List.mem_append.mp hmem with hmem | hmem
      · exact hcur hmem
      · exact hslash (List.mem_singleton.mp hmem).symm

/-- The path of a text. -/
def FsPath.ofText (text : Bytes) : FsPath where
  rootDirectory := text.head? == some slash
  names := filenames [] text
  trailing := decide (filenames [] text ≠ []) && text.getLast? == some slash
  names_valid := filenames_valid List.not_mem_nil
  trailing_valid h := of_decide_eq_true (Bool.and_eq_true_iff.mp h).1

/-- `generic_string`. -/
def FsPath.text (p : FsPath) : Bytes :=
  (if p.rootDirectory then [slash] else []) ++ [slash].intercalate p.names ++ if p.trailing then
    [slash] else []

/-- The elements of an iteration from `begin` to `end`. -/
def FsPath.elements (p : FsPath) : List Bytes :=
  (if p.rootDirectory then [[slash]] else []) ++ p.names ++ if p.trailing then [[]] else []

/-! ## Normal form -/

/-- One filename, after those that are kept so far, the last one first. -/
def normalStep (rootDirectory : Bool) (stack : List Bytes) (name : Bytes) : List Bytes :=
  if name = dot then stack
  else if name = dotDot then
    match stack with
    | [] => if rootDirectory then [] else [dotDot]
    | top :: below => if top = dotDot then dotDot :: stack else below
  else name :: stack

/-- The filenames of a normal form, the last one first. -/
def normalStack (rootDirectory : Bool) (names : List Bytes) : List Bytes :=
  names.foldl (normalStep rootDirectory) []

variable {stack : List Bytes} {name : Bytes}

theorem mem_normalStep {rootDirectory : Bool} {n : Bytes}
    (h : n ∈ normalStep rootDirectory stack name) : n ∈ stack ∨ n = name := by
  unfold normalStep at h
  by_cases hdot : name = dot
  · rw [if_pos hdot] at h
    exact .inl h
  · rw [if_neg hdot] at h
    by_cases hdotDot : name = dotDot
    · rw [if_pos hdotDot] at h
      cases stack with
      | nil =>
        cases rootDirectory with
        | true => nomatch h
        | false =>
          rw [List.mem_singleton.mp h]
          exact .inr hdotDot.symm
      | cons top below =>
        dsimp only at h
        split_ifs at h with htop
        · rcases List.mem_cons.mp h with h | h
          · rw [h]
            exact .inr hdotDot.symm
          · exact .inl h
        · exact .inl (.tail _ h)
    · rw [if_neg hdotDot] at h
      exact (List.mem_cons.mp h).symm

variable {names : List Bytes}

theorem mem_foldl_normalStep {rootDirectory : Bool} {n : Bytes}
    (h : n ∈ names.foldl (normalStep rootDirectory) stack) : n ∈ stack ∨ n ∈ names := by
  induction names generalizing stack with
  | nil => exact .inl h
  | cons name names ih =>
    rcases ih h with h | h
    · rcases mem_normalStep h with h | rfl
      · exact .inl h
      · exact .inr List.mem_cons_self
    · exact .inr (.tail _ h)

/-- A filename at the end of a normal form keeps the separator after it: the one of the path, or the
one in front of a last filename that was removed. -/
def normalTrailing (p : FsPath) (stack : List Bytes) : Bool :=
  match stack with
  | [] => false
  | top :: _ =>
    top ≠ dotDot && (p.trailing || p.names.getLast? == some dot || p.names.getLast? == some dotDot)

/-- `lexically_normal`. -/
def FsPath.lexicallyNormal (p : FsPath) : FsPath :=
  if h : normalStack p.rootDirectory p.names = [] ∧ p.rootDirectory = false then
    { rootDirectory := false
      names := if p.names = [] then [] else [dot]
      trailing := false
      names_valid := by
        intro name hname
        split_ifs at hname
        · nomatch hname
        · rw [List.mem_singleton.mp hname]
          decide
      trailing_valid := nofun }
  else
    { rootDirectory := p.rootDirectory
      names := (normalStack p.rootDirectory p.names).reverse
      trailing := normalTrailing p (normalStack p.rootDirectory p.names)
      names_valid := by
        intro name hname
        rcases mem_foldl_normalStep (List.mem_reverse.mp hname) with hmem | hmem
        · nomatch hmem
        · exact p.names_valid name hmem
      trailing_valid := by
        unfold normalTrailing
        cases hstack : normalStack p.rootDirectory p.names with
        | nil => nofun
        | cons top below => simp }

/-! ## Relative paths -/

/-- `std::mismatch`: what is left of two lists after what they begin with alike. -/
def mismatch : List Bytes → List Bytes → List Bytes × List Bytes
  | a :: as, b :: bs => if a = b then mismatch as bs else (a :: as, b :: bs)
  | as, bs => (as, bs)

/-- A filename that leads down. -/
def isProper (name : Bytes) : Bool := name != [] && name != dot && name != dotDot

/-- How far elements lead down: those that are no dot, dot-dot or empty, without those that are
dot-dot. -/
def depth (elements : List Bytes) : Int := (elements.countP isProper : Int) - elements.count dotDot

/-- The elements of `lexically_relative`; there are none where it returns the empty path. -/
def FsPath.lexicallyRelative (p base : FsPath) : List Bytes :=
  if p.rootDirectory ≠ base.rootDirectory then []
  else
    let (a, b) := mismatch p.elements base.elements
    if a = [] ∧ b = [] then [dot]
    else
      let n := depth b
      if n < 0 then []
      else if n = 0 ∧ (a = [] ∨ a.head? = some []) then [dot]
      else List.replicate n.toNat dotDot ++ a

/-! ## The text of a path -/

theorem filenames_nil (cur : Bytes) : filenames cur [] = if cur = [] then [] else [cur] := rfl

theorem filenames_slash (cur text : Bytes) :
    filenames cur (slash :: text) = if cur = [] then filenames [] text
      else cur :: filenames [] text := rfl

theorem filenames_append (cur as bs : Bytes) :
    filenames cur (as ++ slash :: bs) = filenames cur as ++ filenames [] bs := by
  induction as generalizing cur with
  | nil =>
    rw [List.nil_append, filenames_slash, filenames_nil]
    split_ifs <;> rfl
  | cons c as ih =>
    rw [List.cons_append, filenames, filenames]
    split_ifs with hslash hnil
    · exact ih []
    · rw [ih [], List.cons_append]
    · exact ih _

theorem filenames_of_notMem {cur : Bytes} (h : slash ∉ name) :
    filenames cur name = if cur ++ name = [] then [] else [cur ++ name] := by
  induction name generalizing cur with
  | nil => rw [List.append_nil, filenames]
  | cons c name ih =>
    obtain ⟨hc, hname⟩ := not_or.mp (mt List.mem_cons.mpr h)
    rw [filenames, if_neg (Ne.symm hc), ih hname, List.append_assoc, List.singleton_append]

theorem filenames_name (h : name ≠ [] ∧ slash ∉ name) : filenames [] name = [name] := by
  rw [filenames_of_notMem h.2, List.nil_append, if_neg h.1]

theorem filenames_intercalate (h : ∀ name ∈ names, name ≠ [] ∧ slash ∉ name) :
    filenames [] ([slash].intercalate names) = names := by
  induction names with
  | nil => rfl
  | cons name names ih =>
    obtain ⟨hname, hnames⟩ := List.forall_mem_cons.mp h
    cases names with
    | nil => rw [List.intercalate_singleton, filenames_name hname]
    | cons next rest =>
      rw [List.intercalate_cons_cons, List.append_assoc, List.singleton_append, filenames_append,
        filenames_name hname, ih hnames, List.singleton_append]

theorem FsPath.filenames_text (p : FsPath) : filenames [] p.text = p.names := by
  have hend : filenames [] ([slash].intercalate p.names ++ if p.trailing then [slash] else []) =
    p.names := by
    split_ifs
    · rw [filenames_append, filenames_intercalate p.names_valid]
      exact List.append_nil _
    · rw [List.append_nil, filenames_intercalate p.names_valid]
  unfold FsPath.text
  rw [List.append_assoc]
  split_ifs at hend ⊢ <;> exact hend

theorem intercalate_ne_nil (hnames : names ≠ []) (h : ∀ name ∈ names, name ≠ []) :
    [slash].intercalate names ≠ [] := by
  obtain ⟨name, names, rfl⟩ := List.exists_cons_of_ne_nil hnames
  have hname := h name List.mem_cons_self
  cases names with
  | nil =>
    rw [List.intercalate_singleton]
    exact hname
  | cons next rest =>
    rw [List.intercalate_cons_cons]
    simp [hname]

/-- The text of filenames begins and ends with no separator. -/
theorem head?_intercalate (h : ∀ name ∈ names, name ≠ [] ∧ slash ∉ name) :
    ([slash].intercalate names).head? ≠ some slash := by
  cases names with
  | nil => nofun
  | cons name names =>
    obtain ⟨⟨hne, hslash⟩, -⟩ := List.forall_mem_cons.mp h
    obtain ⟨c, name, rfl⟩ := List.exists_cons_of_ne_nil hne
    have hc : c ≠ slash := fun hc => hslash (hc ▸ List.mem_cons_self)
    cases names with
    | nil =>
      rw [List.intercalate_singleton, List.head?_cons]
      exact fun heq => hc (Option.some.inj heq)
    | cons next rest =>
      rw [List.intercalate_cons_cons, List.cons_append, List.cons_append, List.head?_cons]
      exact fun heq => hc (Option.some.inj heq)

theorem getLast?_intercalate (h : ∀ name ∈ names, name ≠ [] ∧ slash ∉ name) :
    ([slash].intercalate names).getLast? ≠ some slash := by
  induction names with
  | nil => nofun
  | cons name names ih =>
    obtain ⟨⟨hne, hslash⟩, hnames⟩ := List.forall_mem_cons.mp h
    cases names with
    | nil =>
      rw [List.intercalate_singleton]
      exact fun heq => hslash (List.mem_of_getLast? heq)
    | cons next rest =>
      have htail : [slash].intercalate (next :: rest) ≠ [] :=
        intercalate_ne_nil nofun fun name hname => (hnames name hname).1
      rw [List.intercalate_cons_cons, List.append_assoc, List.getLast?_append_of_ne_nil _ (by simp),
        List.getLast?_append_of_ne_nil _ htail]
      exact ih hnames

/-- **The text of a path is that path.** -/
theorem FsPath.ofText_text (p : FsPath) : FsPath.ofText p.text = p := by
  have hhead := head?_intercalate p.names_valid
  have hlast := getLast?_intercalate p.names_valid
  refine FsPath.ext ?_ p.filenames_text ?_
  · show (p.text.head? == some slash) = p.rootDirectory
    unfold FsPath.text
    cases hroot : p.rootDirectory with
    | true => simp
    | false =>
      cases htrailing : p.trailing with
      | false => simpa using hhead
      | true =>
        have hne := intercalate_ne_nil (p.trailing_valid htrailing) fun name hname =>
          (p.names_valid name hname).1
        obtain ⟨c, cs, hcons⟩ := List.exists_cons_of_ne_nil hne
        rw [hcons] at hhead ⊢
        simpa using hhead
  · show (decide (filenames [] p.text ≠ []) && p.text.getLast? == some slash) = p.trailing
    rw [p.filenames_text]
    unfold FsPath.text
    cases htrailing : p.trailing with
    | true => simp [p.trailing_valid htrailing]
    | false =>
      by_cases hnames : p.names = []
      · simp [hnames]
      · have hne := intercalate_ne_nil hnames fun name hname => (p.names_valid name hname).1
        rw [if_neg Bool.false_ne_true, List.append_nil, List.getLast?_append_of_ne_nil _ hne]
        simpa [hnames] using hlast

/-! ## The normal form of a normal form -/

/-- A stack of dot-dots, and of filenames that lead down. -/
def NormalStack (rootDirectory : Bool) (stack : List Bytes) : Prop :=
  ∃ up down, stack = down ++ List.replicate up dotDot ∧
    (∀ name ∈ down, name ≠ dot ∧ name ≠ dotDot) ∧ (rootDirectory = true → up = 0)

variable {rootDirectory : Bool}

theorem NormalStack.ne_dot (h : NormalStack rootDirectory stack) (hname : name ∈ stack) :
    name ≠ dot := by
  obtain ⟨up, down, rfl, hproper, -⟩ := h
  rcases List.mem_append.mp hname with hname | hname
  · exact (hproper name hname).1
  · rw [List.eq_of_mem_replicate hname]
    decide

theorem normalStep_normal (h : NormalStack rootDirectory stack) (name : Bytes) :
    NormalStack rootDirectory (normalStep rootDirectory stack name) := by
  obtain ⟨up, down, rfl, hproper, hroot⟩ := h
  unfold normalStep
  by_cases hdot : name = dot
  · rw [if_pos hdot]
    exact ⟨up, down, rfl, hproper, hroot⟩
  · rw [if_neg hdot]
    by_cases hdotDot : name = dotDot
    · rw [if_pos hdotDot]
      cases down with
      | cons top down =>
        obtain ⟨htop, hdown⟩ := List.forall_mem_cons.mp hproper
        rw [List.cons_append]
        dsimp only
        rw [if_neg htop.2]
        exact ⟨up, down, rfl, hdown, hroot⟩
      | nil =>
        rw [List.nil_append]
        cases rootDirectory with
        | true =>
          rw [hroot rfl]
          exact ⟨0, [], rfl, nofun, fun _ => rfl⟩
        | false =>
          refine ⟨up + 1, [], ?_, nofun, nofun⟩
          cases up with
          | zero => rfl
          | succ up =>
            rw [List.replicate_succ]
            exact if_pos rfl
    · rw [if_neg hdotDot]
      exact ⟨up, name :: down, rfl, List.forall_mem_cons.mpr ⟨⟨hdot, hdotDot⟩, hproper⟩, hroot⟩

theorem foldl_normalStep_normal (h : NormalStack rootDirectory stack) (names : List Bytes) :
    NormalStack rootDirectory (names.foldl (normalStep rootDirectory) stack) := by
  induction names generalizing stack with
  | nil => exact h
  | cons name names ih => exact ih (normalStep_normal h name)

theorem normalStack_normal (names : List Bytes) :
    NormalStack rootDirectory (normalStack rootDirectory names) :=
  foldl_normalStep_normal ⟨0, [], rfl, nofun, fun _ => rfl⟩ names

/-- Filenames that lead down are kept. -/
theorem foldl_normalStep_proper (h : ∀ name ∈ names, name ≠ dot ∧ name ≠ dotDot)
    (stack : List Bytes) : names.foldl (normalStep rootDirectory) stack = names.reverse ++
      stack := by
  induction names generalizing stack with
  | nil => rfl
  | cons name names ih =>
    obtain ⟨⟨hdot, hdotDot⟩, hnames⟩ := List.forall_mem_cons.mp h
    have hstep : normalStep rootDirectory stack name = name :: stack := by
      unfold normalStep
      rw [if_neg hdot, if_neg hdotDot]
    rw [List.foldl_cons, hstep, ih hnames, List.reverse_cons, List.append_assoc,
      List.singleton_append]

/-- Dot-dots at the front of a relative path are kept. -/
theorem foldl_normalStep_dotDot (n up : Nat) : (List.replicate n dotDot).foldl (normalStep false)
    (List.replicate up dotDot) = List.replicate (n + up) dotDot := by
  induction n generalizing up with
  | zero => rw [Nat.zero_add]; rfl
  | succ n ih =>
    have hstep : normalStep false (List.replicate up dotDot) dotDot =
      List.replicate (up + 1) dotDot := by
      cases up with
      | zero => rfl
      | succ up => rfl
    rw [List.replicate_succ, List.foldl_cons, hstep, ih, Nat.add_right_comm, Nat.add_assoc]

/-- **The filenames of a normal form are kept.** -/
theorem normalStack_reverse (h : NormalStack rootDirectory stack) :
    normalStack rootDirectory stack.reverse = stack := by
  obtain ⟨up, down, rfl, hproper, hroot⟩ := h
  have hdown : down.reverse.foldl (normalStep rootDirectory) (List.replicate up dotDot) =
      down.reverse.reverse ++ List.replicate up dotDot :=
    foldl_normalStep_proper (fun name hname => hproper name (List.mem_reverse.mp hname)) _
  unfold normalStack
  rw [List.reverse_append, List.reverse_replicate, List.foldl_append]
  cases rootDirectory with
  | true =>
    rw [hroot rfl] at hdown ⊢
    rw [List.reverse_reverse] at hdown
    exact hdown
  | false =>
    have hup := foldl_normalStep_dotDot up 0
    rw [List.replicate_zero, Nat.add_zero] at hup
    rw [hup, hdown, List.reverse_reverse]

variable {p : FsPath}

theorem FsPath.lexicallyNormal_dot (h : normalStack p.rootDirectory p.names = [] ∧
      p.rootDirectory = false) :
    p.lexicallyNormal.rootDirectory = false ∧ p.lexicallyNormal.names = (if p.names = [] then
      [] else [dot]) ∧ p.lexicallyNormal.trailing = false := by
  unfold FsPath.lexicallyNormal
  rw [dif_pos h]
  exact ⟨rfl, rfl, rfl⟩

theorem FsPath.lexicallyNormal_stack
    (h : ¬ (normalStack p.rootDirectory p.names = [] ∧ p.rootDirectory = false)) :
    p.lexicallyNormal.rootDirectory = p.rootDirectory ∧
      p.lexicallyNormal.names = (normalStack p.rootDirectory p.names).reverse ∧
        p.lexicallyNormal.trailing = normalTrailing p (normalStack p.rootDirectory p.names) := by
  unfold FsPath.lexicallyNormal
  rw [dif_neg h]
  exact ⟨rfl, rfl, rfl⟩

@[simp] theorem FsPath.lexicallyNormal_rootDirectory (p : FsPath) :
    p.lexicallyNormal.rootDirectory = p.rootDirectory := by
  by_cases h : normalStack p.rootDirectory p.names = [] ∧ p.rootDirectory = false
  · rw [(lexicallyNormal_dot h).1, h.2]
  · exact (lexicallyNormal_stack h).1

/-- **A normal form is its own normal form.** -/
theorem FsPath.lexicallyNormal_lexicallyNormal (p : FsPath) :
    p.lexicallyNormal.lexicallyNormal = p.lexicallyNormal := by
  by_cases h : normalStack p.rootDirectory p.names = [] ∧ p.rootDirectory = false
  · obtain ⟨hroot, hnames, htrailing⟩ := lexicallyNormal_dot h
    have hstack : normalStack p.lexicallyNormal.rootDirectory p.lexicallyNormal.names = [] := by
      rw [hnames]
      split_ifs <;> rfl
    obtain ⟨hroot', hnames', htrailing'⟩ := lexicallyNormal_dot ⟨hstack, hroot⟩
    refine FsPath.ext (by rw [hroot', hroot]) ?_ (by rw [htrailing', htrailing])
    rw [hnames', hnames]
    by_cases hempty : p.names = []
    · rw [if_pos hempty, if_pos rfl]
    · rw [if_neg hempty, if_neg nofun]
  · obtain ⟨hroot, hnames, htrailing⟩ := lexicallyNormal_stack h
    have hstack : normalStack p.lexicallyNormal.rootDirectory p.lexicallyNormal.names =
        normalStack p.rootDirectory p.names := by
      rw [hnames, hroot, normalStack_reverse (normalStack_normal p.names)]
    have h' : ¬ (normalStack p.lexicallyNormal.rootDirectory p.lexicallyNormal.names = [] ∧
        p.lexicallyNormal.rootDirectory = false) := by
      rw [hstack, hroot]
      exact h
    obtain ⟨hroot', hnames', htrailing'⟩ := lexicallyNormal_stack h'
    refine FsPath.ext hroot' (by rw [hnames', hstack, hnames]) ?_
    rw [htrailing', hstack]
    have hnormal := @normalStack_normal p.rootDirectory p.names
    cases hcons : normalStack p.rootDirectory p.names with
    | nil =>
      rw [hcons] at htrailing
      exact htrailing.symm
    | cons top below =>
      rw [hcons] at htrailing hnames hnormal
      have hlast : p.lexicallyNormal.names.getLast? = some top := by
        rw [hnames, List.getLast?_reverse, List.head?_cons]
      have htop : (some top == some dot) = false := by
        rw [Option.some_beq_some]
        exact beq_false_of_ne (hnormal.ne_dot List.mem_cons_self)
      unfold normalTrailing
      rw [hlast, htop, Option.some_beq_some, Bool.or_false]
      by_cases hdotDot : top = dotDot
      · rw [htrailing, normalTrailing]
        simp [hdotDot]
      · simp [hdotDot]

/-! ## The elements of a normal form -/

/-- The elements that are neither empty nor a dot. -/
def FsPath.components (p : FsPath) : List Bytes := p.elements.filter fun e => e != [] && e != dot

/-- Dot-dots are in front of everything else in a normal form, and a root directory has none. -/
theorem FsPath.elements_lexicallyNormal (p : FsPath) : ∃ up rest,
    p.lexicallyNormal.elements = List.replicate up dotDot ++ rest ∧ dotDot ∉ rest ∧
      (p.rootDirectory = true → up = 0) := by
  unfold FsPath.elements
  rw [p.lexicallyNormal_rootDirectory]
  have hend : dotDot ∉ (if p.lexicallyNormal.trailing then [[]] else [] : List Bytes) := by
    split_ifs <;> decide
  by_cases h : normalStack p.rootDirectory p.names = [] ∧ p.rootDirectory = false
  · obtain ⟨-, hnames, -⟩ := lexicallyNormal_dot h
    refine ⟨0, _, rfl, ?_, fun _ => rfl⟩
    rw [h.2, hnames]
    split_ifs <;> decide
  · obtain ⟨-, hnames, -⟩ := lexicallyNormal_stack h
    obtain ⟨up, down, heq, hproper, hroot⟩ := @normalStack_normal p.rootDirectory p.names
    have hdown : dotDot ∉ down.reverse := fun hmem => (hproper _ (List.mem_reverse.mp hmem)).2 rfl
    rw [hnames, heq, List.reverse_append, List.reverse_replicate]
    generalize (if p.lexicallyNormal.trailing then [[]] else [] : List Bytes) = trail at hend ⊢
    have hrest : dotDot ∉ down.reverse ++ trail :=
      fun hmem => (List.mem_append.mp hmem).elim hdown hend
    cases hrooted : p.rootDirectory with
    | true =>
      rw [hroot hrooted, if_pos rfl, List.replicate_zero, List.nil_append]
      refine ⟨0, [slash] :: (down.reverse ++ trail), by simp, fun hmem => ?_, fun _ => rfl⟩
      rcases List.mem_cons.mp hmem with hmem | hmem
      · cases hmem
      · exact hrest hmem
    | false =>
      rw [if_neg Bool.false_ne_true, List.nil_append, List.append_assoc]
      exact ⟨up, down.reverse ++ trail, rfl, hrest, nofun⟩

/-- A part of elements that has a dot-dot begins within those at the front. -/
theorem eq_replicate_of_append {c b rest : List Bytes} {up : Nat}
    (h : c ++ b = List.replicate up dotDot ++ rest) (hrest : dotDot ∉ rest) (hb : dotDot ∈ b) :
    ∃ i, i < up ∧ c = List.replicate i dotDot ∧ b = List.replicate (up - i) dotDot ++ rest := by
  rcases List.append_eq_append_iff.mp h with ⟨more, hup, rfl⟩ | ⟨more, rfl, rfl⟩
  · have hlength := congrArg List.length hup
    rw [List.length_replicate, List.length_append] at hlength
    obtain ⟨hc, hmore⟩ := List.append_eq_replicate_iff.mp hup.symm |>.2
    refine ⟨c.length, ?_, hc, ?_⟩
    · rcases Nat.eq_zero_or_pos more.length with hzero | hpos
      · rw [List.length_eq_zero_iff.mp hzero, List.nil_append] at hb
        exact absurd hb hrest
      · omega
    · rw [hlength, Nat.add_sub_cancel_left]
      exact congrArg (· ++ rest) hmore
  · exact absurd (List.mem_append_right _ hb) hrest

/-! ## Relative paths -/

theorem mismatch_append (c as bs : List Bytes) : mismatch (c ++ as) (c ++ bs) = mismatch as bs := by
  induction c with
  | nil => rfl
  | cons x c ih =>
    rw [List.cons_append, List.cons_append, mismatch, if_pos rfl, ih]

theorem mismatch_spec (as bs : List Bytes) :
    ∃ c, as = c ++ (mismatch as bs).1 ∧ bs = c ++ (mismatch as bs).2 := by
  induction as generalizing bs with
  | nil => exact ⟨[], by unfold mismatch; rfl, by unfold mismatch; rfl⟩
  | cons a as ih =>
    cases bs with
    | nil => exact ⟨[], rfl, rfl⟩
    | cons b bs =>
      rw [mismatch]
      split_ifs with heq
      · obtain ⟨c, has, hbs⟩ := ih bs
        exact ⟨a :: c, congrArg (a :: ·) has, by rw [← heq]; exact congrArg (a :: ·) hbs⟩
      · exact ⟨[], rfl, rfl⟩

/-- A relative path that is there and does not begin with a dot-dot. -/
def Descends (relative : List Bytes) : Prop := relative ≠ [] ∧ relative.head? ≠ some dotDot

instance (relative : List Bytes) : Decidable (Descends relative) :=
  inferInstanceAs (Decidable (_ ∧ _))

variable {base : FsPath}

/-- **What a descending relative path says.** -/
theorem FsPath.descends_lexicallyRelative (h : Descends (p.lexicallyRelative base)) :
    p.rootDirectory = base.rootDirectory ∧ ∃ c a b, p.elements = c ++ a ∧ base.elements = c ++ b ∧
      depth b = 0 ∧ a.head? ≠ some dotDot := by
  unfold FsPath.lexicallyRelative at h
  by_cases hroot : p.rootDirectory ≠ base.rootDirectory
  · rw [if_pos hroot] at h
    exact absurd rfl h.1
  · rw [if_neg hroot] at h
    refine ⟨not_not.mp hroot, ?_⟩
    obtain ⟨c, ha, hb⟩ := mismatch_spec p.elements base.elements
    generalize mismatch p.elements base.elements = ab at h ha hb
    obtain ⟨a, b⟩ := ab
    refine ⟨c, a, b, ha, hb, ?_⟩
    dsimp only at h
    split_ifs at h with hend hneg hzero
    · rw [hend.1, hend.2]
      exact ⟨rfl, nofun⟩
    · exact absurd rfl h.1
    · refine ⟨hzero.1, ?_⟩
      rcases hzero.2 with hnil | hempty
      · rw [hnil]
        nofun
      · rw [hempty]
        decide
    · rcases Int.lt_or_eq_of_le (Int.not_lt.mp hneg) with hpos | hzero'
      · obtain ⟨n, hn⟩ : ∃ n, (depth b).toNat = n + 1 := ⟨(depth b).toNat - 1, by omega⟩
        rw [hn, List.replicate_succ, List.cons_append] at h
        exact absurd rfl h.2
      · refine ⟨hzero'.symm, ?_⟩
        rw [← hzero'] at h
        exact h.2

/-- The base goes up, and then down as many filenames as the path goes up less often:
`lexically_relative` takes the path to be below the base. -/
structure Misled (p base : FsPath) : Prop where
  relative : p.rootDirectory = false
  relative_base : base.rootDirectory = false
  down : 1 ≤ base.elements.countP isProper
  up : p.elements.count dotDot + base.elements.countP isProper = base.elements.count dotDot

theorem depth_eq_zero {elements : List Bytes} (h : depth elements = 0) :
    elements.countP isProper = elements.count dotDot := by
  unfold depth at h
  omega

theorem countP_replicate_dotDot (n : Nat) : (List.replicate n dotDot).countP isProper = 0 := by
  rw [List.countP_replicate, if_neg (by decide)]

/-- Elements that lead neither up nor down. -/
theorem filter_eq_nil_of_depth {b : List Bytes} (hb : dotDot ∉ b) (h : depth b = 0) :
    b.filter (fun e => e != [] && e != dot) = [] := by
  have hcount := depth_eq_zero h
  rw [List.count_eq_zero.mpr hb, List.countP_eq_zero] at hcount
  refine List.filter_eq_nil_iff.mpr fun e he htrue => hcount e he ?_
  have hne : e ≠ dotDot := ne_of_mem_of_not_mem he hb
  simpa [isProper, hne] using htrue

/-- **A descending relative path leads from the base down, unless it is misled.** -/
theorem FsPath.extends_of_descends
    (h : Descends (p.lexicallyNormal.lexicallyRelative base.lexicallyNormal))
    (hmisled : ¬ Misled p.lexicallyNormal base.lexicallyNormal) :
    ∃ more, p.lexicallyNormal.components = base.lexicallyNormal.components ++ more ∧
      dotDot ∉ more := by
  obtain ⟨hroot, c, a, b, hp, hbase, hdepth, hhead⟩ := descends_lexicallyRelative h
  obtain ⟨upP, restP, hpElements, hrestP, -⟩ := p.elements_lexicallyNormal
  obtain ⟨up, rest, hbElements, hrest, hrooted⟩ := base.elements_lexicallyNormal
  have ha : dotDot ∉ a := by
    intro hmem
    obtain ⟨i, hi, -, ha⟩ := eq_replicate_of_append (hp.symm.trans hpElements) hrestP hmem
    obtain ⟨n, hn⟩ : ∃ n, upP - i = n + 1 := ⟨upP - i - 1, by omega⟩
    rw [ha, hn] at hhead
    exact hhead rfl
  by_cases hb : dotDot ∈ b
  · exfalso
    obtain ⟨i, hi, hc, hb'⟩ := eq_replicate_of_append (hbase.symm.trans hbElements) hrest hb
    have hbaseRoot : base.rootDirectory = false := by
      cases hcase : base.rootDirectory with
      | false => rfl
      | true => exact absurd (hrooted hcase) (by omega)
    have hcount := depth_eq_zero hdepth
    rw [hb', List.countP_append, List.count_append, countP_replicate_dotDot,
      List.count_replicate_self, List.count_eq_zero.mpr hrest, Nat.zero_add, Nat.add_zero] at hcount
    rw [p.lexicallyNormal_rootDirectory, base.lexicallyNormal_rootDirectory] at hroot
    refine hmisled ⟨?_, ?_, ?_, ?_⟩
    · rw [p.lexicallyNormal_rootDirectory, hroot, hbaseRoot]
    · rw [base.lexicallyNormal_rootDirectory, hbaseRoot]
    · rw [hbElements, List.countP_append, countP_replicate_dotDot]
      omega
    · rw [hp, hc, hbElements, List.count_append, List.count_append, List.countP_append,
        countP_replicate_dotDot,
        List.count_replicate_self, List.count_replicate_self, List.count_eq_zero.mpr ha,
          List.count_eq_zero.mpr hrest]
      omega
  · refine ⟨a.filter fun e => e != [] && e != dot, ?_, fun hmem => ha (List.mem_filter.mp hmem).1⟩
    unfold FsPath.components
    rw [hp, hbase, List.filter_append, List.filter_append, filter_eq_nil_of_depth hb hdepth,
      List.append_nil]

/-! ## Paths below a base -/

/-- Filenames of which no first ones lead above where they begin. -/
def NeverAbove (names : List Bytes) : Prop := ∀ before, before <+: names → before.count dotDot ≤
    before.countP isProper

/-- Filenames that never lead above go on from a stack, and keep it. -/
theorem foldl_normalStep_below {down : List Bytes} (stack : List Bytes)
    (hnames : ∀ name ∈ names, name ≠ []) (hdown : ∀ name ∈ down, name ≠ dotDot)
    (h : ∀ before, before <+: names → before.count dotDot ≤ down.length + before.countP isProper) :
    ∃ below, names.foldl (normalStep rootDirectory) (down ++ stack) = below ++ stack ∧
      ∀ name ∈ below, name ∈ down ∨ name ∈ names ∧ name ≠ dot ∧ name ≠ dotDot := by
  induction names generalizing down with
  | nil => exact ⟨down, rfl, fun name hname => .inl hname⟩
  | cons name names ih =>
    obtain ⟨hname, hrest⟩ := List.forall_mem_cons.mp hnames
    have hbegins (before : List Bytes) (hbefore : before <+: names) :=
      h (name :: before) ((List.prefix_cons_inj name).mpr hbefore)
    rw [List.foldl_cons]
    by_cases hdot : name = dot
    · have hstep : normalStep rootDirectory (down ++ stack) name = down ++ stack := if_pos hdot
      obtain ⟨below, hfold, hbelow⟩ := ih hrest hdown fun before hbefore => by
        simpa [hdot, isProper, dot, dotDot, ascii] using hbegins before hbefore
      rw [hstep]
      refine ⟨below, hfold, fun n hn => (hbelow n hn).imp_right fun hmem => ?_⟩
      exact ⟨.tail _ hmem.1, hmem.2⟩
    · by_cases hdotDot : name = dotDot
      · cases down with
        | nil =>
          have hone := hbegins [] List.nil_prefix
          simp [hdotDot, isProper] at hone
        | cons top down =>
          obtain ⟨htop, hdown'⟩ := List.forall_mem_cons.mp hdown
          have hstep : normalStep rootDirectory (top :: down ++ stack) name = down ++ stack := by
            unfold normalStep
            rw [if_neg hdot, if_pos hdotDot, List.cons_append]
            exact if_neg htop
          obtain ⟨below, hfold, hbelow⟩ := ih hrest hdown' fun before hbefore => by
            have hle := hbegins before hbefore
            rw [hdotDot, List.count_cons_self, List.countP_cons_of_neg (by decide),
              List.length_cons] at hle
            omega
          rw [hstep]
          refine ⟨below, hfold, fun n hn => (hbelow n hn).imp (List.mem_cons_of_mem _) fun hmem =>
            ?_⟩
          exact ⟨.tail _ hmem.1, hmem.2⟩
      · have hstep : normalStep rootDirectory (down ++ stack) name = name :: down ++ stack := by
          unfold normalStep
          rw [if_neg hdot, if_neg hdotDot, List.cons_append]
        have hproper : isProper name = true := by simp [isProper, hname, hdot, hdotDot]
        obtain ⟨below, hfold, hbelow⟩ :=
          ih hrest (List.forall_mem_cons.mpr ⟨hdotDot, hdown⟩) fun before hbefore => by
          have hle := hbegins before hbefore
          rw [List.count_cons_of_ne hdotDot, List.countP_cons_of_pos hproper] at hle
          rw [List.length_cons]
          omega
        rw [hstep]
        refine ⟨below, hfold, fun n hn => ?_⟩
        rcases hbelow n hn with hmem | hmem
        · rcases List.mem_cons.mp hmem with rfl | hmem
          · exact .inr ⟨List.mem_cons_self, hdot, hdotDot⟩
          · exact .inl hmem
        · exact .inr ⟨.tail _ hmem.1, hmem.2⟩

theorem FsPath.descends_of_mismatch (hroot : p.rootDirectory = base.rootDirectory)
    {a b : List Bytes}
    (hmismatch : mismatch p.elements base.elements = (a, b)) (hdepth : depth b = 0)
    (ha : a.head? ≠ some dotDot) :
    Descends (p.lexicallyRelative base) := by
  have hdot : Descends [dot] := by decide
  unfold FsPath.lexicallyRelative
  rw [if_neg (not_not.mpr hroot), hmismatch]
  dsimp only
  rw [hdepth]
  split_ifs with hend hneg hzero
  · exact hdot
  · cases hneg
  · exact hdot
  · refine ⟨fun hnil => hzero ⟨rfl, .inl ?_⟩, ha⟩
    exact (List.append_eq_nil_iff.mp hnil).2

/-- Elements after those that a path and its base share. -/
theorem mismatch_trailing {down : List Bytes} (hdown : ∀ name ∈ down, name ≠ [] ∧ name ≠ dotDot)
    (trailing base : Bool) :
    ∃ a b, mismatch (down ++ if trailing then [[]] else []) (if base then [[]] else []) = (a, b) ∧
      depth b = 0 ∧ a.head? ≠ some dotDot := by
  cases down with
  | nil => cases trailing <;> cases base <;> exact ⟨_, _, rfl, by decide, by decide⟩
  | cons name down =>
    obtain ⟨hne, hdotDot⟩ := hdown name List.mem_cons_self
    have hhead : (name :: down ++ if trailing then [[]] else []).head? ≠ some dotDot := fun h =>
      hdotDot (Option.some.inj h)
    cases base with
    | false => exact ⟨_, _, rfl, by decide, hhead⟩
    | true =>
      refine ⟨name :: down ++ if trailing then [[]] else [], [[]], ?_, by decide, hhead⟩
      exact if_neg hne

/-- **What never leads above a base is found below it.** -/
theorem FsPath.descends_of_neverAbove (hroot : p.rootDirectory = base.rootDirectory)
    {more : List Bytes} (hnames : p.names = base.names ++ more) (hmore : NeverAbove more)
    (hbase : base.rootDirectory = true ∨ base.names ≠ []) :
    Descends (p.lexicallyNormal.lexicallyRelative base.lexicallyNormal) := by
  have hmoreNames : ∀ name ∈ more, name ≠ [] := fun name hname =>
    (p.names_valid name (by rw [hnames]; exact List.mem_append_right _ hname)).1
  obtain ⟨below, hfold, hbelow⟩ := @foldl_normalStep_below more p.rootDirectory []
    (normalStack base.rootDirectory base.names) hmoreNames nofun (by simpa [NeverAbove] using hmore)
  have hstack : normalStack p.rootDirectory p.names =
    below ++ normalStack base.rootDirectory base.names := by
    rw [← hfold, hnames, hroot]
    exact List.foldl_append
  have hdown : ∀ name ∈ below.reverse, name ≠ [] ∧ name ≠ dotDot ∧ name ≠ dot := by
    intro name hname
    rcases hbelow name (List.mem_reverse.mp hname) with hmem | ⟨hmem, hdot, hdotDot⟩
    · nomatch hmem
    · exact ⟨hmoreNames name hmem, hdotDot, hdot⟩
  have hrootNormal : p.lexicallyNormal.rootDirectory = base.lexicallyNormal.rootDirectory := by
    rw [p.lexicallyNormal_rootDirectory, base.lexicallyNormal_rootDirectory, hroot]
  by_cases hempty : normalStack base.rootDirectory base.names = [] ∧ base.rootDirectory = false
  · -- the base is a dot
    obtain ⟨hbaseRoot, hbaseNames, hbaseTrailing⟩ := lexicallyNormal_dot hempty
    have hne : base.names ≠ [] := hbase.resolve_left (by rw [hempty.2]; decide)
    rw [if_neg hne] at hbaseNames
    have hbaseElements : base.lexicallyNormal.elements = [dot] := by
      unfold FsPath.elements
      rw [hbaseRoot, hbaseNames, hbaseTrailing]
      rfl
    by_cases hhere : below = []
    · have hdotted : normalStack p.rootDirectory p.names = [] ∧ p.rootDirectory = false := by
        rw [hstack, hhere, hempty.1, hroot, hempty.2]
        exact ⟨rfl, rfl⟩
      obtain ⟨hpRoot, hpNames, hpTrailing⟩ := lexicallyNormal_dot hdotted
      rw [if_neg (by rw [hnames]; simp [hne])] at hpNames
      have hpElements : p.lexicallyNormal.elements = [dot] := by
        unfold FsPath.elements
        rw [hpRoot, hpNames, hpTrailing]
        rfl
      refine descends_of_mismatch hrootNormal (a := []) (b := []) ?_ (by decide) nofun
      rw [hpElements, hbaseElements]
      decide
    · have hlong : ¬ (normalStack p.rootDirectory p.names = [] ∧ p.rootDirectory = false) := by
        rw [hstack, hempty.1, List.append_nil]
        exact fun h => hhere h.1
      obtain ⟨hpRoot, hpNames, hpTrailing⟩ := lexicallyNormal_stack hlong
      obtain ⟨name, names, hcons⟩ :=
        List.exists_cons_of_ne_nil (mt List.reverse_eq_nil_iff.mp hhere)
      obtain ⟨hname, hnameDotDot, hnameDot⟩ := hdown name (by rw [hcons]; exact List.mem_cons_self)
      have hpElements : ∃ rest, p.lexicallyNormal.elements = name :: rest := by
        unfold FsPath.elements
        rw [hpRoot, hpNames, hstack, hempty.1, List.append_nil, hcons, hroot, hempty.2]
        exact ⟨_, rfl⟩
      obtain ⟨rest, hpElements⟩ := hpElements
      refine descends_of_mismatch hrootNormal (a := name :: rest) (b := [dot]) ?_
        (by decide) fun h =>
        hnameDotDot (Option.some.inj h)
      rw [hpElements, hbaseElements]
      exact if_neg hnameDot
  · obtain ⟨hbaseRoot, hbaseNames, hbaseTrailing⟩ := lexicallyNormal_stack hempty
    have hlong : ¬ (normalStack p.rootDirectory p.names = [] ∧ p.rootDirectory = false) := by
      rw [hstack, hroot]
      exact fun h => hempty ⟨(List.append_eq_nil_iff.mp h.1).2, h.2⟩
    obtain ⟨hpRoot, hpNames, hpTrailing⟩ := lexicallyNormal_stack hlong
    obtain ⟨a, b, hmismatch, hdepth, ha⟩ :=
      mismatch_trailing (fun name hname => ⟨(hdown name hname).1,
      (hdown name hname).2.1⟩) p.lexicallyNormal.trailing base.lexicallyNormal.trailing
    refine descends_of_mismatch hrootNormal ?_ hdepth ha
    unfold FsPath.elements
    rw [hrootNormal, hpNames, hbaseNames, hstack, List.reverse_append, ← hmismatch]
    simp only [List.append_assoc]
    rw [mismatch_append, mismatch_append]

end Libca.Fs
