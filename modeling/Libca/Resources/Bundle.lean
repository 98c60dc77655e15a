import Libca.Common.Bytes
import Libca.Common.LastWins
import Libca.Common.PrefixOrder

/-!
# Embedded resources

`Bundle` of `resources/resources.hpp`: a table of files that is searched by bisection. An entry
holds the bytes that its pointer and size stand for; a range is a pair of positions in the table.
Paths are compared as bytes.

* `find_eq_some_iff`: **a path is found just when an entry has it.**
* `slice_under`: **the range under a directory holds the entries whose paths start with its key, in
  order.**
* `searches_agree`: **the searches of a table with ascending paths agree with linear search.**
-/

namespace Libca.Resources

open Common

inductive ResourceError
  | notFound
  | invalidPath
  deriving DecidableEq

/-- `'/'`. -/
def slash : UInt8 := 0x2F

/-- `'\'`. -/
def backslash : UInt8 := 0x5C

/-- `valid_path`. -/
def validPath (path : Bytes) : Bool := path.head? = some slash && !path.contains backslash

/-- `RawEntry`. -/
structure RawEntry where
  path : Bytes
  data : Bytes

/-- `Bundle::Range`, as positions in the table. -/
structure Range where
  first : Nat := 0
  last : Nat := 0

/-- `Bundle`. -/
structure Bundle where
  entries : List RawEntry := []

/-- The test of the loop of `under`: the size is compared first. -/
def RawEntry.startsWith (e : RawEntry) (key : Bytes) : Bool :=
  key.length ≤ e.path.length && e.path.take key.length == key

/-- The loop of `under` from a position on. -/
def advance (entries : List RawEntry) (key : Bytes) (last : Nat) : Nat :=
  match h : entries[last]? with
  | none => last
  | some e => if e.startsWith key then advance entries key (last + 1) else last
termination_by entries.length - last
decreasing_by
  have hlast := (List.getElem?_eq_some_iff.mp h).1
  omega

/-- The key of `under`: the directory with a `'/'` behind it. -/
def dirKey (dir : Bytes) : Bytes := if dir.getLast? = some slash then dir else dir ++ [slash]

namespace Bundle

/-- `find`. -/
def find (b : Bundle) (path : Bytes) : Option RawEntry :=
  match b.entries[lowerBound RawEntry.path path b.entries]? with
  | none => none
  | some e => if e.path = path then some e else none

/-- `get`. -/
def get (b : Bundle) (path : Bytes) : Except ResourceError Bytes :=
  if !validPath path then .error .invalidPath
  else
    match b.find path with
    | none => .error .notFound
    | some hit => .ok hit.data

/-- `exists`. -/
def existsPath (b : Bundle) (path : Bytes) : Bool := validPath path && (b.find path).isSome

/-- `all`. -/
def all (b : Bundle) : Range := { first := 0, last := b.entries.length }

/-- `under`. -/
def under (b : Bundle) (dir : Bytes) : Range :=
  if dir = [] then b.all
  else if !validPath dir then {}
  else
    let first := lowerBound RawEntry.path (dirKey dir) b.entries
    { first, last := advance b.entries (dirKey dir) first }

/-- The entries that a range runs over. -/
def slice (b : Bundle) (r : Range) : List RawEntry :=
  (b.entries.drop r.first).take (r.last - r.first)

/-- The paths ascend. -/
def Ascending (b : Bundle) : Prop := b.entries.Pairwise fun x y => x.path < y.path

end Bundle

/-! ## The loop -/

variable {b : Bundle} {path dir key : Bytes}

theorem startsWith_eq (e : RawEntry) (key : Bytes) : e.startsWith key = key.isPrefixOf e.path := by
  rw [Bool.eq_iff_iff, List.isPrefixOf_iff_prefix, RawEntry.startsWith, Bool.and_eq_true,
    decide_eq_true_eq, beq_iff_eq, List.prefix_iff_eq_take]
  constructor
  · exact fun h => h.2.symm
  · intro h
    have hlength := congrArg List.length h
    rw [List.length_take] at hlength
    exact ⟨by omega, h.symm⟩

/-- The loop takes the entries that have the key. -/
theorem advance_eq (entries : List RawEntry) (key : Bytes) (last : Nat) : advance entries key last =
    last + ((entries.drop last).takeWhile fun e => key.isPrefixOf e.path).length := by
  fun_induction advance entries key last with
  | case1 last hnone =>
    rw [List.drop_eq_nil_of_le (List.getElem?_eq_none_iff.mp hnone)]
    rfl
  | case2 last e he hstarts ih =>
    obtain ⟨hlast, rfl⟩ := List.getElem?_eq_some_iff.mp he
    rw [startsWith_eq] at hstarts
    rw [ih, List.drop_eq_getElem_cons hlast, List.takeWhile_cons, if_pos hstarts, List.length_cons]
    omega
  | case3 last e he hstarts =>
    obtain ⟨hlast, rfl⟩ := List.getElem?_eq_some_iff.mp he
    rw [startsWith_eq] at hstarts
    rw [List.drop_eq_getElem_cons hlast, List.takeWhile_cons, if_neg hstarts]
    rfl

/-! ## The searches -/

theorem find_eq (b : Bundle) (path : Bytes) :
    b.find path = searchKey RawEntry.path path b.entries := by
  unfold Bundle.find searchKey lowerBound
  dsimp only
  generalize firstFalse (fun i => (b.entries[i]?).any fun e => e.path < path) 0 b.entries.length =
    it
  cases b.entries[it]? with
  | none => rfl
  | some e => exact (ite_not ..).symm

/-- **Bisection finds the entry that has a path.** -/
theorem find_eq_some_iff (hb : b.Ascending) {e : RawEntry} :
    b.find path = some e ↔ e ∈ b.entries ∧ e.path = path := by
  rw [find_eq, searchKey_eq hb]
  constructor
  · intro h
    exact mem_of_lastOf h
  · rintro ⟨he, rfl⟩
    exact lastOf_eq_some hb he rfl

theorem find_eq_none_iff (hb : b.Ascending) :
    b.find path = none ↔ ∀ e ∈ b.entries, e.path ≠ path := by
  rw [Option.eq_none_iff_forall_ne_some]
  exact ⟨fun h e he hpath => h e ((find_eq_some_iff hb).mpr ⟨he, hpath⟩),
    fun h e he => h e ((find_eq_some_iff hb).mp he).1 ((find_eq_some_iff hb).mp he).2⟩

/-- **The range under a directory is the part of the table whose paths start with its key.** -/
theorem slice_under (hb : b.Ascending) (hdir : validPath dir = true) :
    b.slice (b.under dir) = b.entries.filter fun e => (dirKey dir).isPrefixOf e.path := by
  have hne : dir ≠ [] := by
    rintro rfl
    cases hdir
  obtain ⟨hbefore, hafter⟩ := lowerBound_spec hb (dirKey dir)
  have hdrop : (b.entries.drop (lowerBound RawEntry.path (dirKey dir) b.entries)).Pairwise
      fun x y => x.path < y.path :=
    hb.sublist (List.drop_sublist ..)
  have hfront : (b.entries.take (lowerBound RawEntry.path (dirKey dir) b.entries)).filter
      (fun e => (dirKey dir).isPrefixOf e.path) = [] := by
    refine List.filter_eq_nil_iff.mpr fun e he hstarts => ?_
    exact not_lt_of_prefix (List.isPrefixOf_iff_prefix.mp hstarts) (hbefore e he)
  unfold Bundle.under Bundle.slice
  rw [if_neg hne, if_neg (by rw [hdir]; decide)]
  dsimp only
  rw [advance_eq, Nat.add_sub_cancel_left, ← List.prefix_iff_eq_take.mp (List.takeWhile_prefix _),
    ← filter_prefix_eq_takeWhile hdrop hafter]
  conv_rhs =>
    rw [← List.take_append_drop (lowerBound RawEntry.path (dirKey dir) b.entries) b.entries,
    List.filter_append, hfront, List.nil_append]

/-- The range lies in the table. -/
theorem under_bounds (b : Bundle) (dir : Bytes) :
    (b.under dir).first ≤ (b.under dir).last ∧ (b.under dir).last ≤ b.entries.length := by
  unfold Bundle.under
  split_ifs
  · exact ⟨Nat.zero_le _, le_rfl⟩
  · exact ⟨le_rfl, Nat.zero_le _⟩
  · dsimp only
    rw [advance_eq]
    have htake := (List.takeWhile_sublist (fun e : RawEntry => (dirKey dir).isPrefixOf e.path)
      (l := b.entries.drop (lowerBound RawEntry.path (dirKey dir) b.entries))).length_le
    have hlower := lowerBound_le RawEntry.path (dirKey dir) b.entries
    rw [List.length_drop] at htake
    omega

/-! ## Linear search -/

/-- A path in a directory: it starts with the directory and a `'/'`, which the directory may end
with. -/
def InDir (dir path : Bytes) : Prop :=
  ∃ name, path = if dir.getLast? = some slash then dir ++ name else dir ++ slash :: name

theorem isPrefixOf_dirKey (dir path : Bytes) :
    (dirKey dir).isPrefixOf path = true ↔ InDir dir path := by
  rw [List.isPrefixOf_iff_prefix]
  unfold dirKey InDir
  split_ifs
  · exact exists_congr fun name => eq_comm
  · exact exists_congr fun name => by rw [List.append_assoc, List.singleton_append, eq_comm]

instance (dir path : Bytes) : Decidable (InDir dir path) :=
  decidable_of_iff _ (isPrefixOf_dirKey dir path)

/-- What linear search gives: the data of the entry with a valid path, and the entries in a valid
directory, in order, between two positions of the table. -/
structure SearchesLinearly (b : Bundle) : Prop where
  get : ∀ path, b.get path =
    if validPath path then
      match b.entries.find? (·.path = path) with
      | some e => .ok e.data
      | none => .error .notFound
    else .error .invalidPath
  existsPath : ∀ path, b.existsPath path = true ↔ validPath path = true ∧ ∃ e ∈ b.entries,
    e.path = path
  bounds : ∀ dir, (b.under dir).first ≤ (b.under dir).last ∧ (b.under dir).last ≤ b.entries.length
  under : ∀ dir, validPath dir = true → b.slice (b.under dir) = b.entries.filter fun e =>
    InDir dir e.path

/-- **The searches of a table with ascending paths agree with linear search.** -/
theorem searches_agree (hb : b.Ascending) : SearchesLinearly b where
  get path := by
    unfold Bundle.get
    cases validPath path with
    | false => rfl
    | true =>
      change (match b.find path with
        | none => Except.error ResourceError.notFound
        | some hit => .ok hit.data) = _
      cases hfind : b.entries.find? (·.path = path) with
      | none =>
        have hnone : b.find path = none := (find_eq_none_iff hb).mpr fun e he => by
          simpa using List.find?_eq_none.mp hfind e he
        rw [hnone]
        rfl
      | some e =>
        have hpath : e.path = path := by simpa using List.find?_some hfind
        rw [(find_eq_some_iff hb).mpr ⟨List.mem_of_find?_eq_some hfind, hpath⟩]
        rfl
  existsPath path := by
    rw [Bundle.existsPath, Bool.and_eq_true, Option.isSome_iff_exists]
    exact and_congr_right fun _ => exists_congr fun e => find_eq_some_iff hb
  bounds := under_bounds b
  under dir hdir := by
    rw [slice_under hb hdir]
    refine List.filter_congr fun e _ => ?_
    rw [Bool.eq_iff_iff, isPrefixOf_dirKey, decide_eq_true_eq]

/-- A directory with a sibling whose path goes on with a byte before `'/'`. -/
theorem searches_agree_sibling :
    SearchesLinearly ⟨[⟨ascii "/a-b/x", [1]⟩, ⟨ascii "/a/x", [2]⟩, ⟨ascii "/a/y", [3]⟩,
      ⟨ascii "/ab", [4]⟩]⟩ := by
  refine searches_agree ?_
  unfold Bundle.Ascending
  decide

end Libca.Resources
