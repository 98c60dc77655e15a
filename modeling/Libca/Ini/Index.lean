import Libca.Ini.Document

/-!
# What the indexes of a document say (`ini/ini_document.cpp` 405-426)

* `index`: the indexes over a list of lines, built from nothing; `rebuildIndex_eq`.
* `findKey_index`, `find_sectionIndex`: a key, and a section, is found at its last line.
* `get_eq_lookup`: `get` depends on the keys and values of the document only, in their order.
-/

namespace Libca.Ini

open Common

/-- A key with its section and its value. -/
structure Entry where
  sectionName : Bytes
  key : Bytes
  value : Bytes
  deriving DecidableEq

/-- The entry of a line. -/
def IniLine.entry? (line : IniLine) : Option Entry :=
  if line.kind = .keyValue then some ⟨line.sectionName, line.key, line.value⟩ else none

/-- The section that a line starts. -/
def IniLine.section? (line : IniLine) : Option Bytes :=
  if line.kind = .sectionHeader then some line.sectionName else none

/-- The entries of a list of lines. -/
def entries (rs : List LineRecord) : List Entry := rs.filterMap fun r => r.line.entry?

@[simp] theorem entries_nil : entries [] = [] := rfl

theorem entries_cons (r : LineRecord) (rs : List LineRecord) :
    entries (r :: rs) = r.line.entry?.toList ++ entries rs := by
  unfold entries
  rw [List.filterMap_cons]
  cases r.line.entry? <;> rfl

theorem entries_append (rs rs' : List LineRecord) :
    entries (rs ++ rs') = entries rs ++ entries rs' :=
  List.filterMap_append

/-- A line of a key of a section. -/
def IsKeyLine (sectionName key : Bytes) (r : LineRecord) : Prop :=
  r.line.kind = .keyValue ∧ r.line.sectionName = sectionName ∧ r.line.key = key

/-- The header of a section. -/
def IsHeader (sectionName : Bytes) (r : LineRecord) : Prop :=
  r.line.kind = .sectionHeader ∧ r.line.sectionName = sectionName

/-- The last position of a list whose element has a property. -/
def LastAt {α : Type} (p : α → Prop) (as : List α) (i : Nat) : Prop :=
  (∃ a, as[i]? = some a ∧ p a) ∧ ∀ j a, i < j → as[j]? = some a → ¬ p a

theorem lastAt_append_pos {α : Type} {p : α → Prop} {as : List α} {a : α} (ha : p a) :
    LastAt p (as ++ [a]) as.length := by
  refine ⟨⟨a, by simp, ha⟩, fun j b hj hb => ?_⟩
  rw [List.getElem?_append_right (by omega), List.getElem?_eq_none (by simp; omega)] at hb
  cases hb

theorem lastAt_append_neg {α : Type} {p : α → Prop} {as : List α} {a : α} (ha : ¬ p a) {i : Nat}
    (h : LastAt p as i) : LastAt p (as ++ [a]) i := by
  obtain ⟨⟨b, hb, hpb⟩, hlast⟩ := h
  have hi : i < as.length := (List.getElem?_eq_some_iff.mp hb).1
  refine ⟨⟨b, by rw [List.getElem?_append_left hi, hb], hpb⟩, fun j c hj hc => ?_⟩
  by_cases hj' : j < as.length
  · rw [List.getElem?_append_left hj'] at hc
    exact hlast j c hj hc
  · rw [List.getElem?_append_right (by omega)] at hc
    obtain rfl : a = c := by
      have hmem := List.mem_of_getElem? hc
      exact (List.mem_singleton.mp hmem).symm
    exact ha

/-! ## Building the indexes -/

namespace IniDocument

/-- The indexes over a list of lines. -/
def index (rs : List LineRecord) : IniDocument := indexLines {} 0 rs

theorem indexLine_keyIndex (d : IniDocument) (i : Nat) (line : IniLine) :
    (indexLine d i line).keyIndex =
      if line.kind = .keyValue then assignKey d.keyIndex line.sectionName line.key i
      else d.keyIndex := by
  unfold indexLine
  cases line.kind <;> rfl

theorem indexLine_sectionIndex (d : IniDocument) (i : Nat) (line : IniLine) :
    (indexLine d i line).sectionIndex =
      if line.kind = .sectionHeader then d.sectionIndex.insertOrAssign line.sectionName i
      else d.sectionIndex := by
  unfold indexLine
  cases line.kind <;> rfl

theorem indexLine_publicLines (d : IniDocument) (i : Nat) (line : IniLine) :
    (indexLine d i line).publicLines = d.publicLines ++ [line] := by
  unfold indexLine
  cases line.kind <;> rfl

theorem indexLines_append (d : IniDocument) (i : Nat) (rs : List LineRecord) (r : LineRecord) :
    indexLines d i (rs ++ [r]) = indexLine (indexLines d i rs) (i + rs.length) r.line := by
  induction rs generalizing d i with
  | nil => rfl
  | cons r' rs ih =>
    rw [List.cons_append, indexLines, ih, indexLines, List.length_cons]
    congr 1
    omega

theorem index_append (rs : List LineRecord) (r : LineRecord) :
    index (rs ++ [r]) = indexLine (index rs) rs.length r.line := by
  unfold index
  rw [indexLines_append, Nat.zero_add]

/-- The loop only changes the indexes and the public lines. -/
theorem indexLines_with (d : IniDocument) (i : Nat) (rs : List LineRecord)
    (records : List LineRecord) (ending : Bytes) :
    indexLines { d with records := records, defaultLineEnding := ending } i rs =
      { indexLines d i rs with records := records, defaultLineEnding := ending } := by
  induction rs generalizing d i with
  | nil => rfl
  | cons r rs ih =>
    have hstep : indexLine { d with records := records, defaultLineEnding := ending } i r.line =
        { indexLine d i r.line with records := records, defaultLineEnding := ending } := by
      unfold indexLine
      cases r.line.kind <;> rfl
    rw [indexLines, hstep, ih, indexLines]

theorem rebuildIndex_eq (d : IniDocument) : d.rebuildIndex =
    { index d.records with records := d.records, defaultLineEnding := d.defaultLineEnding } :=
  indexLines_with {} 0 d.records d.records d.defaultLineEnding

@[simp] theorem rebuildIndex_records (d : IniDocument) : d.rebuildIndex.records = d.records := by
  rw [rebuildIndex_eq]

@[simp] theorem rebuildIndex_defaultLineEnding (d : IniDocument) :
    d.rebuildIndex.defaultLineEnding = d.defaultLineEnding := by
  rw [rebuildIndex_eq]

/-- The indexes of a document are those of its lines. -/
def Indexed (d : IniDocument) : Prop := d.rebuildIndex = d

theorem indexed_rebuildIndex (d : IniDocument) : d.rebuildIndex.Indexed := by
  unfold Indexed
  rw [rebuildIndex_eq, rebuildIndex_records, rebuildIndex_defaultLineEnding, ← rebuildIndex_eq]

variable {d : IniDocument}

theorem Indexed.keyIndex_eq (hd : d.Indexed) : d.keyIndex = (index d.records).keyIndex := by
  unfold Indexed at hd
  rw [rebuildIndex_eq] at hd
  rw [← hd]

theorem Indexed.sectionIndex_eq (hd : d.Indexed) :
    d.sectionIndex = (index d.records).sectionIndex := by
  unfold Indexed at hd
  rw [rebuildIndex_eq] at hd
  rw [← hd]

/-- Only the kinds and names of the lines are indexed; the public lines follow the lines. -/
theorem indexed_of_index (hkey : d.keyIndex = (index d.records).keyIndex)
    (hsection : d.sectionIndex = (index d.records).sectionIndex)
    (hpublic : d.publicLines = (index d.records).publicLines) : d.Indexed := by
  unfold Indexed
  rw [rebuildIndex_eq]
  change IniDocument.mk d.records (index d.records).publicLines (index d.records).sectionIndex
    (index d.records).keyIndex d.defaultLineEnding = d
  rw [← hkey, ← hsection, ← hpublic]

theorem index_publicLines (rs : List LineRecord) :
    (index rs).publicLines = rs.map fun r => r.line := by
  induction rs using List.reverseRecOn with
  | nil => rfl
  | append_singleton rs r ih =>
    rw [index_append, indexLine_publicLines, ih, List.map_append, List.map_singleton]

variable {rs : List LineRecord}

/-- The indexes depend on the kinds, sections and keys of the lines. -/
theorem index_congr {rs' : List LineRecord}
    (h : rs.map (fun r => (r.line.kind, r.line.sectionName, r.line.key)) =
      rs'.map fun r => (r.line.kind, r.line.sectionName, r.line.key)) :
    (index rs).keyIndex = (index rs').keyIndex ∧
      (index rs).sectionIndex = (index rs').sectionIndex := by
  induction rs using List.reverseRecOn generalizing rs' with
  | nil =>
    obtain rfl : rs' = [] := by simpa using h.symm
    exact ⟨rfl, rfl⟩
  | append_singleton rs r ih =>
    obtain rfl | ⟨rs', r', rfl⟩ := List.eq_nil_or_concat' rs'
    · simp at h
    have hlen : rs.length = rs'.length := by simpa using congrArg List.length h
    rw [List.map_append, List.map_append] at h
    obtain ⟨hrs, hr⟩ := List.append_inj h (by simp [hlen])
    simp only [List.map_singleton, List.cons.injEq, Prod.mk.injEq, and_true] at hr
    obtain ⟨hkind, hsection, hkey⟩ := hr
    obtain ⟨ihkey, ihsection⟩ := ih hrs
    rw [index_append, index_append, indexLine_keyIndex, indexLine_keyIndex, indexLine_sectionIndex,
      indexLine_sectionIndex, hkind, hsection, hkey, hlen, ihkey, ihsection]
    exact ⟨rfl, rfl⟩

/-! ## What is found -/

theorem find_assignKey (m : SortedMap Bytes (SortedMap Bytes Nat)) (s k s' k' : Bytes) (i : Nat) :
    ((assignKey m s k i).find s').bind (fun keys => keys.find k') =
      if s' = s ∧ k' = k then some i else (m.find s').bind fun keys => keys.find k' := by
  unfold assignKey
  rw [SortedMap.find_insertOrAssign]
  by_cases hs : s' = s
  · rw [if_pos hs, Option.bind_some, SortedMap.find_insertOrAssign]
    by_cases hk : k' = k
    · rw [if_pos hk, if_pos ⟨hs, hk⟩]
    · rw [if_neg hk, if_neg fun h => hk h.2, hs]
      cases m.find s with
      | none => rfl
      | some keys => rfl
  · rw [if_neg hs, if_neg fun h => hs h.1]

theorem findKey_index_append (rs : List LineRecord) (r : LineRecord) (s k : Bytes) :
    (index (rs ++ [r])).findKey s k =
      if r.line.kind = .keyValue ∧ s = r.line.sectionName ∧ k = r.line.key then some rs.length
      else (index rs).findKey s k := by
  unfold findKey
  rw [index_append, indexLine_keyIndex]
  by_cases hkind : r.line.kind = .keyValue
  · rw [if_pos hkind, find_assignKey]
    simp [hkind]
  · rw [if_neg hkind, if_neg fun h => hkind h.1]

/-- **A key is found at its last line.** -/
theorem findKey_index (rs : List LineRecord) (s k : Bytes) :
    (∀ i, (index rs).findKey s k = some i → LastAt (IsKeyLine s k) rs i) ∧
      ((index rs).findKey s k = none → ∀ r ∈ rs, ¬ IsKeyLine s k r) := by
  induction rs using List.reverseRecOn with
  | nil => exact ⟨fun i h => (nomatch h), fun _ r hr => (nomatch hr)⟩
  | append_singleton rs r ih =>
    rw [findKey_index_append]
    by_cases hr : r.line.kind = .keyValue ∧ s = r.line.sectionName ∧ k = r.line.key
    · rw [if_pos hr]
      refine ⟨fun i hi => ?_, fun h => nomatch h⟩
      cases hi
      exact lastAt_append_pos ⟨hr.1, hr.2.1.symm, hr.2.2.symm⟩
    · rw [if_neg hr]
      have hneg : ¬ IsKeyLine s k r := fun h => hr ⟨h.1, h.2.1.symm, h.2.2.symm⟩
      refine ⟨fun i hi => lastAt_append_neg hneg (ih.1 i hi), fun hnone r' hr' => ?_⟩
      rcases List.mem_append.mp hr' with hr' | hr'
      · exact ih.2 hnone r' hr'
      · rw [List.mem_singleton.mp hr']
        exact hneg

/-- A section has keys if one of its lines is a key. -/
theorem find_keyIndex_eq_none (rs : List LineRecord) (s : Bytes) :
    (index rs).keyIndex.find s = none ↔
      ∀ r ∈ rs, ¬ (r.line.kind = .keyValue ∧ r.line.sectionName = s) := by
  induction rs using List.reverseRecOn with
  | nil => exact ⟨fun _ r hr => (nomatch hr), fun _ => rfl⟩
  | append_singleton rs r ih =>
    rw [index_append, indexLine_keyIndex, List.forall_mem_append, ← ih, List.forall_mem_singleton]
    by_cases hkind : r.line.kind = .keyValue
    · rw [if_pos hkind]
      unfold assignKey
      rw [SortedMap.find_insertOrAssign]
      by_cases hs : s = r.line.sectionName
      · simp [hkind, hs]
      · simp [hkind, hs, Ne.symm hs]
    · simp [hkind]

/-- **A section is found at its last header.** -/
theorem find_sectionIndex (rs : List LineRecord) (s : Bytes) :
    (∀ i, (index rs).sectionIndex.find s = some i →
      LastAt (IsHeader s) rs i) ∧
      ((index rs).sectionIndex.find s = none → ∀ r ∈ rs, ¬ IsHeader s r) := by
  induction rs using List.reverseRecOn with
  | nil => exact ⟨fun i h => (nomatch h), fun _ r hr => (nomatch hr)⟩
  | append_singleton rs r ih =>
    rw [index_append, indexLine_sectionIndex]
    by_cases hkind : r.line.kind = .sectionHeader
    · rw [if_pos hkind, SortedMap.find_insertOrAssign]
      by_cases hs : s = r.line.sectionName
      · rw [if_pos hs]
        refine ⟨fun i hi => ?_, fun h => nomatch h⟩
        cases hi
        exact lastAt_append_pos ⟨hkind, hs.symm⟩
      · rw [if_neg hs]
        have hneg : ¬ IsHeader s r :=
          fun h => hs h.2.symm
        refine ⟨fun i hi => lastAt_append_neg hneg (ih.1 i hi), fun hnone => ?_⟩
        exact List.forall_mem_append.mpr ⟨ih.2 hnone, List.forall_mem_singleton.mpr hneg⟩
    · rw [if_neg hkind]
      have hneg : ¬ IsHeader s r := fun h => hkind h.1
      refine ⟨fun i hi => lastAt_append_neg hneg (ih.1 i hi), fun hnone => ?_⟩
      exact List.forall_mem_append.mpr ⟨ih.2 hnone, List.forall_mem_singleton.mpr hneg⟩

/-! ## `get` -/

/-- What `get` returns over a list of entries: the last one of the key. -/
def lookup (es : List Entry) (sectionName key : Bytes) : Except Bytes Bytes :=
  if ∀ e ∈ es, e.sectionName ≠ sectionName then
    .error (fromCstr (ascii "INI section not found: " ++ sectionName))
  else
    match es.reverse.find? fun e => e.sectionName = sectionName ∧ e.key = key with
    | none => .error (fromCstr (ascii "INI key not found: " ++ key))
    | some e => .ok e.value

theorem mem_entries {e : Entry} : e ∈ entries rs ↔
    ∃ r ∈ rs, r.line.kind = .keyValue ∧ e = ⟨r.line.sectionName, r.line.key, r.line.value⟩ := by
  unfold entries IniLine.entry?
  rw [List.mem_filterMap]
  constructor
  · rintro ⟨r, hr, h⟩
    by_cases hkind : r.line.kind = .keyValue
    · rw [if_pos hkind] at h
      exact ⟨r, hr, hkind, (Option.some.inj h).symm⟩
    · rw [if_neg hkind] at h
      cases h
  · rintro ⟨r, hr, hkind, rfl⟩
    exact ⟨r, hr, if_pos hkind⟩

/-- The last entry of a key is that of its last line. -/
theorem find_entries {s k : Bytes} {i : Nat} (h : LastAt (IsKeyLine s k) rs i) :
    ((entries rs).reverse.find? fun e => e.sectionName = s ∧ e.key = k) =
      (rs[i]?).map fun r => ⟨s, k, r.line.value⟩ := by
  obtain ⟨⟨r, hr, hkind, rfl, rfl⟩, hlast⟩ := h
  obtain ⟨hi, hget⟩ := List.getElem?_eq_some_iff.mp hr
  have hrs : rs = rs.take i ++ r :: rs.drop (i + 1) := by
    rw [← hget, List.getElem_cons_drop, List.take_append_drop]
  have hentries : entries rs = entries (rs.take i) ++
      ⟨r.line.sectionName, r.line.key, r.line.value⟩ :: entries (rs.drop (i + 1)) := by
    have hentry : r.line.entry? = some ⟨r.line.sectionName, r.line.key, r.line.value⟩ :=
      if_pos hkind
    conv_lhs => rw [hrs]
    rw [entries_append, entries_cons, hentry]
    rfl
  have hnone : ((entries (rs.drop (i + 1))).reverse.find? fun e =>
      e.sectionName = r.line.sectionName ∧ e.key = r.line.key) = none := by
    rw [List.find?_eq_none]
    rintro e he hek
    obtain ⟨r', hr', hkind', rfl⟩ := mem_entries.mp (List.mem_reverse.mp he)
    obtain ⟨j, hj⟩ := List.getElem?_of_mem hr'
    rw [List.getElem?_drop] at hj
    exact hlast (i + 1 + j) r' (by omega) hj ⟨hkind', by simpa using hek⟩
  rw [hentries, List.reverse_append, List.reverse_cons, List.append_assoc, List.find?_append, hnone,
    Option.none_or, List.singleton_append, List.find?_cons_of_pos (by simp), hr]
  rfl

/-- **`get` looks a key up among the entries.** -/
theorem get_eq_lookup (hd : d.Indexed) (s k : Bytes) :
    d.get s k = lookup (entries d.records) s k := by
  have hfind : d.findKey s k = (index d.records).findKey s k := by
    unfold findKey
    rw [hd.keyIndex_eq]
  unfold get lookup
  cases hs : d.keyIndex.find s with
  | none =>
    rw [hd.keyIndex_eq, find_keyIndex_eq_none] at hs
    rw [if_pos]
    intro e he
    obtain ⟨r, hr, hkind, rfl⟩ := mem_entries.mp he
    exact fun hname => hs r hr ⟨hkind, hname⟩
  | some keys =>
    rw [if_neg]
    · have hkeys : d.findKey s k = keys.find k := by
        unfold findKey
        rw [hs, Option.bind_some]
      rw [hfind] at hkeys
      cases hk : keys.find k with
      | none =>
        rw [hk] at hkeys
        have hno := (findKey_index d.records s k).2 hkeys
        have hnone : ((entries d.records).reverse.find? fun e =>
            e.sectionName = s ∧ e.key = k) = none := by
          rw [List.find?_eq_none]
          rintro e he hek
          obtain ⟨r, hr, hkind, rfl⟩ := mem_entries.mp (List.mem_reverse.mp he)
          exact hno r hr ⟨hkind, by simpa using hek⟩
        rw [hnone]
        simp only [hk]
      | some i =>
        rw [hk] at hkeys
        have hlast := (findKey_index d.records s k).1 i hkeys
        rw [find_entries hlast]
        obtain ⟨⟨r, hr, -⟩, -⟩ := hlast
        simp only [hk]
        rw [hr]
        change Except.ok (d.valueAt i) = Except.ok r.line.value
        unfold valueAt
        rw [hr]
        rfl
    · intro hall
      have hnone : (index d.records).keyIndex.find s = none := by
        rw [find_keyIndex_eq_none]
        rintro r hr ⟨hkind, hname⟩
        exact hall _ (mem_entries.mpr ⟨r, hr, hkind, rfl⟩) hname
      rw [← hd.keyIndex_eq, hs] at hnone
      cases hnone

end IniDocument

end Libca.Ini
