import Libca.Ini.LineForm

/-!
# Lines written one after the other (`ini/ini_document.cpp`)

What a text is read as that was put together from lines.

* `Forms`: the entries that a list of lines is read as.
* `Follows`: a line that has no end is the last one, is blank, or has an empty line behind it.
* `forms_splitLines`: such lines, written one after the other, are read as they are one by one.
* `read_of_forms`: a text whose lines have forms is read.
-/

namespace Libca.Ini

open Common Str

namespace IniReader

/-- The text of lines with their ends. -/
def joined (lines : List (Bytes × Bytes)) : Bytes := lines.flatMap fun line => line.1 ++ line.2

@[simp] theorem joined_cons (line : Bytes × Bytes) (lines : List (Bytes × Bytes)) :
    joined (line :: lines) = line.1 ++ line.2 ++ joined lines :=
  List.flatMap_cons

/-- The entries that lines are read as, from a current section on. -/
inductive Forms : Bytes → List Bytes → List Entry → Prop
  | nil {currentSection : Bytes} : Forms currentSection [] []
  | cons {currentSection raw : Bytes} {next : Option Bytes} {entry : Option Entry}
      {raws : List Bytes} {es : List Entry} (h : LineForm currentSection raw next entry)
      (hrest : Forms (next.getD currentSection) raws es) :
      Forms currentSection (raw :: raws) (entry.toList ++ es)

variable {currentSection raw : Bytes} {next : Option Bytes} {entry : Option Entry}

/-- A blank line starts no section and has no entry. -/
theorem LineForm.of_blank
    (h : LineForm currentSection raw next entry) (hblank : trimAscii raw = []) :
    next = none ∧ entry = none := by
  cases h with
  | blank h => exact ⟨rfl, rfl⟩
  | comment h hfirst => exact ⟨rfl, rfl⟩
  | header h hclose =>
    rw [hblank] at h
    cases h
  | key hkey =>
    obtain ⟨b, hb, -⟩ := hkey.head?_trimAscii _
    rw [hblank] at hb
    cases hb

variable {es : List Entry}

theorem Forms.skip_blank {raws : List Bytes}
    (h : Forms currentSection (raw :: raws) es) (hblank : trimAscii raw = []) :
    Forms currentSection raws es := by
  cases h with
  | cons h hrest =>
    obtain ⟨rfl, rfl⟩ := h.of_blank hblank
    exact hrest

theorem Forms.prepend_spaces {spaces : Bytes} {raws : List Bytes}
    (h : Forms currentSection (raw :: raws) es) (hspaces : ∀ b ∈ spaces, isSpace b = true) :
    Forms currentSection ((spaces ++ raw) :: raws) es := by
  cases h with
  | cons h hrest => exact Forms.cons (h.prepend_spaces hspaces) hrest

/-! ## Cutting the text again -/

theorem splitLines_noBreak (hraw : NoBreak raw) (acc rest : Bytes) :
    splitLines acc (raw ++ rest) = splitLines (acc ++ raw) rest := by
  induction raw generalizing acc with
  | nil => simp
  | cons b raw ih =>
    obtain ⟨hb, hraw⟩ := List.forall_mem_cons.mp hraw
    rw [List.cons_append, splitLines, if_neg (by simp [hb.1, hb.2]), ih hraw, List.append_assoc,
      List.singleton_append]
    intro rest' h13 _
    exact absurd h13 hb.1

/-- A line that is not merged with the next one is cut off. -/
theorem splitLines_line {ending : Bytes} (hraw : NoBreak raw) (hending : IsLineEnding ending)
    {rest : Bytes} (hrest : ¬ (ending = [13] ∧ rest.head? = some 10)) :
    splitLines [] (raw ++ ending ++ rest) = (raw, ending) :: splitLines [] rest := by
  rw [List.append_assoc, splitLines_noBreak hraw, List.nil_append]
  rcases hending with rfl | rfl | rfl
  · simp [splitLines]
  · cases rest with
    | nil => simp [splitLines]
    | cons b rest =>
      have hb : b ≠ 10 := fun hb => hrest ⟨rfl, by rw [hb]; rfl⟩
      rw [List.singleton_append, splitLines, if_pos (.inl rfl)]
      intro rest' _ h
      exact hb (List.cons.inj h).1
  · simp [splitLines]

theorem splitLines_last (hraw : NoBreak raw) (hne : raw ≠ []) :
    splitLines [] raw = [(raw, [])] := by
  have h := splitLines_noBreak hraw [] []
  rw [List.append_nil, List.nil_append] at h
  rw [h, splitLines, if_neg hne]

/-- A line that has no end is blank, or has an empty line behind it. -/
def Follows (line next : Bytes × Bytes) : Prop :=
  line.2 ≠ [] ∨ next.1 = [] ∨ trimAscii line.1 = []

variable {lines : List (Bytes × Bytes)}

/-- The line behind a CR that starts with LF is empty. -/
theorem eq_of_head?_joined
    (hshape : ∀ line ∈ lines, LineShape line.1 line.2) (h : (joined lines).head? = some 10) :
    ∃ rest, lines = ([], [10]) :: rest := by
  cases lines with
  | nil => cases h
  | cons line rest =>
    obtain ⟨raw, ending⟩ := line
    have hline := hshape _ (.head _)
    rw [joined_cons] at h
    cases raw with
    | nil =>
      refine ⟨rest, ?_⟩
      rcases hline.ending with (hending | hending | hending) | hending
      · simp_all
      · simp_all
      · simp_all
      · exact absurd hending (hline.nonempty rfl)
    | cons b raw =>
      obtain rfl : b = 10 := Option.some.inj h
      exact absurd rfl (hline.noBreak 10 (.head _)).2

/-- **Lines written one after the other are read as they are one by one.** -/
theorem forms_splitLines
    (hshape : ∀ line ∈ lines, LineShape line.1 line.2) (hfollows : lines.IsChain Follows)
    (h : Forms currentSection (lines.map Prod.fst) es) :
    Forms currentSection ((splitLines [] (joined lines)).map Prod.fst) es := by
  induction hn : lines.length using Nat.strong_induction_on
    generalizing currentSection lines es with
  | _ n ih =>
    subst hn
    match lines with
    | [] => exact h
    | (raw, ending) :: rest =>
      obtain ⟨hline, hrestShape⟩ := List.forall_mem_cons.mp hshape
      have hrestFollows := hfollows.tail
      rw [joined_cons]
      rcases hline.ending with hending | rfl
      · by_cases hmerge : ending = [13] ∧ (joined rest).head? = some 10
        · -- CR is read together with the LF that ends an empty line behind it
          obtain ⟨rfl, hhead⟩ := hmerge
          obtain ⟨rest2, rfl⟩ := eq_of_head?_joined hrestShape hhead
          have hcut : splitLines [] (raw ++ [13] ++ joined (([], [10]) :: rest2)) =
              (raw, [13, 10]) :: splitLines [] (joined rest2) := by
            rw [joined_cons, List.append_assoc]
            have hcrlf : splitLines [] (raw ++ [13, 10] ++ joined rest2) =
                (raw, [13, 10]) :: splitLines [] (joined rest2) :=
              splitLines_line hline.noBreak (.inr (.inr rfl)) nofun
            simpa using hcrlf
          rw [hcut]
          cases h with
          | cons hform hrest =>
            exact Forms.cons hform (ih rest2.length (by simp) (List.forall_mem_cons.mp
              hrestShape).2 hrestFollows.tail (hrest.skip_blank rfl) rfl)
        · rw [splitLines_line hline.noBreak hending hmerge]
          cases h with
          | cons hform hrest =>
            exact Forms.cons hform (ih rest.length (by simp) hrestShape hrestFollows hrest rfl)
      · have hne : raw ≠ [] := fun hraw => hline.nonempty hraw rfl
        match rest with
        | [] =>
          have hlast : raw ++ ([] : Bytes) ++ joined [] = raw := by simp [joined]
          rw [hlast, splitLines_last hline.noBreak hne]
          exact h
        | (raw2, ending2) :: rest2 =>
          obtain ⟨hline2, hrestShape2⟩ := List.forall_mem_cons.mp hrestShape
          rcases (List.isChain_cons_cons.mp hfollows).1 with hend | hempty | hblank
          · exact absurd rfl hend
          · -- the end of an empty line ends this line
            obtain rfl : raw2 = [] := hempty
            have hmerged : raw ++ ([] : Bytes) ++ joined (([], ending2) :: rest2) =
                joined ((raw, ending2) :: rest2) := by simp
            rw [hmerged]
            refine ih _ (by simp) (List.forall_mem_cons.mpr ⟨⟨hline.noBreak, hline2.ending,
              fun hraw => absurd hraw hne⟩, hrestShape2⟩) ?_ ?_ rfl
            · cases rest2 with
              | nil => exact List.isChain_singleton _
              | cons line3 rest3 =>
                refine List.isChain_cons_cons.mpr ⟨.inl (hline2.nonempty rfl), ?_⟩
                exact (List.isChain_cons_cons.mp hrestFollows).2
            · cases h with
              | cons hform hrest => exact Forms.cons hform (hrest.skip_blank rfl)
          · -- a blank line is the start of the next one
            have hspaces : ∀ b ∈ raw, isSpace b = true := trim_eq_nil_iff.mp hblank
            have hmerged : raw ++ ([] : Bytes) ++ joined ((raw2, ending2) :: rest2) =
                joined ((raw ++ raw2, ending2) :: rest2) := by simp
            rw [hmerged]
            refine ih _ (by simp) (List.forall_mem_cons.mpr ⟨⟨hline.noBreak.append hline2.noBreak,
              hline2.ending, fun hraw => absurd (List.append_eq_nil_iff.mp hraw).1 hne⟩,
              hrestShape2⟩) ?_ ?_ rfl
            · cases rest2 with
              | nil => exact List.isChain_singleton _
              | cons line3 rest3 =>
                obtain ⟨hstep, htail⟩ := List.isChain_cons_cons.mp hrestFollows
                refine List.isChain_cons_cons.mpr ⟨?_, htail⟩
                refine hstep.imp_right fun hstep => hstep.imp_right fun hblank2 => ?_
                exact (trim_append_left hspaces raw2).trans hblank2
            · exact (h.skip_blank hblank).prepend_spaces hspaces

/-! ## Reading -/

theorem isUtf8_splitLines {text : Bytes} (h : IsUtf8 (raw ++ text)) :
    ∀ line ∈ splitLines raw text, IsUtf8 line.1 := by
  fun_induction splitLines raw text with
  | case1 => exact fun _ hl => absurd hl List.not_mem_nil
  | case2 raw hne => exact List.forall_mem_singleton.mpr (by simpa using h)
  | case3 raw rest ih =>
    obtain ⟨hraw, hrest⟩ := h.split (by decide)
    exact List.forall_mem_cons.mpr ⟨hraw, ih (hrest.of_cons (by decide))⟩
  | case4 raw ch rest hnot hch ih =>
    have hascii : ch < 0x80 := by
      rcases hch with rfl | rfl <;> decide
    obtain ⟨hraw, hrest⟩ := h.split hascii
    exact List.forall_mem_cons.mpr ⟨hraw, ih hrest⟩
  | case5 raw ch rest hnot hch ih => exact ih (by simpa using h)

theorem LineForm.isUtf8_next (h : LineForm currentSection raw next entry) (hraw : IsUtf8 raw)
    (hsection : IsUtf8 currentSection) : IsUtf8 (next.getD currentSection) := by
  cases h with
  | blank h => exact hsection
  | comment h hfirst => exact hsection
  | header h hclose => exact isUtf8_header hraw h hclose
  | key hkey => exact hsection

/-- A line with a form takes the loop of `read` a turn further. -/
theorem readLine_of_lineForm {s : ReadState} {line : Bytes × Bytes}
    (h : LineForm s.currentSection line.1 next entry)
    (hraw : IsUtf8 line.1) (hending : IsUtf8 line.2) (hsection : IsUtf8 s.currentSection) :
    ∃ t, readLine {} s line = .ok t ∧ t.currentSection = next.getD s.currentSection ∧
      entries t.document.records = entries s.document.records ++ entry.toList := by
  obtain ⟨parsed, hparsed, rfl, rfl⟩ :=
    parseLine_of_lineForm h hraw hending hsection s.lineNumber
  have henter : ∃ s1, enterSection {} s parsed.nextSection = .ok s1 := by
    cases parsed.nextSection with
    | none => exact ⟨_, rfl⟩
    | some name => exact ⟨_, by unfold enterSection; exact if_neg fun h => by cases h.1⟩
  obtain ⟨s1, hs1⟩ := henter
  have hnote : ∃ s2, noteKey {} s1 parsed.record.line = .ok s2 := by
    unfold noteKey
    by_cases hkind : parsed.record.line.kind = .keyValue
    · exact ⟨_, by rw [if_pos hkind, if_neg fun h => by cases h.1]⟩
    · exact ⟨_, if_neg hkind⟩
  obtain ⟨s2, hs2⟩ := hnote
  obtain ⟨hdocument1, hsection1⟩ := enterSection_eq_ok {} hs1
  obtain ⟨hdocument2, hsection2⟩ := noteKey_eq_ok {} hs2
  refine ⟨_, by unfold readLine; rw [hparsed, except_ok_bind, hs1, except_ok_bind, hs2,
    except_ok_bind]; rfl, ?_, ?_⟩
  · change s2.currentSection = _
    rw [hsection2, hsection1]
  · change entries (s2.document.addRecord parsed.record).records = _
    rw [addRecord_records, entries_append, entries_cons, entries_nil, List.append_nil, hdocument2,
      hdocument1]

theorem foldlM_readLine_of_forms {s : ReadState}
    (h : Forms s.currentSection (lines.map Prod.fst) es)
    (hlines : ∀ line ∈ lines, IsUtf8 line.1 ∧ IsUtf8 line.2) (hsection : IsUtf8 s.currentSection) :
    ∃ t, lines.foldlM (readLine {}) s = .ok t ∧
      entries t.document.records = entries s.document.records ++ es := by
  induction lines generalizing s es with
  | nil =>
    cases h with
    | nil => exact ⟨s, rfl, by simp⟩
  | cons line lines ih =>
    obtain ⟨hline, hlines⟩ := List.forall_mem_cons.mp hlines
    cases h with
    | cons hform hrest =>
      obtain ⟨t, ht, hcurrent, hentries⟩ :=
        readLine_of_lineForm hform hline.1 hline.2 hsection
      rw [← hcurrent] at hrest
      obtain ⟨t', ht', hentries'⟩ :=
        ih hrest hlines (hcurrent ▸ hform.isUtf8_next hline.1 hsection)
      refine ⟨t', foldlM_cons_eq_ok.mpr ⟨t, ht, ht'⟩, ?_⟩
      rw [hentries', hentries, List.append_assoc]

/-- **A text whose lines have forms is read**, to the entries of its lines. -/
theorem read_of_forms {text : Bytes} (htext : IsUtf8 text)
    (hbom : ¬ bom <+: text) (h : Forms [] ((splitLines [] text).map Prod.fst) es) :
    ∃ d, read {} text = .ok d ∧ d.Indexed ∧ entries d.records = es := by
  have hskip : skipBom text = text := if_neg (by rwa [List.isPrefixOf_iff_prefix])
  have hutf8 : ∀ line ∈ splitLines [] text, IsUtf8 line.1 := isUtf8_splitLines htext
  have hshape : ∀ line ∈ splitLines [] text, LineShape line.1 line.2 :=
    splitLines_shape fun _ hb => (nomatch hb)
  obtain ⟨s, hs, hentries⟩ := foldlM_readLine_of_forms (s := {}) h (fun line hline =>
    ⟨hutf8 line hline, (hshape line hline).isUtf8_ending⟩) isUtf8_nil
  refine ⟨s.document.rebuildIndex, ?_, IniDocument.indexed_rebuildIndex _, ?_⟩
  · unfold read
    rw [hskip, hs]
    rfl
  · rw [IniDocument.rebuildIndex_records, hentries]
    rfl

/-! ## The byte order mark -/

/-- A byte order mark has no ASCII byte. -/
theorem bom_prefix_append {p q : Bytes} {c : UInt8} (hc : c < 0x80) :
    bom <+: p ++ c :: q ↔ bom <+: p := by
  constructor
  · rintro ⟨t, ht⟩
    obtain ⟨a, rfl, -⟩ | ⟨a, hbom, hrest⟩ := List.append_eq_append_iff.mp ht
    · exact List.prefix_append _ _
    · cases a with
      | nil => rw [hbom, List.append_nil]
      | cons b a =>
        obtain rfl : c = b := (List.cons.inj hrest).1
        have hmem : c ∈ bom := by rw [hbom]; simp
        have hnot : ∀ b ∈ bom, ¬ b < 0x80 := by decide
        exact absurd hc (hnot c hmem)
  · exact fun h => h.trans (List.prefix_append _ _)

theorem IsLineEnding.exists_cons {ending : Bytes} (h : IsLineEnding ending) :
    ∃ c rest, ending = c :: rest ∧ c < 0x80 := by
  rcases h with rfl | rfl | rfl
  · exact ⟨10, [], rfl, by decide⟩
  · exact ⟨13, [], rfl, by decide⟩
  · exact ⟨13, [10], rfl, by decide⟩

/-- Lines start with a byte order mark only if the first one does. -/
theorem not_bom_joined
    (hshape : ∀ line ∈ lines, LineShape line.1 line.2) (hfollows : lines.IsChain Follows)
    (h : ∀ line, lines.head? = some line → ¬ bom <+: line.1) : ¬ bom <+: joined lines := by
  match lines with
  | [] => exact fun hbom => nomatch (List.prefix_nil.mp hbom)
  | (raw, ending) :: rest =>
    obtain ⟨hline, hrestShape⟩ := List.forall_mem_cons.mp hshape
    have hraw : ¬ bom <+: raw := h _ rfl
    rw [joined_cons]
    rcases hline.ending with hending | rfl
    · obtain ⟨c, t, rfl, hc⟩ := hending.exists_cons
      rw [List.append_assoc, List.cons_append, bom_prefix_append hc]
      exact hraw
    · match rest with
      | [] =>
        have hlast : raw ++ ([] : Bytes) ++ joined [] = raw := by simp [joined]
        rwa [hlast]
      | (raw2, ending2) :: rest2 =>
        obtain ⟨hline2, -⟩ := List.forall_mem_cons.mp hrestShape
        rw [joined_cons, List.append_nil]
        rcases (List.isChain_cons_cons.mp hfollows).1 with hend | hempty | hblank
        · exact absurd rfl hend
        · obtain rfl : raw2 = [] := hempty
          have hending2 := hline2.ending.resolve_right (hline2.nonempty rfl)
          obtain ⟨c, t, rfl, hc⟩ := hending2.exists_cons
          rw [List.nil_append, List.cons_append, bom_prefix_append hc]
          exact hraw
        · cases raw with
          | nil => exact absurd rfl (hline.nonempty rfl)
          | cons b raw =>
            have hspace : isSpace b = true := trim_eq_nil_iff.mp hblank b (.head _)
            intro hbom
            obtain rfl : 0xEF = b := (List.cons_prefix_cons.mp hbom).1
            cases hspace

end IniReader

end Libca.Ini
