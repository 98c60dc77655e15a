import Libca.Json.Tokens
import Libca.Json.Writer

/-!
# What is written derives from the grammar (`json/json_writer.cpp`)

* `DoubleChars.Inverse`: what `std::to_chars` and `std::from_chars` promise of a finite double.
* `Value.tree`: the tree that a derivation stands for.
* `exists_stringLit`, `exists_number_int`, `exists_number_float`: the tokens.
* `exists_value`: **the writer writes a derivation of the tree it is given**, under every option;
  with `ensureAscii` all its bytes are ASCII.
-/

namespace Libca.Json

open Common Str

/-- What `std::to_chars` and `std::from_chars` promise of a finite double: the characters written
are a number of at most 24 characters, reading them gives the double back, and a fraction of zero
behind an integer does not change what is read. -/
def DoubleChars.Inverse (std : DoubleChars) (v : F64) : Prop :=
  ∃ n : Number, std.toChars v = .ok n.text ∧ n.text.length ≤ 24 ∧
    std.fromChars n.text = .ok (v, n.text.length) ∧
    (n.isInteger = true → std.fromChars (n.text ++ [46, 48]) = .ok (v, n.text.length + 2))

namespace JsonWriter

/-! ## Strings -/

theorem length_toChars_le {n : Nat} (h : n < 0x10000) : (toChars 16 n).length ≤ 4 := by
  unfold toChars
  split_ifs with h0
  · simp
  · rw [List.length_reverse, List.length_map]
    exact Nat.digits_length_le_iff (by decide) n |>.mpr (by omega)

theorem isHexDigit_digitChar {k : Nat} (h : k < 16) : IsHexDigit (digitChar k) := by
  interval_cases k <;> decide

/-- The four digits of `"%04x"`. -/
def quad (n : Nat) (h : n < 0x10000) : HexQuad where
  bytes := List.replicate (4 - (toChars 16 n).length) 48 ++ toChars 16 n
  length_eq := by
    have hlen := length_toChars_le h
    rw [List.length_append, List.length_replicate]
    omega
  hex := by
    intro b hb
    obtain hb | hb := List.mem_append.mp hb
    · rw [List.eq_of_mem_replicate hb]
      decide
    · obtain ⟨k, hk, rfl⟩ := mem_toChars (by decide) hb
      exact isHexDigit_digitChar hk

theorem quad_value (n : Nat) (h : n < 0x10000) : (quad n h).value = n := by
  have hzeros : ∀ k : Nat,
      (List.replicate k (48 : UInt8)).foldl (fun acc b => acc * 16 + digitVal b) 0 = 0 := by
    intro k
    induction k with
    | zero => rfl
    | succ k ih =>
      rw [List.replicate_succ, List.foldl_cons]
      exact ih
  have hchars := @ofChars_toChars 16 (by decide) (by decide) n
  unfold HexQuad.value quad ofChars
  rw [List.foldl_append, hzeros]
  exact hchars

theorem unicodeText_eq (n : Nat) (h : n < 0x10000) :
    unicodeText n = [92, 117] ++ (quad n h).bytes :=
  rfl

/-- The escape of a character is one item of a string. -/
theorem exists_item_codePointText (c : Char) : ∃ i : Item, i.char = c ∧
    i.text = codePointText c.toNat ∧ ∀ c' h, i ≠ .plain c' h := by
  have hc := toNat_scalar c
  unfold codePointText
  by_cases hbmp : c.toNat ≤ 0xFFFF
  · rw [if_pos hbmp]
    refine ⟨.unicode (quad c.toNat (by omega)) (by rw [quad_value]; omega), ?_, ?_, by simp⟩
    · rw [Item.char, quad_value, Char.ofNat_toNat]
    · rw [Item.text, unicodeText_eq _ (by omega)]
  · rw [if_neg hbmp]
    have hand : ∀ v : Nat, v &&& 0x3FF = v % 0x400 := fun v => Nat.and_two_pow_sub_one_eq_mod v 10
    have hshift : ∀ v : Nat, v >>> 10 = v / 0x400 := fun v => Nat.shiftRight_eq_div_pow v 10
    obtain ⟨v, hv⟩ : ∃ v, c.toNat = 0x10000 + v := ⟨c.toNat - 0x10000, by omega⟩
    have hsub : c.toNat - 0x10000 = v := by omega
    simp only [hsub, hand, hshift]
    have hhigh : 0xD800 + v / 0x400 < 0x10000 := by omega
    have hlow : 0xDC00 + v % 0x400 < 0x10000 := by omega
    refine ⟨.pair (quad _ hhigh) (quad _ hlow) (by rw [quad_value]; omega)
      (by rw [quad_value]; omega), ?_, ?_, by simp⟩
    · have hsum : 0x10000 + (0xD800 + v / 0x400 - 0xD800) * 0x400 +
          (0xDC00 + v % 0x400 - 0xDC00) = c.toNat := by
        omega
      rw [Item.char, quad_value, quad_value, hsum, Char.ofNat_toNat]
    · rw [Item.text, unicodeText_eq _ hhigh, unicodeText_eq _ hlow, List.append_assoc]

theorem leadByte_eq (c : UInt8) : leadByte c =
    if c.toNat < 0x80 then some (c.toNat, 0) else if c.toNat < 0xC0 then none
    else if c.toNat < 0xE0 then some (c.toNat % 32, 1)
    else if c.toNat < 0xF0 then some (c.toNat % 16, 2)
    else if c.toNat < 0xF8 then some (c.toNat % 8, 3) else none := by
  revert c
  exact forall_byte (by decide +kernel)

theorem continuation_cons {cc : UInt8} (h : 0x80 ≤ cc.toNat ∧ cc.toNat < 0xC0) (cp : Nat)
    (rest : Bytes) :
    continuation cp (cc :: rest) = continuation (cp * 64 + (cc.toNat - 0x80)) rest := by
  have hand : cc.toNat &&& 0x3F = cc.toNat - 0x80 := by
    rw [show (0x3F : Nat) = 2 ^ 6 - 1 from rfl, Nat.and_two_pow_sub_one_eq_mod]
    omega
  rw [continuation, (continuation_iff cc).mpr h, if_neg Bool.false_ne_true, hand,
    ← Nat.shiftLeft_add_eq_or_of_lt (by omega), Nat.shiftLeft_eq]

/-- The writer decodes a character outside ASCII. -/
theorem writeEscapedUtf8_utf8EncodeChar {c : Char} (hc : 0x80 ≤ c.toNat) (rest : Bytes) :
    ∃ b bs, String.utf8EncodeChar c = b :: bs ∧
      writeEscapedUtf8 b (bs ++ rest) = (codePointText c.toNat, bs.length) := by
  have hscalar := toNat_scalar c
  have hlow := toNat_ofNat_byte (n := c.toNat % 64 + 128) (by omega)
  have hmid := toNat_ofNat_byte (n := c.toNat / 64 % 64 + 128) (by omega)
  have htop := toNat_ofNat_byte (n := c.toNat / 4096 % 64 + 128) (by omega)
  obtain h | ⟨h, h'⟩ | ⟨h, h'⟩ | h := toNat_cases c
  · omega
  · have h0 := toNat_ofNat_byte (n := c.toNat / 64 + 192) (by omega)
    refine ⟨_, _, utf8EncodeChar_two h h', ?_⟩
    have hlead : leadByte (UInt8.ofNat (c.toNat / 64 + 192)) = some (c.toNat / 64, 1) := by
      rw [leadByte_eq, h0, if_neg (by omega), if_neg (by omega), if_pos (by omega)]
      exact congrArg (fun n => some (n, 1)) (by omega)
    unfold writeEscapedUtf8
    rw [hlead]
    simp only [List.cons_append, List.nil_append, List.take_succ_cons, List.take_zero,
      List.length_cons, List.length_nil]
    rw [if_neg (by omega), continuation_cons (by omega), hlow, continuation]
    simp only []
    exact congrArg (fun n => (codePointText n, 1)) (by omega)
  · have h0 := toNat_ofNat_byte (n := c.toNat / 4096 + 224) (by omega)
    refine ⟨_, _, utf8EncodeChar_three h h', ?_⟩
    have hlead : leadByte (UInt8.ofNat (c.toNat / 4096 + 224)) = some (c.toNat / 4096, 2) := by
      rw [leadByte_eq, h0, if_neg (by omega), if_neg (by omega), if_neg (by omega),
        if_pos (by omega)]
      exact congrArg (fun n => some (n, 2)) (by omega)
    unfold writeEscapedUtf8
    rw [hlead]
    simp only [List.cons_append, List.nil_append, List.take_succ_cons, List.take_zero,
      List.length_cons, List.length_nil]
    rw [if_neg (by omega), continuation_cons (by omega), continuation_cons (by omega), hmid, hlow,
      continuation]
    simp only []
    exact congrArg (fun n => (codePointText n, 2)) (by omega)
  · have h0 := toNat_ofNat_byte (n := c.toNat / 262144 + 240) (by omega)
    refine ⟨_, _, utf8EncodeChar_four h, ?_⟩
    have hlead : leadByte (UInt8.ofNat (c.toNat / 262144 + 240)) = some (c.toNat / 262144, 3) := by
      rw [leadByte_eq, h0, if_neg (by omega), if_neg (by omega), if_neg (by omega),
        if_neg (by omega), if_pos (by omega)]
      exact congrArg (fun n => some (n, 3)) (by omega)
    unfold writeEscapedUtf8
    rw [hlead]
    simp only [List.cons_append, List.nil_append, List.take_succ_cons, List.take_zero,
      List.length_cons, List.length_nil]
    rw [if_neg (by omega), continuation_cons (by omega), continuation_cons (by omega),
      continuation_cons (by omega), htop, hmid, hlow, continuation]
    simp only []
    exact congrArg (fun n => (codePointText n, 3)) (by omega)

theorem stringText_skip (options : JsonWriterOptions) (bs rest : Bytes) :
    stringText options bs.length (bs ++ rest) = stringText options 0 rest := by
  induction bs with
  | nil => rfl
  | cons b bs ih => exact ih

/-- A byte outside ASCII is in none of the cases before the last two. -/
theorem stringText_cons {options : JsonWriterOptions} {b : UInt8} (hb : 0x80 ≤ b) (rest : Bytes) :
    stringText options 0 (b :: rest) = if options.ensureAscii && 0x80 ≤ b then
      (writeEscapedUtf8 b rest).1 ++ stringText options (writeEscapedUtf8 b rest).2 rest
    else b :: stringText options 0 rest := by
  have hne : b ≠ 34 ∧ b ≠ 92 ∧ b ≠ 8 ∧ b ≠ 12 ∧ b ≠ 10 ∧ b ≠ 13 ∧ b ≠ 9 ∧ ¬ b < 0x20 := by
    grind
  obtain ⟨h34, h92, h8, h12, h10, h13, h9, h20⟩ := hne
  rw [stringText, if_neg h34, if_neg h92, if_neg h8, if_neg h12, if_neg h10, if_neg h13,
    if_neg h9, if_neg h20]

theorem stringText_escape {options : JsonWriterOptions} (hopt : options.ensureAscii = true)
    {b : UInt8} (hb : 0x80 ≤ b) (rest : Bytes) : stringText options 0 (b :: rest) =
      (writeEscapedUtf8 b rest).1 ++ stringText options (writeEscapedUtf8 b rest).2 rest := by
  rw [stringText_cons hb, hopt, if_pos (by simpa using hb)]

/-- Bytes outside ASCII are copied, unless they are to be escaped. -/
theorem stringText_copy {options : JsonWriterOptions} (hopt : options.ensureAscii = false)
    {bs : Bytes} (hbs : ∀ b ∈ bs, 0x80 ≤ b.toNat) (rest : Bytes) :
    stringText options 0 (bs ++ rest) = bs ++ stringText options 0 rest := by
  induction bs with
  | nil => rfl
  | cons b bs ih =>
    have hb : 0x80 ≤ b := UInt8.le_iff_toNat_le.mpr (hbs b (.head _))
    rw [List.cons_append, stringText_cons hb, hopt, Bool.false_and, if_neg Bool.false_ne_true,
      ih fun b hb => hbs b (.tail _ hb)]
    rfl

/-- Only an unescaped character has bytes outside ASCII. -/
theorem ascii_text {i : Item} (h : ∀ c hc, i = .plain c hc → c.toNat < 0x80) :
    ∀ b ∈ i.text, b < 0x80 := by
  cases i with
  | plain c hc =>
    have hascii := h c hc rfl
    rw [Item.text, utf8EncodeChar_one hascii]
    intro b hb
    rw [List.mem_singleton.mp hb, UInt8.lt_iff_toNat_lt, toNat_ofNat_byte (by omega)]
    exact hascii
  | short x => cases x <;> decide
  | unicode q _ =>
    rw [Item.text, List.forall_mem_append]
    exact ⟨by decide, JsonParser.hexQuad_lt q⟩
  | pair high low _ _ =>
    rw [Item.text, List.forall_mem_append, List.forall_mem_append, List.forall_mem_append]
    exact ⟨by decide, JsonParser.hexQuad_lt high, by decide, JsonParser.hexQuad_lt low⟩

/-- A character that has an escape of its own. -/
theorem stringText_short (options : JsonWriterOptions) (x : ShortEscape) (hx : x ≠ .slash)
    (rest : Bytes) : stringText options 0 (String.utf8EncodeChar x.char ++ rest) =
      (Item.short x).text ++ stringText options 0 rest := by
  cases x with
  | slash => exact absurd rfl hx
  | _ => rfl

/-- A character of ASCII without an escape of its own. -/
theorem stringText_ascii {options : JsonWriterOptions} {c : Char} (hc : c.toNat < 0x80)
    (hshort : ∀ x : ShortEscape, x ≠ .slash → c ≠ x.char) (rest : Bytes) :
    stringText options 0 (String.utf8EncodeChar c ++ rest) =
      (if c.toNat < 0x20 then unicodeText c.toNat else [UInt8.ofNat c.toNat]) ++
        stringText options 0 rest := by
  have hb := toNat_ofNat_byte (n := c.toNat) (by omega)
  have hne : ∀ (x : ShortEscape) (k : UInt8), x ≠ .slash → x.char.toNat = k.toNat →
      UInt8.ofNat c.toNat ≠ k := by
    intro x k hx hk hck
    refine hshort x hx (Char.toNat_inj.mp ?_)
    rw [hk, ← hck, hb]
  rw [utf8EncodeChar_one hc, List.singleton_append, stringText,
    if_neg (hne .quote 34 (by decide) rfl), if_neg (hne .backslash 92 (by decide) rfl),
    if_neg (hne .b 8 (by decide) rfl), if_neg (hne .f 12 (by decide) rfl),
    if_neg (hne .n 10 (by decide) rfl), if_neg (hne .r 13 (by decide) rfl),
    if_neg (hne .t 9 (by decide) rfl)]
  by_cases hctl : c.toNat < 0x20
  · rw [if_pos hctl, if_pos (by rw [UInt8.lt_iff_toNat_lt, hb]; exact hctl), hb]
  · have hascii : ¬ 0x80 ≤ UInt8.ofNat c.toNat := by
      rw [UInt8.le_iff_toNat_le, hb]
      exact Nat.not_le.mpr hc
    rw [if_neg hctl, if_neg (by rw [UInt8.lt_iff_toNat_lt, hb]; exact hctl),
      if_neg (by simp [hascii])]
    rfl

/-- A character is written as one item of a string. -/
theorem exists_item (options : JsonWriterOptions) (c : Char) : ∃ i : Item, i.char = c ∧
    (∀ rest, stringText options 0 (String.utf8EncodeChar c ++ rest) =
      i.text ++ stringText options 0 rest) ∧
    (options.ensureAscii = true → ∀ b ∈ i.text, b < 0x80) := by
  by_cases hshort : ∃ x : ShortEscape, x ≠ .slash ∧ c = x.char
  · obtain ⟨x, hx, rfl⟩ := hshort
    exact ⟨.short x, rfl, stringText_short options x hx, fun _ => ascii_text (by simp)⟩
  have hshort' : ∀ x : ShortEscape, x ≠ .slash → c ≠ x.char := fun x hx hcx =>
    hshort ⟨x, hx, hcx⟩
  by_cases hascii : c.toNat < 0x80
  · by_cases hctl : c.toNat < 0x20
    · refine ⟨.unicode (quad c.toNat (by omega)) (by rw [quad_value]; omega), ?_, ?_,
        fun _ => ascii_text (by simp)⟩
      · rw [Item.char, quad_value, Char.ofNat_toNat]
      · intro rest
        rw [stringText_ascii hascii hshort', if_pos hctl, Item.text, unicodeText_eq _ (by omega)]
    · have hplain : 0x20 ≤ c.toNat ∧ c ≠ '"' ∧ c ≠ '\\' :=
        ⟨Nat.not_lt.mp hctl, hshort' .quote (by decide), hshort' .backslash (by decide)⟩
      refine ⟨.plain c hplain, rfl, ?_, fun _ => ascii_text ?_⟩
      · intro rest
        rw [stringText_ascii hascii hshort', if_neg hctl, Item.text, utf8EncodeChar_one hascii]
      · rintro c' _ heq
        cases heq
        exact hascii
  · have hle : 0x80 ≤ c.toNat := Nat.not_lt.mp hascii
    cases hopt : options.ensureAscii with
    | true =>
      obtain ⟨i, hi, htext, hplain⟩ := exists_item_codePointText c
      refine ⟨i, hi, fun rest => ?_, fun _ => ascii_text fun c' h heq => absurd heq (hplain c' h)⟩
      obtain ⟨b, bs, hc, hwrite⟩ := writeEscapedUtf8_utf8EncodeChar hle rest
      have hb : 0x80 ≤ b := by
        obtain ⟨hlt, -⟩ | ⟨-, hall⟩ := utf8EncodeChar_ascii_or c
        · exact absurd hlt hascii
        · exact UInt8.le_iff_toNat_le.mpr (hall b (by rw [hc]; exact .head _))
      rw [hc, List.cons_append, stringText_escape hopt hb, hwrite, htext]
      simp only [stringText_skip]
    | false =>
      have hplain : 0x20 ≤ c.toNat ∧ c ≠ '"' ∧ c ≠ '\\' :=
        ⟨by omega, hshort' .quote (by decide), hshort' .backslash (by decide)⟩
      refine ⟨.plain c hplain, rfl, fun rest => ?_, fun h => absurd h Bool.false_ne_true⟩
      obtain ⟨hlt, -⟩ | ⟨-, hall⟩ := utf8EncodeChar_ascii_or c
      · exact absurd hlt hascii
      · exact stringText_copy hopt hall rest

/-- **A string is written as a derivation of it.** -/
theorem exists_stringLit (options : JsonWriterOptions) {s : Bytes} (hs : IsUtf8 s) :
    ∃ lit : StringLit, lit.text = writeString options s ∧ lit.value = s ∧
      (options.ensureAscii = true → ∀ b ∈ lit.text, b < 0x80) := by
  obtain ⟨cs, rfl⟩ := hs
  have hitems : ∃ items : List Item, items.map Item.char = cs ∧
      items.flatMap Item.text = stringText options 0 (encode cs) ∧
      (options.ensureAscii = true → ∀ b ∈ items.flatMap Item.text, b < 0x80) := by
    induction cs with
    | nil => exact ⟨[], rfl, rfl, by simp⟩
    | cons c cs ih =>
      obtain ⟨items, hchars, htext, hascii⟩ := ih
      obtain ⟨i, hi, hitext, hiascii⟩ := exists_item options c
      refine ⟨i :: items, by rw [List.map_cons, hi, hchars], ?_, fun hopt => ?_⟩
      · rw [List.flatMap_cons, htext, encode_cons, hitext]
      · rw [List.flatMap_cons, List.forall_mem_append]
        exact ⟨hiascii hopt, hascii hopt⟩
  obtain ⟨items, hchars, htext, hascii⟩ := hitems
  refine ⟨⟨items⟩, ?_, by rw [StringLit.value, hchars], fun hopt => ?_⟩
  · rw [StringLit.text, StringLit.body, htext]
    rfl
  · rw [StringLit.text, StringLit.body, List.forall_mem_cons, List.forall_mem_append]
    exact ⟨by decide, hascii hopt, by decide⟩

/-! ## Numbers -/

theorem isDigit_digitChar {k : Nat} (h : k < 10) : isDigit (digitChar k) = true := by
  interval_cases k <;> decide

/-- The digits of a decimal numeral. -/
def decimal (n : Nat) : Digits where
  bytes := toChars 10 n
  ne_nil := toChars_ne_nil 10 n
  digit := by
    intro b hb
    obtain ⟨k, hk, rfl⟩ := mem_toChars (by decide) hb
    exact isDigit_digitChar hk

/-- A numeral has no leading zero. -/
theorem decimal_lead (n : Nat) : (decimal n).bytes.head? = some 48 → (decimal n).bytes = [48] := by
  intro hhead
  unfold decimal toChars at hhead ⊢
  split_ifs at hhead ⊢ with h0
  · rfl
  · -- the first digit is the last one of the least significant first
    have hne : Nat.digits 10 n ≠ [] := Nat.digits_ne_nil_iff_ne_zero.mpr h0
    have hlast := Nat.getLast_digit_ne_zero 10 h0
    rw [List.head?_reverse, List.getLast?_map, List.getLast?_eq_some_getLast hne,
      Option.map_some, Option.some_inj] at hhead
    have hlt := Nat.digits_lt_base (by decide) (List.getLast_mem hne)
    generalize (Nat.digits 10 n).getLast hne = k at hhead hlast hlt
    interval_cases k <;> first | exact absurd rfl hlast | cases hhead

/-- **An integer is written as a literal of it.** -/
theorem exists_number_int (std : DoubleChars) (v : Int64) : ∃ n : Number, n.text = writeInt v ∧
    n.value std = some (.int v) := by
  refine ⟨⟨decide (v.toInt < 0), decimal v.toInt.natAbs, decimal_lead _, none, none⟩, ?_, ?_⟩
  · unfold writeInt Number.text Number.minusText
    by_cases hneg : v.toInt < 0 <;> simp [hneg, Number.fracText, Number.expText, decimal]
  · have hvalue : (Number.mk (decide (v.toInt < 0)) (decimal v.toInt.natAbs) (decimal_lead _) none
        none).intValue = v.toInt := by
      unfold Number.intValue decimal
      rw [ofChars_toChars (by decide) (by decide)]
      by_cases hneg : v.toInt < 0
      · simp only [hneg, decide_true, if_true]
        omega
      · simp only [hneg, decide_false, Bool.false_eq_true, if_false]
        omega
    have hle := Int64.le_toInt v
    have hlt := Int64.toInt_lt v
    unfold Number.value
    rw [hvalue, if_pos ⟨rfl, hle, hlt⟩, Int64.ofInt_toInt]

/-- A literal has a point or an exponent exactly when it is no integer. -/
theorem any_dotOrExp (n : Number) :
    (n.text.any fun c => c == 46 || c == 101 || c == 69) = !n.isInteger := by
  have hdigits : ∀ ds : Digits, (ds.bytes.any fun c => c == 46 || c == 101 || c == 69) = false := by
    intro ds
    rw [List.any_eq_false]
    intro b hb
    have hrange := JsonParser.isDigit_iff.mp (ds.digit b hb)
    grind
  unfold Number.isInteger Number.text Number.minusText Number.fracText Number.expText Exponent.text
  cases n.minus <;> cases n.frac <;> cases n.exp with
  | none => simp [hdigits]
  | some x => cases hx : x.upper <;> simp [hdigits, hx]

/-- **A finite float is written as a literal of it**, with a fraction if it has neither a point nor
an exponent. -/
theorem exists_number_float {std : DoubleChars} {v : F64} (hv : v.IsFinite)
    (hstd : std.Inverse v) : ∃ n : Number, n.text = writeFloat std v ∧
      n.value std = some (.float v) := by
  obtain ⟨n, htext, hlen, hread, hzero⟩ := hstd
  unfold writeFloat
  rw [if_neg (by rw [(F64.isFinite_iff v).mp hv]; exact Bool.false_ne_true), htext]
  simp only [any_dotOrExp]
  cases hint : n.isInteger with
  | false =>
    refine ⟨n, rfl, ?_⟩
    unfold Number.value
    rw [hint, if_neg (by simp), hread]
    simp
  | true =>
    have hfrac : n.frac = none ∧ n.exp = none := by
      unfold Number.isInteger at hint
      simpa using hint
    have hsum : (Number.mk n.minus n.int n.lead (some (decimal 0)) none).text =
        n.text ++ [46, 48] := by
      rw [JsonParser.text_of_isInteger hint, List.append_assoc]
      rfl
    refine ⟨⟨n.minus, n.int, n.lead, some (decimal 0), none⟩, ?_, ?_⟩
    · rw [hsum, if_pos (by simp; omega)]
      rfl
    · unfold Number.value
      rw [hsum, if_neg (by simp [Number.isInteger]), hzero hint]
      simp

/-! ## Values -/

section Values

variable {std : DoubleChars} {options : JsonWriterOptions}

/-- The whitespace of a new line. -/
def newlineWs (options : JsonWriterOptions) (depth : Nat) : Ws where
  bytes := newlineAndIndent options depth
  space := by
    intro b hb
    unfold newlineAndIndent at hb
    cases hpretty : options.pretty with
    | false => simp [hpretty] at hb
    | true =>
      rw [hpretty, if_pos rfl] at hb
      obtain rfl | hb := List.mem_cons.mp hb
      · simp
      · rw [List.eq_of_mem_replicate hb]
        simp

/-- The whitespace behind the colon of a member. -/
def spaceWs (options : JsonWriterOptions) : Ws where
  bytes := space options
  space := by
    intro b hb
    unfold space at hb
    cases hpretty : options.pretty with
    | false => simp [hpretty] at hb
    | true =>
      rw [hpretty, if_pos rfl] at hb
      simp [List.mem_singleton.mp hb]

/-- No whitespace. -/
def noWs : Ws := ⟨[], by simp⟩

theorem ascii_ws (w : Ws) : ∀ b ∈ w.bytes, b < 0x80 := by
  intro b hb
  rcases w.space b hb with rfl | rfl | rfl | rfl <;> decide

theorem ascii_number (n : Number) : ∀ b ∈ n.text, b < 0x80 := by
  have hdigits : ∀ ds : Digits, ∀ b ∈ ds.bytes, b < 0x80 := by
    intro ds b hb
    have hrange := JsonParser.isDigit_iff.mp (ds.digit b hb)
    grind
  unfold Number.text Number.minusText
  simp only [List.forall_mem_append]
  refine ⟨by cases n.minus <;> decide, hdigits n.int, ?_, ?_⟩
  · cases n.frac with
    | none => simp [Number.fracText]
    | some ds =>
      rw [Number.fracText, List.forall_mem_cons]
      exact ⟨by decide, hdigits ds⟩
  · cases n.exp with
    | none => simp [Number.expText]
    | some x =>
      rw [Number.expText, Exponent.text, List.forall_mem_cons, List.forall_mem_append]
      refine ⟨by cases x.upper <;> decide, ?_, hdigits x.digits⟩
      cases x.sign with
      | none => simp [Exponent.signText]
      | some minus => cases minus <;> exact by decide

/-- `d` derives `text`, which was written for `v`. -/
structure Writes (std : DoubleChars) (options : JsonWriterOptions) (text : Bytes) (v : JsonValue)
    (d : Value) : Prop where
  derives : d.text = text
  tree : d.tree std = v
  accepted : d.Accepted std
  depth : d.depth = v.depth
  ascii : options.ensureAscii = true → ∀ b ∈ text, b < 0x80

/-- `es` derives `text`, which was written for `items`. -/
structure WritesItems (std : DoubleChars) (options : JsonWriterOptions) (text : Bytes)
    (items : List JsonValue) (es : Elements) : Prop where
  derives : es.text = text
  trees : es.trees std = items
  accepted : es.Accepted std
  depth : es.depth = JsonValue.itemsDepth items
  ascii : options.ensureAscii = true → ∀ b ∈ text, b < 0x80

/-- `ms` derives `text`, which was written for `members`. -/
structure WritesMembers (std : DoubleChars) (options : JsonWriterOptions) (text : Bytes)
    (members : List (Bytes × JsonValue)) (ms : Members) : Prop where
  derives : ms.text = text
  trees : ms.trees std = members
  accepted : ms.Accepted std
  depth : ms.depth = JsonValue.membersDepth members
  ascii : options.ensureAscii = true → ∀ b ∈ text, b < 0x80

variable {v : JsonValue}

theorem writes_number {n : Number} {x : NumberValue} (hx : n.value std = some x)
    (hv : (Value.number n).tree std = v) (hdepth : v.depth = 0) :
    Writes std options n.text v (.number n) where
  derives := by rw [Value.text]
  tree := hv
  accepted := by rw [Value.Accepted, hx]; rfl
  depth := by rw [Value.depth, hdepth]
  ascii := fun _ => ascii_number n

variable {d : Value}

/-- The last item, in front of the closing bracket. -/
theorem WritesItems.one {text : Bytes} (hd : Writes std options text v d) (depth : Nat) :
    WritesItems std options (text ++ newlineAndIndent options depth) [v]
      (.one d (newlineWs options depth)) where
  derives := by rw [Elements.text, hd.derives]; rfl
  trees := by rw [Elements.trees, hd.tree]
  accepted := hd.accepted
  depth := by rw [Elements.depth, hd.depth, JsonValue.itemsDepth, JsonValue.itemsDepth,
    Nat.max_zero]
  ascii := fun hopt => List.forall_mem_append.mpr
    ⟨hd.ascii hopt, ascii_ws (newlineWs options depth)⟩

/-- An item and those after it. -/
theorem WritesItems.cons {text texts : Bytes} {items : List JsonValue}
    {es : Elements} (hd : Writes std options text v d)
    (hes : WritesItems std options texts items es) (depth : Nat) :
    WritesItems std options (text ++ 44 :: (newlineAndIndent options depth ++ texts)) (v :: items)
      (.cons d noWs (newlineWs options depth) es) where
  derives := by rw [Elements.text, hd.derives, hes.derives]; rfl
  trees := by rw [Elements.trees, hd.tree, hes.trees]
  accepted := ⟨hd.accepted, hes.accepted⟩
  depth := by rw [Elements.depth, hd.depth, hes.depth, JsonValue.itemsDepth]
  ascii := fun hopt => List.forall_mem_append.mpr ⟨hd.ascii hopt, List.forall_mem_cons.mpr
    ⟨by decide, List.forall_mem_append.mpr ⟨ascii_ws (newlineWs options depth), hes.ascii hopt⟩⟩⟩

/-- The last member, in front of the closing bracket. -/
theorem WritesMembers.one {key text : Bytes} (hkey : IsUtf8 key)
    (hd : Writes std options text v d) (depth : Nat) : ∃ ms,
    WritesMembers std options (writeString options key ++ 58 :: (space options ++ (text ++
      newlineAndIndent options depth))) [(key, v)] ms := by
  obtain ⟨lit, hlit, hvalue, hascii⟩ := exists_stringLit options hkey
  refine ⟨.one lit noWs (spaceWs options) d (newlineWs options depth), ?_, ?_, hd.accepted, ?_, ?_⟩
  · rw [Members.text, hlit, hd.derives]
    rfl
  · rw [Members.trees, hd.tree, hvalue]
  · rw [Members.depth, hd.depth, JsonValue.membersDepth, JsonValue.membersDepth, Nat.max_zero]
  · intro hopt
    rw [← hlit, List.forall_mem_append, List.forall_mem_cons, List.forall_mem_append,
      List.forall_mem_append]
    exact ⟨hascii hopt, by decide, ascii_ws (spaceWs options), hd.ascii hopt,
      ascii_ws (newlineWs options depth)⟩

/-- A member and those after it. -/
theorem WritesMembers.cons {key text texts : Bytes}
    {members : List (Bytes × JsonValue)} {ms : Members} (hkey : IsUtf8 key)
    (hd : Writes std options text v d) (hms : WritesMembers std options texts members ms)
    (depth : Nat) : ∃ ms,
    WritesMembers std options (writeString options key ++ 58 :: (space options ++ (text ++
      44 :: (newlineAndIndent options depth ++ texts)))) ((key, v) :: members) ms := by
  obtain ⟨lit, hlit, hvalue, hascii⟩ := exists_stringLit options hkey
  refine ⟨.cons lit noWs (spaceWs options) d noWs (newlineWs options depth) ms, ?_, ?_,
    ⟨hd.accepted, hms.accepted⟩, ?_, ?_⟩
  · rw [Members.text, hlit, hd.derives, hms.derives]
    rfl
  · rw [Members.trees, hd.tree, hvalue, hms.trees]
  · rw [Members.depth, hd.depth, hms.depth, JsonValue.membersDepth]
  · intro hopt
    rw [← hlit, List.forall_mem_append, List.forall_mem_cons, List.forall_mem_append,
      List.forall_mem_append, List.forall_mem_cons, List.forall_mem_append]
    exact ⟨hascii hopt, by decide, ascii_ws (spaceWs options), hd.ascii hopt, by decide,
      ascii_ws (newlineWs options depth), hms.ascii hopt⟩

mutual

/-- **What is written for a tree is a derivation of it.** -/
theorem exists_value (hstd : ∀ v : F64, v.IsFinite → std.Inverse v) (v : JsonValue) (hv : v.Valid)
    (depth : Nat) : ∃ d, Writes std options (writeValue std options depth v) v d := by
  cases v with
  | null =>
    refine ⟨.null, ?_, by rw [Value.tree], trivial, rfl, fun _ => ?_⟩
    · rw [Value.text, writeValue]
    · rw [writeValue]
      decide
  | bool v =>
    refine ⟨.bool v, ?_, by rw [Value.tree], trivial, rfl, fun _ => ?_⟩
    · rw [Value.text, writeValue]
    · rw [writeValue]
      cases v <;> decide
  | int v =>
    obtain ⟨n, htext, hn⟩ := exists_number_int std v
    rw [writeValue, ← htext]
    exact ⟨_, writes_number hn (by rw [Value.tree, hn]) rfl⟩
  | float v =>
    obtain ⟨n, htext, hn⟩ := exists_number_float hv (hstd v hv)
    rw [writeValue, ← htext]
    exact ⟨_, writes_number hn (by rw [Value.tree, hn]) rfl⟩
  | string v =>
    obtain ⟨lit, hlit, hvalue, hascii⟩ := exists_stringLit options hv
    refine ⟨.string lit, ?_, by rw [Value.tree, hvalue], trivial, rfl, fun hopt => ?_⟩
    · rw [Value.text, writeValue, hlit]
    · rw [writeValue, ← hlit]
      exact hascii hopt
  | array items =>
    cases items with
    | nil =>
      refine ⟨.emptyArray noWs, ?_, by rw [Value.tree], trivial, rfl, fun _ => ?_⟩
      · rw [Value.text, writeValue]
        rfl
      · rw [writeValue]
        decide
    | cons v items =>
      obtain ⟨hv, hitems⟩ := hv
      obtain ⟨d, hd⟩ := exists_value hstd v hv (depth + 1)
      obtain ⟨es, hes⟩ := exists_items hstd items hitems depth hd
      have htext : (Value.array (newlineWs options (depth + 1)) es).text =
          writeValue std options depth (.array (v :: items)) := by
        rw [Value.text, writeValue, hes.derives, show ascii "[" = [91] from rfl,
          show ascii "]" = [93] from rfl]
        simp [newlineWs]
      refine ⟨_, htext, by rw [Value.tree, hes.trees], hes.accepted, ?_, fun hopt => ?_⟩
      · rw [Value.depth, hes.depth, JsonValue.depth]
      · rw [← htext, Value.text, hes.derives]
        rw [List.forall_mem_cons, List.forall_mem_append, List.forall_mem_append]
        exact ⟨by decide, ascii_ws _, hes.ascii hopt, by decide⟩
  | object members =>
    cases members with
    | nil =>
      refine ⟨.emptyObject noWs, ?_, by rw [Value.tree], trivial, rfl, fun _ => ?_⟩
      · rw [Value.text, writeValue]
        rfl
      · rw [writeValue]
        decide
    | cons m members =>
      obtain ⟨key, v⟩ := m
      obtain ⟨hkey, hv, hmembers⟩ := hv
      obtain ⟨d, hd⟩ := exists_value hstd v hv (depth + 1)
      obtain ⟨ms, hms⟩ := exists_members hstd members hmembers depth hkey hd
      have htext : (Value.object (newlineWs options (depth + 1)) ms).text =
          writeValue std options depth (.object ((key, v) :: members)) := by
        rw [Value.text, writeValue, hms.derives, show ascii "\x7b" = [123] from rfl,
          show ascii "\x7d" = [125] from rfl, show ascii ":" = [58] from rfl]
        simp [newlineWs]
      refine ⟨_, htext, by rw [Value.tree, hms.trees], hms.accepted, ?_, fun hopt => ?_⟩
      · rw [Value.depth, hms.depth, JsonValue.depth]
      · rw [← htext, Value.text, hms.derives]
        rw [List.forall_mem_cons, List.forall_mem_append, List.forall_mem_append]
        exact ⟨by decide, ascii_ws _, hms.ascii hopt, by decide⟩

/-- The items of an array after the first, behind the first. -/
theorem exists_items (hstd : ∀ v : F64, v.IsFinite → std.Inverse v) (items : List JsonValue)
    (hitems : JsonValue.ItemsValid items) (depth : Nat) {text : Bytes} {v : JsonValue} {d : Value}
    (hd : Writes std options text v d) : ∃ es, WritesItems std options
      (text ++ (writeItems std options (depth + 1) items ++ newlineAndIndent options depth))
      (v :: items) es := by
  cases items with
  | nil => exact ⟨_, .one hd depth⟩
  | cons v' items =>
    obtain ⟨hv', hrest⟩ := hitems
    obtain ⟨d', hd'⟩ := exists_value hstd v' hv' (depth + 1)
    obtain ⟨es, hes⟩ := exists_items hstd items hrest depth hd'
    have hcons := WritesItems.cons hd hes (depth + 1)
    rw [writeItems, show ascii "," = [44] from rfl]
    simp only [List.append_assoc, List.cons_append, List.nil_append] at hcons ⊢
    exact ⟨_, hcons⟩

/-- The members of an object after the first, behind the first. -/
theorem exists_members (hstd : ∀ v : F64, v.IsFinite → std.Inverse v)
    (members : List (Bytes × JsonValue)) (hmembers : JsonValue.MembersValid members) (depth : Nat)
    {key text : Bytes} {v : JsonValue} {d : Value} (hkey : IsUtf8 key)
    (hd : Writes std options text v d) : ∃ ms, WritesMembers std options
      (writeString options key ++ 58 :: (space options ++ (text ++
        (writeMembers std options (depth + 1) members ++ newlineAndIndent options depth))))
      ((key, v) :: members) ms := by
  cases members with
  | nil => exact WritesMembers.one hkey hd depth
  | cons m members =>
    obtain ⟨key', v'⟩ := m
    obtain ⟨hkey', hv', hrest⟩ := hmembers
    obtain ⟨d', hd'⟩ := exists_value hstd v' hv' (depth + 1)
    obtain ⟨ms, hms⟩ := exists_members hstd members hrest depth hkey' hd'
    obtain ⟨ms', hms'⟩ := WritesMembers.cons hkey hd hms (depth + 1)
    rw [writeMembers, show ascii "," = [44] from rfl, show ascii ":" = [58] from rfl]
    simp only [List.append_assoc, List.cons_append, List.nil_append] at hms' ⊢
    exact ⟨ms', hms'⟩

end

end Values

end JsonWriter

end Libca.Json
