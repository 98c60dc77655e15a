import Libca.Common.Except
import Libca.Common.FromChars
import Libca.Common.Positions

/-!
# Socket addresses as text (`net/address.cpp` 15-241)

`IpAddress` and `SocketAddress` with `parse` and `to_string` on POSIX. What `inet_pton` and
`inet_ntop` do with the two kinds of textual addresses is a parameter, `Inet`; `inet_pton` is given
a C string, which ends at the first NUL.

* `SocketAddress.parse`, `SocketAddress.toText`: the functions.
* `Written`: the forms of a socket address. In a form that is `cut`, a NUL and anything else stands
  behind the textual address. `parse_eq_iff_written`: **a text is read exactly when it has a form,
  cut or not, as the form says.**
* `parse_toText`: **what is written is read back.**
* `exact_iff`: **reading is exact unless the text has a form that is cut.** `not_exact`: such a
  text.
-/

namespace Libca.Net

open Common

/-! ## Addresses -/

/-- An `IpAddress`. -/
inductive IpAddress where
  | v4 (octets : Vector UInt8 4)
  | v6 (octets : Vector UInt8 16)
  deriving DecidableEq

/-- `is_ipv4`. -/
def IpAddress.isIpv4 : IpAddress → Bool
  | v4 _ => true
  | v6 _ => false

/-- A `SocketAddress`; its constructor leaves out the numbers that IPv4 does not have. -/
structure SocketAddress where
  ip : IpAddress
  port : UInt16
  flowInfo : UInt32
  scopeId : UInt32
  ipv4 : ip.isIpv4 = true → flowInfo = 0 ∧ scopeId = 0
  deriving DecidableEq

/-- The constructor. -/
def SocketAddress.create (ip : IpAddress) (port : UInt16) (flowInfo scopeId : UInt32) :
    SocketAddress where
  ip := ip
  port := port
  flowInfo := if ip.isIpv4 then 0 else flowInfo
  scopeId := if ip.isIpv4 then 0 else scopeId
  ipv4 h := by rw [if_pos h, if_pos h]; exact ⟨rfl, rfl⟩

/-- `inet_pton` and `inet_ntop` for the two families. -/
structure Inet where
  pton4 : Bytes → Option (Vector UInt8 4)
  pton6 : Bytes → Option (Vector UInt8 16)
  ntop4 : Vector UInt8 4 → Bytes
  ntop6 : Vector UInt8 16 → Bytes

/-- A hexadecimal digit. -/
def hexadecimalDigit (b : UInt8) : Bool :=
  decimalDigit b || (65 ≤ b && b ≤ 70) || (97 ≤ b && b ≤ 102)

/-- What is documented: a textual address is made of digits and dots, or of hexadecimal digits, dots
and colons, and the text that is written for an address denotes it. -/
structure Inet.Documented (inet : Inet) : Prop where
  pton4_ntop4 : ∀ octets, inet.pton4 (inet.ntop4 octets) = some octets
  pton6_ntop6 : ∀ octets, inet.pton6 (inet.ntop6 octets) = some octets
  text4 : ∀ {text octets}, inet.pton4 text = some octets →
    text ≠ [] ∧ ∀ b ∈ text, decimalDigit b = true ∨ b = 46
  text6 : ∀ {text octets}, inet.pton6 text = some octets →
    58 ∈ text ∧ ∀ b ∈ text, hexadecimalDigit b = true ∨ b = 46 ∨ b = 58

/-- `c_str`, as it is read. -/
def cStr (value : Bytes) : Bytes := value.takeWhile fun b => b ≠ 0

/-! ## Reading and writing -/

/-- An `InvalidInput` error. -/
abbrev Parsed (α : Type) := Except Bytes α

/-- `parse_port`. -/
def parsePort (value : Bytes) : Parsed UInt16 :=
  if value = [] then .error (ascii "socket port is empty")
  else
    match fromCharsU32 value with
    | .value port [] =>
      if 65535 < port then .error (ascii "socket port must be an integer from 0 to 65535")
      else .ok (UInt16.ofNat port)
    | _ => .error (ascii "socket port must be an integer from 0 to 65535")

/-- `parse_scope_id`. -/
def parseScopeId (value : Bytes) : Parsed UInt32 :=
  if value = [] then .error (ascii "IPv6 scope id is empty")
  else
    match fromCharsU32 value with
    | .value scopeId [] => .ok (UInt32.ofNat scopeId)
    | _ => .error (ascii "IPv6 scope id must be an unsigned integer")

/-- `IpAddress::parse`. -/
def IpAddress.parse (inet : Inet) (value : Bytes) : Parsed IpAddress :=
  if value = [] then .error (ascii "IP address is empty")
  else
    match inet.pton4 (cStr value) with
    | some octets => .ok (.v4 octets)
    | none =>
      match inet.pton6 (cStr value) with
      | some octets => .ok (.v6 octets)
      | none => .error (ascii "invalid IPv4 or IPv6 address: " ++ value)

/-- `IpAddress::to_string`. -/
def IpAddress.toText (inet : Inet) : IpAddress → Bytes
  | v4 octets => inet.ntop4 octets
  | v6 octets => inet.ntop6 octets

/-- `address_text`, `port_text`, `scope_id` and `bracketed` of `SocketAddress::parse`. -/
structure AddressParts where
  addressText : Bytes
  portText : Bytes
  scopeId : UInt32
  bracketed : Bool

namespace SocketAddress

/-- The branch of `parse` for a text in brackets. -/
def splitBracketed (value : Bytes) : Parsed AddressParts :=
  match value.findIdx? (· == 93) with
  | none => .error (ascii "IPv6 socket address must use [address]:port")
  | some close =>
    if value.length ≤ close + 1 ∨ value[close + 1]? ≠ some 58 then
      .error (ascii "IPv6 socket address must use [address]:port")
    else
      let addressText := (value.drop 1).take (close - 1)
      let portText := value.drop (close + 2)
      match rfindIdx? (· == 37) addressText with
      | none => .ok ⟨addressText, portText, 0, true⟩
      | some scope => do
        let scopeId ← parseScopeId (addressText.drop (scope + 1))
        return ⟨addressText.take scope, portText, scopeId, true⟩

/-- The branch for any other text. -/
def splitPlain (value : Bytes) : Parsed AddressParts :=
  match rfindIdx? (· == 58) value with
  | none => .error (ascii "IPv4 socket address must use address:port")
  | some separator =>
    if value.findIdx? (· == 58) ≠ some separator then
      .error (ascii "IPv4 socket address must use address:port")
    else .ok ⟨value.take separator, value.drop (separator + 1), 0, false⟩

/-- The rest of `parse`. -/
def ofParts (inet : Inet) (parts : AddressParts) : Parsed SocketAddress := do
  let ip ← IpAddress.parse inet parts.addressText
  if parts.bracketed ∧ ip.isIpv4 then .error (ascii "bracketed socket address must contain IPv6")
  else if parts.scopeId ≠ 0 ∧ ip.isIpv4 then
    .error (ascii "IPv4 socket address cannot contain a scope id")
  else
    let port ← parsePort parts.portText
    return create ip port 0 parts.scopeId

/-- `parse`. -/
def parse (inet : Inet) (value : Bytes) : Parsed SocketAddress :=
  if value = [] then .error (ascii "socket address is empty")
  else (if value.head? = some 91 then splitBracketed value else splitPlain value) >>= ofParts inet

/-- `to_string`. -/
def toText (inet : Inet) (a : SocketAddress) : Bytes :=
  if a.ip.isIpv4 then a.ip.toText inet ++ ascii ":" ++ toChars 10 a.port.toNat
  else if a.scopeId ≠ 0 then
    ascii "[" ++ a.ip.toText inet ++ ascii "%" ++ toChars 10 a.scopeId.toNat ++ ascii "]:" ++
      toChars 10 a.port.toNat
  else ascii "[" ++ a.ip.toText inet ++ ascii "]:" ++ toChars 10 a.port.toNat

end SocketAddress

/-! ## The forms -/

/-- A decimal number. -/
def IsDecimal (text : Bytes) (n : Nat) : Prop :=
  text ≠ [] ∧ (∀ b ∈ text, decimalDigit b = true) ∧ ofChars 10 text = n

/-- What stands behind a textual address: nothing, or a NUL and anything else. -/
def Behind (cut : Bool) (junk : Bytes) : Prop := if cut then junk.head? = some 0 else junk = []

/-- The forms of a socket address. -/
inductive Written (inet : Inet) (cut : Bool) : Bytes → SocketAddress → Prop
  | v4 {text junk port : Bytes} {octets : Vector UInt8 4} {p : UInt16} :
      inet.pton4 text = some octets → Behind cut junk → 58 ∉ junk → IsDecimal port p.toNat →
      Written inet cut (text ++ junk ++ 58 :: port) (.create (.v4 octets) p 0 0)
  | v6 {text junk port : Bytes} {octets : Vector UInt8 16} {p : UInt16} :
      inet.pton6 text = some octets → Behind cut junk → 93 ∉ junk → 37 ∉ junk →
        IsDecimal port p.toNat →
      Written inet cut (91 :: (text ++ junk) ++ 93 :: 58 :: port) (.create (.v6 octets) p 0 0)
  | v6Scope {text junk scope port : Bytes} {octets : Vector UInt8 16} {p : UInt16} {id : UInt32} :
      inet.pton6 text = some octets → Behind cut junk → 93 ∉ junk → IsDecimal scope id.toNat →
      IsDecimal port p.toNat →
      Written inet cut (91 :: (text ++ junk ++ 37 :: scope) ++ 93 :: 58 :: port)
        (.create (.v6 octets) p 0 id)

variable {inet : Inet} {cut : Bool} {value text port junk : Bytes} {a : SocketAddress}
    {ip : IpAddress}
  {parts : AddressParts} {p : UInt16} {id : UInt32}

/-! ## Numbers -/

variable {n : Nat}

theorem isDecimal_iff (hn : n < 2 ^ 32) : IsDecimal text n ↔ fromCharsU32 text = .value n [] := by
  rw [fromCharsU32_eq_value, IsDecimal]
  constructor
  · rintro ⟨hne, hdigits, hvalue⟩
    exact ⟨hne, hdigits, hvalue, hn⟩
  · rintro ⟨hne, hdigits, hvalue, -⟩
    exact ⟨hne, hdigits, hvalue⟩

theorem isDecimal_toChars (n : Nat) : IsDecimal (toChars 10 n) n := by
  refine ⟨toChars_ne_nil 10 n, fun b hb => ?_, ofChars_toChars (by decide) (by decide) n⟩
  obtain ⟨d, hd, rfl⟩ := mem_toChars (by decide) hb
  interval_cases d <;> rfl

theorem IsDecimal.not_mem {b : UInt8} (h : IsDecimal text n) (hb : decimalDigit b = false) :
    b ∉ text :=
  fun hmem => absurd ((h.2.1 b hmem).symm.trans hb) (by decide)

/-- **A port is a decimal number up to 65535.** -/
theorem parsePort_eq_ok : parsePort value = .ok p ↔ IsDecimal value p.toNat := by
  have hlt := p.toNat_lt
  rw [isDecimal_iff (by omega), parsePort]
  constructor
  · intro h
    split_ifs at h with hempty
    cases hread : fromCharsU32 value with
    | invalidArgument =>
      rw [hread] at h
      cases h
    | resultOutOfRange =>
      rw [hread] at h
      cases h
    | value v rest =>
      rw [hread] at h
      cases rest with
      | cons b rest => cases h
      | nil =>
        dsimp only at h
        split_ifs at h with hlarge
        rw [← Except.ok.inj h, UInt16.toNat_ofNat_of_lt' (by show v < 2 ^ 16; omega)]
  · intro h
    have hne : value ≠ [] := (fromCharsU32_eq_value.mp h).1
    rw [if_neg hne, h]
    dsimp only
    rw [if_neg (by omega), UInt16.ofNat_toNat]

/-- **A scope is a decimal number below `2 ^ 32`.** -/
theorem parseScopeId_eq_ok : parseScopeId value = .ok id ↔ IsDecimal value id.toNat := by
  rw [isDecimal_iff id.toNat_lt, parseScopeId]
  constructor
  · intro h
    split_ifs at h with hempty
    cases hread : fromCharsU32 value with
    | invalidArgument =>
      rw [hread] at h
      cases h
    | resultOutOfRange =>
      rw [hread] at h
      cases h
    | value v rest =>
      rw [hread] at h
      cases rest with
      | cons b rest => cases h
      | nil =>
        have hv : v < 2 ^ 32 := (fromCharsU32_eq_value.mp hread).2.2.2
        rw [← Except.ok.inj h, UInt32.toNat_ofNat_of_lt' hv]
  · intro h
    have hne : value ≠ [] := (fromCharsU32_eq_value.mp h).1
    rw [if_neg hne, h]
    dsimp only
    rw [UInt32.ofNat_toNat]

/-! ## IP addresses -/

/-- A C string ends in front of a NUL. -/
theorem cStr_eq (htext : 0 ∉ text) :
    cStr value = text ↔ ∃ cut junk, Behind cut junk ∧ value = text ++ junk := by
  constructor
  · intro h
    have hsplit :=
      (List.takeWhile_append_dropWhile (p := fun b => decide (b ≠ 0)) (l := value)).symm
    rw [show value.takeWhile (fun b => decide (b ≠ 0)) = text from h] at hsplit
    cases hjunk : value.dropWhile fun b => decide (b ≠ 0) with
    | nil => exact ⟨false, [], rfl, by rwa [hjunk] at hsplit⟩
    | cons b rest =>
      refine ⟨true, b :: rest, ?_, by rwa [hjunk] at hsplit⟩
      have hstop := List.head?_dropWhile_not (fun b => decide (b ≠ 0)) value
      rw [hjunk] at hstop
      simpa [Behind] using hstop
  · rintro ⟨cut, junk, hbehind, rfl⟩
    have hall : ∀ b ∈ text, decide (b ≠ 0) = true := fun b hb => decide_eq_true fun h =>
      htext (h ▸ hb)
    unfold cStr
    rw [List.takeWhile_append_of_pos hall]
    cases cut with
    | false =>
      rw [show junk = [] from hbehind, List.takeWhile_nil, List.append_nil]
    | true =>
      obtain ⟨rest, rfl⟩ := List.head?_eq_some_iff.mp (show junk.head? = some 0 from hbehind)
      rw [List.takeWhile_cons_of_neg (by simp), List.append_nil]

namespace Inet.Documented

variable {octets4 : Vector UInt8 4} {octets6 : Vector UInt8 16}

theorem not_mem4 (hdoc : inet.Documented) (h : inet.pton4 text = some octets4) {b : UInt8}
    (hb : decimalDigit b = false) (hdot : b ≠ 46) : b ∉ text := by
  intro hmem
  rcases (hdoc.text4 h).2 b hmem with hdigit | heq
  · exact absurd (hdigit.symm.trans hb) (by decide)
  · exact hdot heq

theorem not_mem6 (hdoc : inet.Documented) (h : inet.pton6 text = some octets6) {b : UInt8}
    (hb : hexadecimalDigit b = false) (hdot : b ≠ 46) (hcolon : b ≠ 58) : b ∉ text := by
  intro hmem
  rcases (hdoc.text6 h).2 b hmem with hdigit | heq | heq
  · exact absurd (hdigit.symm.trans hb) (by decide)
  · exact hdot heq
  · exact hcolon heq

/-- A text denotes an address of one family only. -/
theorem pton4_of_pton6 (hdoc : inet.Documented) (h : inet.pton6 text = some octets6) :
    inet.pton4 text = none := by
  cases h4 : inet.pton4 text with
  | none => rfl
  | some octets => exact absurd (hdoc.text6 h).1 (hdoc.not_mem4 h4 (by decide) (by decide))

end Inet.Documented

/-- **A textual address is read, and what stands behind a NUL is not looked at.** -/
theorem IpAddress.parse_eq_ok (hdoc : inet.Documented) : IpAddress.parse inet value = .ok ip ↔
    ∃ cut text junk, Behind cut junk ∧ value = text ++ junk ∧
      ((∃ octets, inet.pton4 text = some octets ∧ ip = .v4 octets) ∨
        ∃ octets, inet.pton6 text = some octets ∧ ip = .v6 octets) := by
  have hnul4 {text : Bytes} {octets} (h : inet.pton4 text = some octets) : 0 ∉ text :=
    hdoc.not_mem4 h (by decide) (by decide)
  have hnul6 {text : Bytes} {octets} (h : inet.pton6 text = some octets) : 0 ∉ text :=
    hdoc.not_mem6 h (by decide) (by decide) (by decide)
  unfold IpAddress.parse
  constructor
  · intro h
    split_ifs at h with hempty
    cases h4 : inet.pton4 (cStr value) with
    | some octets =>
      rw [h4] at h
      obtain ⟨cut, junk, hbehind, hvalue⟩ := (cStr_eq (hnul4 h4)).mp rfl
      exact ⟨cut, _, junk, hbehind, hvalue, .inl ⟨octets, h4, (Except.ok.inj h).symm⟩⟩
    | none =>
      rw [h4] at h
      cases h6 : inet.pton6 (cStr value) with
      | some octets =>
        rw [h6] at h
        obtain ⟨cut, junk, hbehind, hvalue⟩ := (cStr_eq (hnul6 h6)).mp rfl
        exact ⟨cut, _, junk, hbehind, hvalue, .inr ⟨octets, h6, (Except.ok.inj h).symm⟩⟩
      | none =>
        rw [h6] at h
        cases h
  · rintro ⟨cut, text, junk, hbehind, rfl, ⟨octets, h4, rfl⟩ | ⟨octets, h6, rfl⟩⟩
    · have hne : text ++ junk ≠ [] := List.append_ne_nil_of_left_ne_nil (hdoc.text4 h4).1 junk
      rw [if_neg hne, (cStr_eq (hnul4 h4)).mpr ⟨cut, junk, hbehind, rfl⟩, h4]
    · have hne : text ++ junk ≠ [] :=
        List.append_ne_nil_of_left_ne_nil (List.ne_nil_of_mem (hdoc.text6 h6).1) junk
      rw [if_neg hne, (cStr_eq (hnul6 h6)).mpr ⟨cut, junk, hbehind, rfl⟩, hdoc.pton4_of_pton6 h6,
        h6]

/-! ## The parts of a text -/

namespace SocketAddress

theorem beq_false_of_not_mem {b : UInt8} {bytes : Bytes} (h : b ∉ bytes) :
    ∀ c ∈ bytes, (c == b) = false :=
  fun _ hc => beq_eq_false_iff_ne.mpr fun heq => h (heq ▸ hc)

theorem not_mem_of_beq_false {b : UInt8} {bytes : Bytes} (h : ∀ c ∈ bytes, (c == b) = false) :
    b ∉ bytes :=
  fun hmem => beq_eq_false_iff_ne.mp (h b hmem) rfl

theorem drop_behind (before : Bytes) (c : UInt8) (rest : Bytes) :
    (before ++ c :: rest).drop (before.length + 1) = rest := by
  rw [← List.drop_drop, List.drop_left]
  rfl

/-- `parse` of what is in brackets, with what stands behind them. -/
theorem splitBracketed_eq {inner : Bytes} (hinner : 93 ∉ inner) (rest : Bytes) :
    splitBracketed (91 :: inner ++ 93 :: rest) =
      if rest.head? ≠ some 58 then .error (ascii "IPv6 socket address must use [address]:port")
      else
        match rfindIdx? (· == 37) inner with
        | none => .ok ⟨inner, rest.tail, 0, true⟩
        | some scope => do
          let scopeId ← parseScopeId (inner.drop (scope + 1))
          return ⟨inner.take scope, rest.tail, scopeId, true⟩ := by
  have hfront : ∀ b ∈ 91 :: inner, (b == 93) = false :=
    List.forall_mem_cons.mpr ⟨rfl, beq_false_of_not_mem hinner⟩
  have hnext : (91 :: inner ++ 93 :: rest)[(91 :: inner).length + 1]? = rest.head? := by
    rw [List.getElem?_append_right (Nat.le_succ _), Nat.succ_sub (le_rfl), Nat.sub_self,
      List.getElem?_cons_succ, ← List.head?_eq_getElem?]
  have htext : ((91 :: inner ++ 93 :: rest).drop 1).take ((91 :: inner).length - 1) = inner :=
    List.take_left
  have hport : (91 :: inner ++ 93 :: rest).drop ((91 :: inner).length + 2) = rest.tail := by
    rw [← List.drop_drop, List.drop_left]
    cases rest <;> rfl
  have hcolon : ((91 :: inner ++ 93 :: rest).length ≤ (91 :: inner).length + 1 ∨
      (91 :: inner ++ 93 :: rest)[(91 :: inner).length + 1]? ≠ some 58) ↔ rest.head? ≠ some 58 := by
    rw [hnext, List.length_append]
    refine or_iff_right_of_imp fun hle => ?_
    rw [List.length_cons (a := 93)] at hle
    rw [List.length_eq_zero_iff.mp (show rest.length = 0 by omega)]
    nofun
  unfold splitBracketed
  rw [findIdx?_append_cons rest hfront rfl]
  dsimp only
  rw [if_congr hcolon rfl rfl, htext, hport]

/-- What is in the brackets is in front of the first closing one, and a scope behind the last
percent sign. -/
theorem splitBracketed_eq_ok {value : Bytes} : splitBracketed (91 :: value) = .ok parts ↔
    ∃ inner port, value = inner ++ 93 :: 58 :: port ∧ 93 ∉ inner ∧
      ((37 ∉ inner ∧ parts = ⟨inner, port, 0, true⟩) ∨
        ∃ before scope id, inner = before ++ 37 :: scope ∧ IsDecimal scope id.toNat ∧
          parts = ⟨before, port, id, true⟩) := by
  constructor
  · intro h
    cases hclose : (91 :: value).findIdx? (· == 93) with
    | none =>
      unfold splitBracketed at h
      rw [hclose] at h
      cases h
    | some close =>
      obtain ⟨front, c, rest, hvalue, rfl, hc, hfront⟩ := exists_of_findIdx? hclose
      obtain rfl : c = 93 := beq_iff_eq.mp hc
      cases front with
      | nil => cases hvalue
      | cons b inner =>
        obtain ⟨rfl, rfl⟩ := List.cons_eq_cons.mp hvalue
        have hinner : 93 ∉ inner := not_mem_of_beq_false (List.forall_mem_cons.mp hfront).2
        change splitBracketed (91 :: inner ++ 93 :: rest) = _ at h
        rw [splitBracketed_eq hinner] at h
        split_ifs at h with hcolon
        obtain ⟨port, rfl⟩ := List.head?_eq_some_iff.mp (not_not.mp hcolon)
        refine ⟨inner, port, rfl, hinner, ?_⟩
        cases hscope : rfindIdx? (· == 37) inner with
        | none =>
          rw [hscope] at h
          exact .inl ⟨not_mem_of_beq_false (rfindIdx?_eq_none.mp hscope), (Except.ok.inj h).symm⟩
        | some scope =>
          rw [hscope] at h
          obtain ⟨before, c, scopeText, rfl, rfl, hc, -⟩ := exists_of_rfindIdx? hscope
          obtain rfl : c = 37 := beq_iff_eq.mp hc
          dsimp only at h
          rw [drop_behind, List.take_left] at h
          cases hid : parseScopeId scopeText with
          | error e =>
            rw [hid] at h
            cases h
          | ok id =>
            rw [hid] at h
            exact .inr ⟨before, scopeText, id, rfl, parseScopeId_eq_ok.mp hid,
              (Except.ok.inj h).symm⟩
  · rintro ⟨inner, port, rfl, hinner, hparts⟩
    change splitBracketed (91 :: inner ++ 93 :: 58 :: port) = _
    have hcolon : ¬ (58 :: port).head? ≠ some 58 := not_not.mpr rfl
    rw [splitBracketed_eq hinner, if_neg hcolon]
    rcases hparts with ⟨hscope, rfl⟩ | ⟨before, scope, id, rfl, hid, rfl⟩
    · rw [rfindIdx?_eq_none.mpr (beq_false_of_not_mem hscope)]
      rfl
    · rw [rfindIdx?_append_cons before (beq_false_of_not_mem (hid.not_mem (by decide))) rfl]
      dsimp only
      rw [drop_behind, List.take_left, parseScopeId_eq_ok.mpr hid]
      rfl

/-- Any other text is cut at its only colon. -/
theorem splitPlain_eq_ok : splitPlain value = .ok parts ↔
    ∃ before port, value = before ++ 58 :: port ∧ 58 ∉ before ∧ 58 ∉ port ∧
      parts = ⟨before, port, 0, false⟩ := by
  unfold splitPlain
  constructor
  · intro h
    cases hlast : rfindIdx? (· == 58) value with
    | none =>
      rw [hlast] at h
      cases h
    | some separator =>
      rw [hlast] at h
      dsimp only at h
      split_ifs at h with honly
      rw [not_not] at honly
      obtain ⟨before, c, port, rfl, rfl, hc, hport⟩ := exists_of_rfindIdx? hlast
      obtain ⟨before', c', port', heq, hlength, -, hbefore⟩ := exists_of_findIdx? honly
      obtain ⟨rfl, -⟩ := List.append_inj heq hlength.symm
      obtain rfl : c = 58 := beq_iff_eq.mp hc
      refine ⟨before, port, rfl, not_mem_of_beq_false hbefore, not_mem_of_beq_false hport, ?_⟩
      rw [← Except.ok.inj h, List.take_left, drop_behind]
  · rintro ⟨before, port, rfl, hbefore, hport, rfl⟩
    rw [rfindIdx?_append_cons before (beq_false_of_not_mem hport) (beq_self_eq_true _)]
    dsimp only
    rw [findIdx?_append_cons port (beq_false_of_not_mem hbefore) (beq_self_eq_true _),
      if_neg (not_not.mpr rfl), List.take_left, drop_behind]

/-- The address and the port of a text that has been cut up. -/
theorem ofParts_eq_ok :
    ofParts inet parts = .ok a ↔ ∃ ip p, IpAddress.parse inet parts.addressText = .ok ip ∧
    (ip.isIpv4 = true → parts.bracketed = false ∧ parts.scopeId = 0) ∧
      IsDecimal parts.portText p.toNat ∧ a = create ip p 0 parts.scopeId := by
  unfold ofParts
  rw [except_bind_eq_ok]
  refine exists_congr fun ip => ?_
  constructor
  · rintro ⟨hip, h⟩
    split_ifs at h with hbracketed hscope
    obtain ⟨p, hport, ha⟩ := except_bind_eq_ok.mp h
    refine ⟨p, hip, fun hipv4 => ⟨?_, ?_⟩, parsePort_eq_ok.mp hport, (Except.ok.inj ha).symm⟩
    · exact Bool.eq_false_iff.mpr fun h => hbracketed ⟨h, hipv4⟩
    · by_contra hne
      exact hscope ⟨hne, hipv4⟩
  · rintro ⟨p, hip, hfamily, hport, rfl⟩
    have hbracketed : ¬ (parts.bracketed = true ∧ ip.isIpv4 = true) := fun h =>
      absurd (h.1.symm.trans (hfamily h.2).1) (by decide)
    have hscope : ¬ (parts.scopeId ≠ 0 ∧ ip.isIpv4 = true) := fun h => h.1 (hfamily h.2).2
    rw [if_neg hbracketed, if_neg hscope, parsePort_eq_ok.mpr hport]
    exact ⟨hip, rfl⟩

end SocketAddress

/-! ## Reading -/

/-- **A text is read exactly when it has a form.** -/
theorem parse_eq_iff_written (hdoc : inet.Documented) :
    SocketAddress.parse inet value = .ok a ↔ ∃ cut, Written inet cut value a := by
  unfold SocketAddress.parse
  constructor
  · intro h
    by_cases hempty : value = []
    · rw [if_pos hempty] at h
      cases h
    rw [if_neg hempty] at h
    obtain ⟨parts, hparts, h⟩ := except_bind_eq_ok.mp h
    obtain ⟨ip, p, hip, hfamily, hport, rfl⟩ := SocketAddress.ofParts_eq_ok.mp h
    obtain ⟨cut, text, junk, hbehind, htext, hdenotes⟩ := (IpAddress.parse_eq_ok hdoc).mp hip
    refine ⟨cut, ?_⟩
    by_cases hhead : value.head? = some 91
    · rw [if_pos hhead] at hparts
      obtain ⟨value, rfl⟩ := List.head?_eq_some_iff.mp hhead
      obtain ⟨inner, port, rfl, hinner, ⟨hscope, rfl⟩ | ⟨before, scope, id, rfl, hid, rfl⟩⟩ :=
        SocketAddress.splitBracketed_eq_ok.mp hparts
      · obtain rfl : inner = text ++ junk := htext
        rcases hdenotes with ⟨octets, h4, rfl⟩ | ⟨octets, h6, rfl⟩
        · exact absurd (hfamily rfl).1 nofun
        · exact .v6 h6 hbehind (fun hmem => hinner (List.mem_append_right _ hmem))
            (fun hmem => hscope (List.mem_append_right _ hmem)) hport
      · obtain rfl : before = text ++ junk := htext
        rcases hdenotes with ⟨octets, h4, rfl⟩ | ⟨octets, h6, rfl⟩
        · exact absurd (hfamily rfl).1 nofun
        · refine .v6Scope h6 hbehind (fun hmem => hinner ?_) hid hport
          exact List.mem_append_left _ (List.mem_append_right _ hmem)
    · rw [if_neg hhead] at hparts
      obtain ⟨before, port, rfl, hbefore, -, rfl⟩ := SocketAddress.splitPlain_eq_ok.mp hparts
      obtain rfl : before = text ++ junk := htext
      rcases hdenotes with ⟨octets, h4, rfl⟩ | ⟨octets, h6, rfl⟩
      · exact .v4 h4 hbehind (fun hmem => hbefore (List.mem_append_right _ hmem)) hport
      · exact absurd (List.mem_append_left _ (hdoc.text6 h6).1) hbefore
  · rintro ⟨cut, h⟩
    cases h with
    | @v4 text junk port octets p h4 hbehind hjunk hport =>
      have hhead : (text ++ junk ++ 58 :: port).head? ≠ some 91 := by
        obtain ⟨b, rest, rfl⟩ := List.exists_cons_of_ne_nil (hdoc.text4 h4).1
        intro hhead
        exact hdoc.not_mem4 h4 (b := 91) (by decide) (by decide) (Option.some.inj hhead ▸ .head _)
      have hbefore : 58 ∉ text ++ junk := fun hmem =>
        (List.mem_append.mp hmem).elim (hdoc.not_mem4 h4 (by decide) (by decide)) hjunk
      rw [if_neg (by simp), if_neg hhead, except_bind_eq_ok]
      refine ⟨_, SocketAddress.splitPlain_eq_ok.mpr ⟨_, port, rfl, hbefore,
        hport.not_mem (by decide), rfl⟩, ?_⟩
      refine SocketAddress.ofParts_eq_ok.mpr ⟨.v4 octets, p, ?_, fun _ => ⟨rfl, rfl⟩, hport, rfl⟩
      exact (IpAddress.parse_eq_ok hdoc).mpr ⟨cut, text, junk, hbehind, rfl, .inl ⟨octets, h4, rfl⟩⟩
    | @v6 text junk port octets p h6 hbehind hclose hscope hport =>
      have hinner : 93 ∉ text ++ junk := fun hmem =>
        (List.mem_append.mp hmem).elim (hdoc.not_mem6 h6 (by decide) (by decide) (by decide)) hclose
      have hpercent : 37 ∉ text ++ junk := fun hmem =>
        (List.mem_append.mp hmem).elim (hdoc.not_mem6 h6 (by decide) (by decide) (by decide)) hscope
      have hhead : (91 :: (text ++ junk) ++ 93 :: 58 :: port).head? = some 91 := rfl
      rw [if_neg (by simp), if_pos hhead, except_bind_eq_ok]
      refine ⟨_, SocketAddress.splitBracketed_eq_ok.mpr ⟨_, port, rfl, hinner,
        .inl ⟨hpercent, rfl⟩⟩, ?_⟩
      refine SocketAddress.ofParts_eq_ok.mpr ⟨.v6 octets, p, ?_, nofun, hport, rfl⟩
      exact (IpAddress.parse_eq_ok hdoc).mpr ⟨cut, text, junk, hbehind, rfl, .inr ⟨octets, h6, rfl⟩⟩
    | @v6Scope text junk scope port octets p id h6 hbehind hclose hid hport =>
      have hinner : 93 ∉ text ++ junk ++ 37 :: scope := by
        intro hmem
        rcases List.mem_append.mp hmem with hmem | hmem
        · exact (List.mem_append.mp hmem).elim (hdoc.not_mem6 h6 (by decide) (by decide)
            (by decide)) hclose
        · rcases List.mem_cons.mp hmem with heq | hmem
          · cases heq
          · exact hid.not_mem (by decide) hmem
      have hhead : (91 :: (text ++ junk ++ 37 :: scope) ++ 93 :: 58 :: port).head? = some 91 := rfl
      rw [if_neg (by simp), if_pos hhead, except_bind_eq_ok]
      refine ⟨_, SocketAddress.splitBracketed_eq_ok.mpr
        ⟨_, port, rfl, hinner, .inr ⟨text ++ junk, scope, id, rfl, hid, rfl⟩⟩, ?_⟩
      refine SocketAddress.ofParts_eq_ok.mpr ⟨.v6 octets, p, ?_, nofun, hport, rfl⟩
      exact (IpAddress.parse_eq_ok hdoc).mpr ⟨cut, text, junk, hbehind, rfl, .inr ⟨octets, h6, rfl⟩⟩

/-! ## Writing -/

/-- What is written has a form. -/
theorem written_toText (hdoc : inet.Documented) (hflow : a.flowInfo = 0) :
    Written inet false (a.toText inet) a := by
  obtain ⟨ip, p, flow, id, hipv4⟩ := a
  obtain rfl : flow = 0 := hflow
  have hport := isDecimal_toChars p.toNat
  unfold SocketAddress.toText
  cases ip with
  | v4 octets =>
    obtain rfl : id = 0 := (hipv4 rfl).2
    have h := @Written.v4 _ false _ [] _ _ _ (hdoc.pton4_ntop4 octets) rfl nofun hport
    rwa [List.append_nil, List.append_cons] at h
  | v6 octets =>
    rw [if_neg (show ¬ (IpAddress.v6 octets).isIpv4 = true by nofun)]
    dsimp only
    split_ifs with hid
    · have h := @Written.v6Scope _ false _ [] _ _ _ _ _ (hdoc.pton6_ntop6 octets) rfl nofun
        (isDecimal_toChars id.toNat) hport
      have htext : ascii "[" ++ inet.ntop6 octets ++ ascii "%" ++ toChars 10 id.toNat ++
        ascii "]:" ++
          toChars 10 p.toNat = 91 :: (inet.ntop6 octets ++ [] ++ 37 :: toChars 10 id.toNat) ++
            93 :: 58 :: toChars 10 p.toNat := by
        rw [show ascii "[" = [91] from rfl, show ascii "%" = [37] from rfl,
          show ascii "]:" = [93, 58] from rfl]
        simp
      exact htext ▸ h
    · obtain rfl : id = 0 := not_not.mp hid
      have h := @Written.v6 _ false _ [] _ _ _ (hdoc.pton6_ntop6 octets) rfl nofun nofun hport
      have htext : ascii "[" ++ inet.ntop6 octets ++ ascii "]:" ++ toChars 10 p.toNat =
          91 :: (inet.ntop6 octets ++ []) ++ 93 :: 58 :: toChars 10 p.toNat := by
        rw [show ascii "[" = [91] from rfl, show ascii "]:" = [93, 58] from rfl]
        simp
      exact htext ▸ h

/-- **What is written is read back.** -/
theorem parse_toText (hdoc : inet.Documented) (hflow : a.flowInfo = 0) :
    SocketAddress.parse inet (a.toText inet) = .ok a :=
  (parse_eq_iff_written hdoc).mpr ⟨false, written_toText hdoc hflow⟩

/-! ## Exactness -/

/-- A form has a NUL just when it is cut. -/
theorem Written.mem_nul (hdoc : inet.Documented) (h : Written inet cut value a) :
    0 ∈ value ↔ cut = true := by
  have hjunk {junk : Bytes} (hbehind : Behind cut junk) : 0 ∈ junk ↔ cut = true := by
    cases cut with
    | false =>
      rw [show junk = [] from hbehind]
      decide
    | true => exact iff_of_true (List.mem_of_head? hbehind) rfl
  cases h with
  | v4 h4 hbehind _ hport =>
    have htext := hdoc.not_mem4 h4 (b := 0) (by decide) (by decide)
    have hdigits := hport.not_mem (b := 0) (by decide)
    simp [htext, hdigits, hjunk hbehind]
  | v6 h6 hbehind _ _ hport =>
    have htext := hdoc.not_mem6 h6 (b := 0) (by decide) (by decide) (by decide)
    have hdigits := hport.not_mem (b := 0) (by decide)
    simp [htext, hdigits, hjunk hbehind]
  | v6Scope h6 hbehind _ hid hport =>
    have htext := hdoc.not_mem6 h6 (b := 0) (by decide) (by decide) (by decide)
    have hscope := hid.not_mem (b := 0) (by decide)
    have hdigits := hport.not_mem (b := 0) (by decide)
    simp [htext, hscope, hdigits, hjunk hbehind]

/-- What reading addresses is for: what is written is read back, and what is read is entirely a
form. -/
structure Exact (inet : Inet) (value : Bytes) : Prop where
  parse_toText : ∀ a : SocketAddress, a.flowInfo = 0 → SocketAddress.parse inet (a.toText inet) =
    .ok a
  written : ∀ a, SocketAddress.parse inet value = .ok a → Written inet false value a

/-- **Reading is exact unless the text is a form with a NUL and anything else behind the textual
address.** -/
theorem exact_iff (hdoc : inet.Documented) (value : Bytes) :
    Exact inet value ↔ ¬ ∃ a, Written inet true value a := by
  constructor
  · rintro ⟨-, hwritten⟩ ⟨a, ha⟩
    have hstrict := hwritten a ((parse_eq_iff_written hdoc).mpr ⟨true, ha⟩)
    exact absurd ((hstrict.mem_nul hdoc).mp ((ha.mem_nul hdoc).mpr rfl)) (by decide)
  · intro hnone
    refine ⟨fun a hflow => parse_toText hdoc hflow, fun a hparse => ?_⟩
    obtain ⟨cut, hwritten⟩ := (parse_eq_iff_written hdoc).mp hparse
    cases cut with
    | false => exact hwritten
    | true => exact absurd ⟨a, hwritten⟩ hnone

/-! ## An instance -/

/-- Octets as numerals with a separator between them. -/
def octetText (base : Nat) (separator : UInt8) (octets : List UInt8) : Bytes :=
  [separator].intercalate (octets.map fun b => toChars base b.toNat)

/-- The octets of such a text. -/
def readOctets (base : Nat) (separator : UInt8) (n : Nat) (text : Bytes) :
    Option (Vector UInt8 n) :=
  let octets := (text.splitOn separator).map fun part => UInt8.ofNat (ofChars base part)
  if h : octets.length = n ∧ octetText base separator octets = text then some ⟨octets.toArray, h.1⟩
  else none

/-- IPv4 addresses as they are written, and all octets of IPv6 addresses, each behind a colon but
the first. -/
def octetInet : Inet where
  pton4 := readOctets 10 46 4
  pton6 := readOctets 16 58 16
  ntop4 octets := octetText 10 46 octets.toList
  ntop6 octets := octetText 16 58 octets.toList

variable {base : Nat} {separator : UInt8}

theorem readOctets_octetText (hbase : 2 ≤ base) (hbase' : base ≤ 16)
    (hseparator : ∀ d < base, separator ≠ digitChar d) (hn : 0 < n) (octets : Vector UInt8 n) :
    readOctets base separator n (octetText base separator octets.toList) = some octets := by
  have hsplit : (octetText base separator octets.toList).splitOn separator =
      octets.toList.map fun b => toChars base b.toNat := by
    refine List.splitOn_intercalate _ (fun part hpart hmem => ?_) ?_
    · obtain ⟨b, -, rfl⟩ := List.mem_map.mp hpart
      obtain ⟨d, hd, heq⟩ := mem_toChars hbase hmem
      exact hseparator d hd heq
    · rw [← List.length_pos_iff, List.length_map, Vector.length_toList]
      exact hn
  have hoctets : ((octetText base separator octets.toList).splitOn separator).map
      (fun part => UInt8.ofNat (ofChars base part)) = octets.toList := by
    rw [hsplit, List.map_map]
    refine (List.map_congr_left fun b _ => ?_).trans (List.map_id _)
    rw [Function.comp_apply, ofChars_toChars hbase hbase', UInt8.ofNat_toNat]
    rfl
  unfold readOctets
  dsimp only
  rw [dif_pos ⟨by rw [hoctets, Vector.length_toList], by rw [hoctets]⟩]
  simp only [hoctets, Option.some_inj]
  exact Vector.toList_inj.mp rfl

/-- The bytes of such a text. -/
theorem mem_octetText {b : UInt8} (hbase : 2 ≤ base) {octets : List UInt8}
    (h : b ∈ octetText base separator octets) : (∃ d < base, b = digitChar d) ∨ b = separator := by
  unfold octetText at h
  induction octets with
  | nil => cases h
  | cons octet octets ih =>
    cases octets with
    | nil =>
      rw [List.map_cons, List.map_nil, List.intercalate_singleton] at h
      exact .inl (mem_toChars hbase h)
    | cons next octets =>
      rw [List.map_cons, List.map_cons, List.intercalate_cons_cons, List.mem_append,
        List.mem_append] at h
      rcases h with (h | h) | h
      · exact .inl (mem_toChars hbase h)
      · exact .inr (List.mem_singleton.mp h)
      · exact ih h

theorem exists_of_readOctets {octets : Vector UInt8 n}
    (h : readOctets base separator n text = some octets) :
    ∃ list : List UInt8, list.length = n ∧ octetText base separator list = text := by
  unfold readOctets at h
  dsimp only at h
  split_ifs at h with htext
  exact ⟨_, htext⟩

theorem separator_mem_octetText {octets : List UInt8} (h : 2 ≤ octets.length) :
    separator ∈ octetText base separator octets := by
  cases octets with
  | nil => cases h
  | cons first octets =>
    cases octets with
    | nil => exact absurd h (by simp)
    | cons second octets =>
      unfold octetText
      rw [List.map_cons, List.map_cons, List.intercalate_cons_cons]
      exact List.mem_append_left _ (List.mem_append_right _ (.head _))

/-- **The instance behaves as documented.** -/
theorem documented_octetInet : octetInet.Documented where
  pton4_ntop4 := readOctets_octetText (by decide) (by decide) (by decide) (by decide)
  pton6_ntop6 := readOctets_octetText (by decide) (by decide) (by decide) (by decide)
  text4 h := by
    obtain ⟨octets, hlength, rfl⟩ := exists_of_readOctets h
    refine ⟨List.ne_nil_of_mem (separator_mem_octetText (by omega)), fun b hb => ?_⟩
    rcases mem_octetText (by decide) hb with ⟨d, hd, rfl⟩ | rfl
    · exact .inl (by interval_cases d <;> rfl)
    · exact .inr rfl
  text6 h := by
    obtain ⟨octets, hlength, rfl⟩ := exists_of_readOctets h
    refine ⟨separator_mem_octetText (by omega), fun b hb => ?_⟩
    rcases mem_octetText (by decide) hb with ⟨d, hd, rfl⟩ | rfl
    · exact .inl (by interval_cases d <;> rfl)
    · exact .inr (.inr rfl)

/-- `"1.2.3.4:80"` has no form that is cut. -/
theorem exact_plain : Exact octetInet (ascii "1.2.3.4:80") :=
  (exact_iff documented_octetInet _).mpr fun ⟨_, h⟩ =>
    absurd ((h.mem_nul documented_octetInet).mpr rfl) (by decide)

/-- `"1.2.3.4"`, a NUL and `"x:80"`. -/
theorem not_exact : ¬ ∀ inet : Inet, inet.Documented → ∀ value, Exact inet value := by
  intro h
  have hport : IsDecimal (ascii "80") (80 : UInt16).toNat := isDecimal_toChars 80
  have hcut : Written octetInet true (ascii "1.2.3.4" ++ [0, 120] ++ 58 :: ascii "80")
      (.create (.v4 #v[1, 2, 3, 4]) 80 0 0) :=
    .v4 (documented_octetInet.pton4_ntop4 #v[1, 2, 3, 4]) rfl (by decide) hport
  have hread := (parse_eq_iff_written documented_octetInet).mpr ⟨true, hcut⟩
  have hstrict := (h octetInet documented_octetInet _).written _ hread
  exact absurd ((hstrict.mem_nul documented_octetInet).mp (by decide)) (by decide)

end Libca.Net
