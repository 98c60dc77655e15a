import Libca.Http.Headers

/-!
# HTTP messages and body framing

Model of `http/message.{hpp,cpp}` and of the helpers of `http/http1_codec.cpp` that reader and
writer share: `parse_content_length`, `parse_chunked_transfer_encoding`, `body_framing`,
`parse_chunk_size`, `validate_trailers`, the check of the `Host` field.

* `parseNumeral_toChars`: a numeral below `2^64` is read back, in decimal and in hexadecimal.
* `bodyFraming_trimmed`, `checkHost_trimmed`: framing and the `Host` check do not see the
  whitespace around field values, so a reader decides them as the writer did.
* `bodyFraming_addLength`: a header list without framing fields is framed by the length the
  writer adds.
-/

namespace Libca.Http

open Common

/-! ## Messages -/

/-- `HttpVersion`. -/
inductive HttpVersion
  | http10
  | http11
  deriving DecidableEq, Repr

/-- `http_version_name`. -/
def httpVersionName : HttpVersion → Bytes
  | .http10 => ascii "HTTP/1.0"
  | .http11 => ascii "HTTP/1.1"

/-- The cases of `default_reason_phrase`. -/
def reasonPhrases : List (Nat × String) :=
  [(100, "Continue"), (101, "Switching Protocols"), (200, "OK"), (201, "Created"),
    (202, "Accepted"), (204, "No Content"), (206, "Partial Content"), (300, "Multiple Choices"),
    (301, "Moved Permanently"), (302, "Found"), (303, "See Other"), (304, "Not Modified"),
    (307, "Temporary Redirect"), (308, "Permanent Redirect"), (400, "Bad Request"),
    (401, "Unauthorized"), (403, "Forbidden"), (404, "Not Found"), (405, "Method Not Allowed"),
    (408, "Request Timeout"), (409, "Conflict"), (411, "Length Required"),
    (413, "Content Too Large"), (414, "URI Too Long"), (415, "Unsupported Media Type"),
    (422, "Unprocessable Content"), (426, "Upgrade Required"), (429, "Too Many Requests"),
    (431, "Request Header Fields Too Large"), (500, "Internal Server Error"),
    (501, "Not Implemented"), (502, "Bad Gateway"), (503, "Service Unavailable"),
    (504, "Gateway Timeout"), (505, "HTTP Version Not Supported")]

/-- `default_reason_phrase`. -/
def defaultReasonPhrase (status : UInt16) : Bytes :=
  ascii ((reasonPhrases.lookup status.toNat).getD "")

/-- `status_forbids_body`. -/
def statusForbidsBody (status : UInt16) : Bool :=
  (100 ≤ status && status < 200) || status == 204 || status == 304

/-- `status_forbids_framing`. -/
def statusForbidsFraming (status : UInt16) : Bool := (100 ≤ status && status < 200) || status == 204

/-- `std::numeric_limits<usize>::max()`. -/
def usizeMax : Nat := 2 ^ 64 - 1

/-- `HttpLimits`. -/
structure HttpLimits where
  maxStartLineBytes : Nat := 8192
  maxHeaderBytes : Nat := 64 * 1024
  maxHeaderCount : Nat := 100
  maxBodyBytes : Nat := 8 * 1024 * 1024
  maxBodyBytes_le : maxBodyBytes ≤ usizeMax := by decide

/-- `HttpRequestHead`. -/
structure HttpRequestHead where
  method : Bytes := ascii "GET"
  target : Bytes := ascii "/"
  version : HttpVersion := .http11
  headers : HttpHeaders := []
  deriving DecidableEq

/-- `HttpResponseHead`. -/
structure HttpResponseHead where
  version : HttpVersion := .http11
  status : UInt16 := 200
  reason : Bytes := []
  headers : HttpHeaders := []
  deriving DecidableEq

/-- `HttpRequest`. -/
structure HttpRequest extends HttpRequestHead where
  body : Bytes := []
  trailers : HttpHeaders := []
  deriving DecidableEq

/-- `HttpResponse`. -/
structure HttpResponse extends HttpResponseHead where
  body : Bytes := []
  trailers : HttpHeaders := []
  deriving DecidableEq

/-- `HttpBodyInfo`: a `HttpBodyKind`, with its length where it has one. -/
inductive HttpBodyInfo
  | none
  | contentLength (length : Nat)
  | chunked
  | closeDelimited
  deriving DecidableEq, Repr

/-- The length that a body's framing announces. -/
def HttpBodyInfo.length : HttpBodyInfo → Nat
  | .contentLength length => length
  | _ => 0

/-- A response to CONNECT after which the connection is a tunnel. -/
def connectTunnel (requestMethod : Bytes) (status : UInt16) : Bool :=
  requestMethod == ascii "CONNECT" && 200 ≤ status && status < 300

/-! ## Field values -/

/-- The pieces of a text between the bytes `sep`. -/
def splitAt (sep : UInt8) : Bytes → List Bytes
  | [] => [[]]
  | b :: text =>
    if b = sep then [] :: splitAt sep text
    else
      match splitAt sep text with
      | [] => [[b]]
      | piece :: pieces => (b :: piece) :: pieces

/-- The tokens of a list of comma-separated values, each trimmed. -/
def tokens (values : List Bytes) : List Bytes := (values.flatMap (splitAt 44)).map trimOws

/-- A loop over digit characters that refuses what `usize` cannot hold. -/
def parseNumeral (base : Nat) (digit : UInt8 → Option Nat) (notDigit overflow : HttpError) :
    Nat → Bytes → Except HttpError Nat
  | value, [] => .ok value
  | value, b :: text =>
    match digit b with
    | none => .error notDigit
    | some d =>
      if value > (usizeMax - d) / base then .error overflow
      else parseNumeral base digit notDigit overflow (value * base + d) text

/-- A decimal digit. -/
def decimalDigit (b : UInt8) : Option Nat := if 48 ≤ b ∧ b ≤ 57 then some (b.toNat - 48) else none

/-- A hexadecimal digit. -/
def hexDigit (b : UInt8) : Option Nat :=
  if 48 ≤ b ∧ b ≤ 57 then some (b.toNat - 48)
  else if 97 ≤ b ∧ b ≤ 102 then some (b.toNat - 97 + 10)
  else if 65 ≤ b ∧ b ≤ 70 then some (b.toNat - 65 + 10)
  else none

/-- One value of `Content-Length`. -/
def parseLength : Bytes → Except HttpError Nat :=
  parseNumeral 10 decimalDigit
    ⟨.invalidMessage, "Content-Length contains a non-decimal byte"⟩
    ⟨.invalidMessage, "Content-Length overflows usize"⟩ 0

/-- The tokens of `Content-Length`, after `parsed` has been read. -/
def contentLengthLoop : Option Nat → List Bytes → Except HttpError (Option Nat)
  | parsed, [] => .ok parsed
  | parsed, token :: rest =>
    if token.isEmpty then
      .error ⟨.invalidMessage, "Content-Length contains an empty value"⟩
    else
      match parseLength token with
      | .error e => .error e
      | .ok length =>
        if parsed.isSome ∧ parsed ≠ some length then
          .error ⟨.invalidMessage, "conflicting Content-Length values are not allowed"⟩
        else contentLengthLoop (some length) rest

/-- `parse_content_length`. -/
def parseContentLength (headers : HttpHeaders) : Except HttpError (Option Nat) :=
  contentLengthLoop none (tokens (headers.getAll (ascii "Content-Length")))

/-- `parse_chunked_transfer_encoding`. -/
def parseChunkedTransferEncoding (headers : HttpHeaders) : Except HttpError Bool :=
  let values := headers.getAll (ascii "Transfer-Encoding")
  if values.isEmpty then .ok false
  else
    let codings := tokens values
    if codings.any List.isEmpty then
      .error ⟨.invalidMessage, "Transfer-Encoding contains an empty coding"⟩
    else if codings.length ≠ 1 ∨ !asciiEquals (codings.headD []) (ascii "chunked") then
      .error ⟨.unsupported, "only a single final chunked transfer coding is supported"⟩
    else .ok true

/-- `body_framing`. -/
def bodyFraming (headers : HttpHeaders) (closeDelimited : Bool) :
    Except HttpError HttpBodyInfo := do
  let contentLength ← parseContentLength headers
  let chunked ← parseChunkedTransferEncoding headers
  if chunked ∧ contentLength.isSome then
    .error ⟨.invalidMessage, "Transfer-Encoding and Content-Length cannot appear together"⟩
  else if chunked then .ok .chunked
  else
    match contentLength with
    | some length => .ok (.contentLength length)
    | none => .ok (if closeDelimited then .closeDelimited else .none)

/-- `parse_chunk_size`. -/
def parseChunkSize (chunkLine : Bytes) : Except HttpError Nat :=
  if !validValue chunkLine then
    .error ⟨.invalidMessage, "chunk-size line contains a forbidden byte"⟩
  else
    let sizeText := chunkLine.takeWhile (· != 59)
    if sizeText.isEmpty then .error ⟨.invalidMessage, "chunk-size is empty"⟩
    else
      parseNumeral 16 hexDigit ⟨.invalidMessage, "chunk-size is not hexadecimal"⟩
        ⟨.invalidMessage, "chunk-size overflows usize"⟩ 0 sizeText

/-- `forbidden_trailer_name`. -/
def forbiddenTrailerName (name : Bytes) : Bool :=
  asciiEquals name (ascii "Content-Length") || asciiEquals name (ascii "Transfer-Encoding") ||
    asciiEquals name (ascii "Host") || asciiEquals name (ascii "Trailer")

/-- `validate_trailers`. -/
def validateTrailers (trailers : HttpHeaders) : Except HttpError Unit :=
  if trailers.any fun h => forbiddenTrailerName h.name then
    .error ⟨.invalidMessage, "HTTP trailers cannot contain framing, Host, or Trailer fields"⟩
  else .ok ()

/-- `valid_request_target`. -/
def validRequestTarget (value : Bytes) : Bool :=
  !value.isEmpty && value.all fun b => 32 < b && b != 127

/-- `parse_http_version`. -/
def parseHttpVersion (value : Bytes) : Except HttpError HttpVersion :=
  if value = ascii "HTTP/1.0" then .ok .http10
  else if value = ascii "HTTP/1.1" then .ok .http11
  else .error ⟨.unsupported, "only HTTP/1.0 and HTTP/1.1 are supported"⟩

/-- `set_content_length`. -/
def setContentLength (headers : HttpHeaders) (length : Nat) : Except HttpError HttpHeaders :=
  headers.set (ascii "Content-Length") (toChars 10 length)

/-- The check of `Host` that `read_request_head` and the request writers make. -/
def checkHost (headers : HttpHeaders) : Except HttpError Unit :=
  let hosts := headers.getAll (ascii "Host")
  if hosts.length ≠ 1 ∨ trimOws (hosts.headD []) = [] ∨ (44 : UInt8) ∈ hosts.headD [] then
    .error ⟨.invalidMessage, "HTTP/1.1 request must contain exactly one nonempty Host header"⟩
  else .ok ()

/-! ## Every default reason phrase is a valid value -/

theorem validValue_reasonPhrases : ∀ p ∈ reasonPhrases, validValue (ascii p.2) = true := by
  decide +kernel

theorem validValue_defaultReasonPhrase (status : UInt16) :
    validValue (defaultReasonPhrase status) = true := by
  unfold defaultReasonPhrase
  cases h : reasonPhrases.lookup status.toNat with
  | none => rfl
  | some phrase =>
    obtain ⟨l, r, hsplit, -⟩ := List.lookup_eq_some_iff.mp h
    exact validValue_reasonPhrases (status.toNat, phrase) (by rw [hsplit]; simp)

/-! ## Numerals -/

variable {base : Nat} {text : Bytes}

/-- Digits are read to their value, as long as `usize` holds it. -/
theorem parseNumeral_digits (hb : 2 ≤ base) (hb' : base ≤ 16)
    {digit : UInt8 → Option Nat} (hdigit : ∀ d < base, digit (digitChar d) = some d)
    (notDigit overflow : HttpError) {value : Nat} (htext : ∀ b ∈ text, ∃ d < base, b = digitChar d)
    (hfits : text.foldl (fun acc b => acc * base + digitVal b) value ≤ usizeMax) :
    parseNumeral base digit notDigit overflow value text =
      .ok (text.foldl (fun acc b => acc * base + digitVal b) value) := by
  induction text generalizing value with
  | nil => rfl
  | cons b text ih =>
    obtain ⟨d, hd, rfl⟩ := htext b (.head _)
    have hval : digitVal (digitChar d) = d := digitVal_digitChar (by omega)
    rw [List.foldl_cons, hval] at hfits ⊢
    have hle : value * base + d ≤ usizeMax :=
      Nat.le_trans (le_foldl_digits (by omega) text _) hfits
    have hguard : ¬ value > (usizeMax - d) / base := by
      rw [Nat.not_lt, Nat.le_div_iff_mul_le (by omega)]
      omega
    unfold parseNumeral
    rw [hdigit d hd]
    dsimp only
    rw [if_neg hguard, ih (fun b' hb => htext b' (.tail _ hb)) hfits]

variable {n : Nat}

/-- **A numeral that `usize` holds is read back.** -/
theorem parseNumeral_toChars (hb : 2 ≤ base) (hb' : base ≤ 16)
    {digit : UInt8 → Option Nat} (hdigit : ∀ d < base, digit (digitChar d) = some d)
    (notDigit overflow : HttpError) (hn : n ≤ usizeMax) :
    parseNumeral base digit notDigit overflow 0 (toChars base n) = .ok n := by
  have hval : (toChars base n).foldl (fun acc b => acc * base + digitVal b) 0 = n :=
    ofChars_toChars hb hb' n
  rw [parseNumeral_digits hb hb' hdigit notDigit overflow (fun b h => mem_toChars hb h)
    (by rw [hval]; exact hn), hval]

theorem parseLength_toChars (hn : n ≤ usizeMax) : parseLength (toChars 10 n) = .ok n :=
  parseNumeral_toChars (by decide) (by decide) (by decide) _ _ hn

theorem validValue_toChars (hb : 2 ≤ base) (hb' : base ≤ 16) (n : Nat) :
    validValue (toChars base n) = true := by
  have hdigits : ∀ d < 16, isValueByte (digitChar d) = true := by decide
  rw [validValue_iff]
  intro b hmem
  obtain ⟨d, hd, rfl⟩ := mem_toChars hb hmem
  exact hdigits d (by omega)

theorem parseChunkSize_toChars (hn : n ≤ usizeMax) : parseChunkSize (toChars 16 n) = .ok n := by
  have hsemi : ∀ d < 16, (digitChar d != 59) = true := by decide
  have htake : (toChars 16 n).takeWhile (· != 59) = toChars 16 n := by
    rw [List.takeWhile_eq_self_iff]
    intro b hmem
    obtain ⟨d, hd, rfl⟩ := mem_toChars (by decide) hmem
    exact hsemi d hd
  unfold parseChunkSize
  rw [validValue_toChars (by decide) (by decide)]
  dsimp only [Bool.not_true]
  rw [if_neg (by decide), htake, if_neg (by simpa using toChars_ne_nil 16 n)]
  exact parseNumeral_toChars (by decide) (by decide) (by decide) _ _ hn

/-! ## Framing does not see whitespace around values -/

theorem splitAt_ne_nil (sep : UInt8) (text : Bytes) : splitAt sep text ≠ [] := by
  cases text with
  | nil => exact List.cons_ne_nil _ _
  | cons b text =>
    unfold splitAt
    split
    · exact List.cons_ne_nil _ _
    · split <;> exact List.cons_ne_nil _ _

variable {sep : UInt8}

/-- A byte at the end that is no separator lengthens the last piece. -/
theorem splitAt_concat {w : UInt8} (hw : w ≠ sep) (text : Bytes) :
    ∃ pieces last, splitAt sep text = pieces ++ [last] ∧
      splitAt sep (text ++ [w]) = pieces ++ [last ++ [w]] := by
  induction text with
  | nil => exact ⟨[], [], rfl, by simp [splitAt, hw]⟩
  | cons b text ih =>
    obtain ⟨pieces, last, hs, hs'⟩ := ih
    by_cases hb : b = sep
    · refine ⟨[] :: pieces, last, ?_, ?_⟩
      · simp [splitAt, hb, hs]
      · simp [splitAt, hb, hs']
    · cases pieces with
      | nil => exact ⟨[], b :: last, by simp [splitAt, hb, hs], by simp [splitAt, hb, hs']⟩
      | cons piece pieces =>
        exact ⟨(b :: piece) :: pieces, last, by simp [splitAt, hb, hs],
          by simp [splitAt, hb, hs']⟩

theorem isOws_ne_comma {b : UInt8} (h : isOws b = true) : b ≠ 44 := by
  rintro rfl
  cases h

/-- The tokens of a value do not see whitespace around it. -/
theorem map_trimOws_splitAt_trimOws (value : Bytes) :
    (splitAt 44 (trimOws value)).map trimOws = (splitAt 44 value).map trimOws := by
  refine eq_trimOws (fun v => (splitAt 44 v).map trimOws) ?_ ?_ value
  · intro b v hb
    cases hs : splitAt 44 v with
    | nil => exact absurd hs (splitAt_ne_nil 44 v)
    | cons piece pieces =>
      simp [splitAt, isOws_ne_comma hb, hs, trimOws_cons_of_ows hb]
  · intro b v hb
    obtain ⟨pieces, last, hs, hs'⟩ := splitAt_concat (isOws_ne_comma hb) v
    simp [hs, hs', trimOws_concat_of_ows hb]

theorem tokens_map_trimOws (values : List Bytes) : tokens (values.map trimOws) = tokens values := by
  unfold tokens
  induction values with
  | nil => rfl
  | cons value values ih =>
    simp only [List.map_cons, List.flatMap_cons, List.map_append, ih,
      map_trimOws_splitAt_trimOws]

theorem parseContentLength_trimmed (headers : HttpHeaders) :
    parseContentLength headers.trimmed = parseContentLength headers := by
  unfold parseContentLength
  rw [getAll_trimmed, tokens_map_trimOws]

theorem parseChunkedTransferEncoding_trimmed (headers : HttpHeaders) :
    parseChunkedTransferEncoding headers.trimmed = parseChunkedTransferEncoding headers := by
  unfold parseChunkedTransferEncoding
  dsimp only
  rw [getAll_trimmed, tokens_map_trimOws, List.isEmpty_map]

/-- **Framing is decided alike before and after trimming.** -/
theorem bodyFraming_trimmed (headers : HttpHeaders) (closeDelimited : Bool) :
    bodyFraming headers.trimmed closeDelimited = bodyFraming headers closeDelimited := by
  unfold bodyFraming
  rw [parseContentLength_trimmed, parseChunkedTransferEncoding_trimmed]

theorem validateTrailers_trimmed (trailers : HttpHeaders) :
    validateTrailers trailers.trimmed = validateTrailers trailers := by
  unfold validateTrailers HttpHeaders.trimmed
  rw [List.any_map]
  rfl

theorem mem_comma_trimOws (value : Bytes) : (44 : UInt8) ∈ trimOws value ↔
    (44 : UInt8) ∈ value := by
  refine Iff.of_eq (eq_trimOws (fun v => (44 : UInt8) ∈ v) ?_ ?_ value)
  · intro b v hb
    simp [(isOws_ne_comma hb).symm]
  · intro b v hb
    simp [(isOws_ne_comma hb).symm]

theorem checkHost_trimmed (headers : HttpHeaders) :
    checkHost headers.trimmed = checkHost headers := by
  unfold checkHost
  rw [getAll_trimmed]
  have hhead : (List.map trimOws (headers.getAll (ascii "Host"))).headD [] =
      trimOws ((headers.getAll (ascii "Host")).headD []) := by
    cases headers.getAll (ascii "Host") <;> rfl
  simp only [List.length_map, hhead, trimOws_idem, mem_comma_trimOws]

/-! ## What the writer adds -/

/-- A text without separators is one piece. -/
theorem splitAt_of_notMem (h : ∀ b ∈ text, b ≠ sep) : splitAt sep text = [text] := by
  induction text with
  | nil => rfl
  | cons b text ih =>
    have hb : b ≠ sep := h b (.head _)
    have hrest := ih fun c hc => h c (.tail _ hc)
    simp [splitAt, hb, hrest]

/-- A text without separators is the first piece of what it begins. -/
theorem splitAt_append (h : ∀ b ∈ text, b ≠ sep) (rest : Bytes) :
    splitAt sep (text ++ sep :: rest) = text :: splitAt sep rest := by
  induction text with
  | nil => simp [splitAt]
  | cons b text ih =>
    have hb : b ≠ sep := h b (.head _)
    have hrest := ih fun c hc => h c (.tail _ hc)
    simp [splitAt, hb, hrest]

theorem trimOws_of_noOws {value : Bytes} (h : ∀ b ∈ value, isOws b = false) :
    trimOws value = value := by
  unfold trimOws
  have hdrop : value.dropWhile isOws = value := by
    cases value with
    | nil => rfl
    | cons b value =>
      rw [List.dropWhile_cons_of_neg]
      simp [h b (.head _)]
  rw [hdrop, List.rdropWhile_eq_self_iff]
  intro hne hlast
  rw [h _ (List.getLast_mem hne)] at hlast
  cases hlast

theorem tokens_toChars (n : Nat) : tokens [toChars 10 n] = [toChars 10 n] := by
  have hcomma : ∀ d < 10, digitChar d ≠ 44 := by decide
  have hows : ∀ d < 10, isOws (digitChar d) = false := by decide
  unfold tokens
  rw [List.flatMap_cons, List.flatMap_nil, List.append_nil, splitAt_of_notMem, List.map_cons,
    List.map_nil, trimOws_of_noOws]
  · intro b hb
    obtain ⟨d, hd, rfl⟩ := mem_toChars (by decide) hb
    exact hows d hd
  · intro b hb
    obtain ⟨d, hd, rfl⟩ := mem_toChars (by decide) hb
    exact hcomma d hd

/-- The field that `set_content_length` adds. -/
def contentLengthField (length : Nat) : HttpHeader :=
  ⟨ascii "Content-Length", toChars 10 length, by decide,
    validValue_toChars (by decide) (by decide) _⟩

theorem contentLengthLoop_some_isSome {length : Nat} {rest : List Bytes} {result : Option Nat}
    (h : contentLengthLoop (some length) rest = .ok result) : result.isSome = true := by
  induction rest generalizing length with
  | nil =>
    unfold contentLengthLoop at h
    injection h with h
    rw [← h]
    rfl
  | cons token rest ih =>
    unfold contentLengthLoop at h
    split_ifs at h
    split at h
    · cases h
    · split_ifs at h
      exact ih h

variable {headers : HttpHeaders}

/-- Without a parsed length there is no `Content-Length` field. -/
theorem getAll_of_parseContentLength_none (h : parseContentLength headers = .ok none) :
    headers.getAll (ascii "Content-Length") = [] := by
  unfold parseContentLength at h
  cases hv : headers.getAll (ascii "Content-Length") with
  | nil => rfl
  | cons value values =>
    rw [hv] at h
    cases hs : splitAt 44 value with
    | nil => exact absurd hs (splitAt_ne_nil 44 value)
    | cons piece pieces =>
      simp only [tokens, List.flatMap_cons, hs, List.cons_append, List.map_cons] at h
      unfold contentLengthLoop at h
      split_ifs at h
      split at h
      · cases h
      · rw [if_neg (by simp)] at h
        cases contentLengthLoop_some_isSome h

theorem setContentLength_of_absent
    (h : headers.getAll (ascii "Content-Length") = []) (length : Nat) :
    setContentLength headers length = .ok (headers ++ [contentLengthField length]) := by
  unfold setContentLength
  rw [set_of_absent h]
  unfold HttpHeaders.append HttpHeaders.field
  rw [dif_pos (by decide), dif_pos (validValue_toChars (by decide) (by decide) _)]
  rfl

/-- Neither `Content-Length` nor `Transfer-Encoding`. -/
def HttpHeaders.unframed (headers : HttpHeaders) : Bool :=
  !headers.contains (ascii "Content-Length") && !headers.contains (ascii "Transfer-Encoding")

theorem unframed_iff :
    headers.unframed = true ↔ headers.getAll (ascii "Content-Length") = [] ∧
      headers.getAll (ascii "Transfer-Encoding") = [] := by
  unfold HttpHeaders.unframed
  rw [Bool.and_eq_true, Bool.not_eq_true', Bool.not_eq_true', contains_eq_false_iff,
    contains_eq_false_iff]

theorem parseContentLength_of_absent
    (h : headers.getAll (ascii "Content-Length") = []) : parseContentLength headers = .ok none := by
  unfold parseContentLength
  rw [h]
  rfl

theorem parseChunked_eq_false_iff :
    parseChunkedTransferEncoding headers = .ok false ↔
      headers.getAll (ascii "Transfer-Encoding") = [] := by
  unfold parseChunkedTransferEncoding
  dsimp only
  split_ifs with hnone <;> simp_all

/-- What `body_framing` decides, from what the two fields say. -/
theorem bodyFraming_eq_ok {closeDelimited : Bool} {framing : HttpBodyInfo} :
    bodyFraming headers closeDelimited = .ok framing ↔
      (framing = .chunked ∧ parseContentLength headers = .ok none ∧
        parseChunkedTransferEncoding headers = .ok true) ∨
      (∃ length, framing = .contentLength length ∧ parseContentLength headers = .ok (some length) ∧
        parseChunkedTransferEncoding headers = .ok false) ∨
      (framing = (if closeDelimited then .closeDelimited else .none) ∧
        parseContentLength headers = .ok none ∧
        parseChunkedTransferEncoding headers = .ok false) := by
  unfold bodyFraming
  cases hlength : parseContentLength headers with
  | error e => simp [bind, Except.bind]
  | ok length =>
    cases hchunked : parseChunkedTransferEncoding headers with
    | error e => simp [bind, Except.bind]
    | ok chunked =>
      cases length <;> cases chunked <;> simp [bind, Except.bind, eq_comm]

/-- Without framing fields there is no framing. -/
theorem bodyFraming_eq_none_iff :
    bodyFraming headers false = .ok .none ↔ headers.unframed = true := by
  rw [bodyFraming_eq_ok, unframed_iff]
  constructor
  · rintro (⟨h, -, -⟩ | ⟨length, h, -, -⟩ | ⟨-, hlength, hchunked⟩)
    · cases h
    · cases h
    · exact ⟨getAll_of_parseContentLength_none hlength, parseChunked_eq_false_iff.mp hchunked⟩
  · rintro ⟨hlength, hchunked⟩
    exact .inr (.inr ⟨rfl, parseContentLength_of_absent hlength,
      parseChunked_eq_false_iff.mpr hchunked⟩)

/-- Framing fields decide alike for requests and for responses. -/
theorem bodyFraming_true_of_false {framing : HttpBodyInfo}
    (h : bodyFraming headers false = .ok framing) (hframing : framing ≠ .none) :
    bodyFraming headers true = .ok framing := by
  rw [bodyFraming_eq_ok] at h ⊢
  rcases h with h | h | ⟨h, -, -⟩
  · exact .inl h
  · exact .inr (.inl h)
  · exact absurd h hframing

theorem getAll_append (headers headers' : HttpHeaders) (name : Bytes) :
    HttpHeaders.getAll (headers ++ headers') name = headers.getAll name ++
      headers'.getAll name := by
  unfold HttpHeaders.getAll
  rw [List.filter_append, List.map_append]

/-- **The length that is added is the framing that is read.** -/
theorem bodyFraming_addLength (h : headers.unframed = true) {length : Nat}
    (hlength : length ≤ usizeMax) (closeDelimited : Bool) :
    bodyFraming (headers ++ [contentLengthField length]) closeDelimited =
      .ok (.contentLength length) := by
  obtain ⟨hlen, hte⟩ := unframed_iff.mp h
  have hlen' : HttpHeaders.getAll (headers ++ [contentLengthField length])
      (ascii "Content-Length") = [toChars 10 length] := by
    rw [getAll_append, hlen]
    rfl
  have hte' : HttpHeaders.getAll (headers ++ [contentLengthField length])
      (ascii "Transfer-Encoding") = [] := by
    rw [getAll_append, hte]
    rfl
  refine bodyFraming_eq_ok.mpr (.inr (.inl ⟨length, rfl, ?_, parseChunked_eq_false_iff.mpr hte'⟩))
  unfold parseContentLength
  rw [hlen', tokens_toChars]
  unfold contentLengthLoop
  rw [if_neg (by simpa using toChars_ne_nil 10 length), parseLength_toChars hlength]
  rfl

end Libca.Http
