import Libca.Json.Grammar

/-!
# The tree builder and the reader (`json/json_dom_builder.cpp`, `json/json_reader.cpp` 16-57)

`JsonDomBuilder` turns events into a tree; `JsonReader::read` runs a parser with it. The events of a
derivation build the tree it stands for (`foldl_events`).
-/

namespace Libca.Json

open Common

/-! ## The builder -/

/-- `JsonDomBuilder::Frame`. -/
structure Frame where
  isArray : Bool
  arrayItems : List JsonValue := []
  objectItems : List (Bytes × JsonValue) := []
  pendingKey : Bytes := []
  hasPendingKey : Bool := false

/-- `JsonDomBuilder`; the top of the stack is its head. -/
structure JsonDomBuilder where
  stack : List Frame := []
  root : JsonValue := .null
  hasRoot : Bool := false
  hasError : Bool := false
  error : ParseError := ⟨.start, []⟩

namespace JsonDomBuilder

/-- `emit_value`. -/
def emitValue (b : JsonDomBuilder) (v : JsonValue) : JsonDomBuilder :=
  match b.stack with
  | [] => if b.hasRoot then b else { b with root := v, hasRoot := true }
  | top :: below =>
    if top.isArray then
      { b with stack := { top with arrayItems := top.arrayItems ++ [v] } :: below }
    else if top.hasPendingKey then
      { b with stack :=
          { top with objectItems := top.objectItems ++ [(top.pendingKey, v)],
                     hasPendingKey := false } :: below }
    else b

/-- The call that each event makes. -/
def handle (b : JsonDomBuilder) : Event → JsonDomBuilder
  | .onNull _ => b.emitValue .null
  | .onBool v _ => b.emitValue (.bool v)
  | .onInt v _ => b.emitValue (.int v)
  | .onFloat v _ => b.emitValue (.float v)
  | .onString v _ => b.emitValue (.string v)
  | .onArrayStart _ => { b with stack := { isArray := true } :: b.stack }
  | .onArrayEnd _ =>
    match b.stack with
    | [] => b
    | frame :: below => { b with stack := below }.emitValue (.array frame.arrayItems)
  | .onObjectStart _ => { b with stack := { isArray := false } :: b.stack }
  | .onObjectEnd _ =>
    match b.stack with
    | [] => b
    | frame :: below => { b with stack := below }.emitValue (.object frame.objectItems)
  | .onObjectKey key _ =>
    match b.stack with
    | [] => b
    | top :: below =>
      { b with stack := { top with pendingKey := key, hasPendingKey := true } :: below }
  | .onError err => if b.hasError then b else { b with hasError := true, error := err }

end JsonDomBuilder

/-! ## The reader -/

/-- `JsonReaderOptions`. -/
structure JsonReaderOptions where
  allowTrailingComma : Bool := false
  allowComments : Bool := false

namespace JsonReader

/-- `to_parser_options`. -/
def toParserOptions (o : JsonReaderOptions) : JsonParserOptions where
  allowTrailingComma := o.allowTrailingComma
  allowComments := o.allowComments

/-- `JsonReader::read`: the root of the document. -/
def read (std : DoubleChars) (options : JsonReaderOptions) (input : Bytes) :
    Except Stop JsonValue :=
  match JsonParser.run std (toParserOptions options) input with
  | (.error stop, _) => .error stop
  | (.ok _, s) =>
    let builder := s.events.foldl JsonDomBuilder.handle {}
    if builder.hasError then .error (.failed builder.error) else .ok builder.root

end JsonReader

/-! ## The tree of a derivation -/

namespace JsonDomBuilder

variable {std : DoubleChars}

/-- The frame of an array that has some items. -/
def arrayFrame (items : List JsonValue) : Frame := { isArray := true, arrayItems := items }

/-- The frame of an object that has some members. -/
def objectFrame (key : Bytes) (members : List (Bytes × JsonValue)) : Frame :=
  { isArray := false, objectItems := members, pendingKey := key }

@[simp] theorem emitValue_arrayFrame (b : JsonDomBuilder) (items : List JsonValue)
    (st : List Frame) (v : JsonValue) :
    { b with stack := arrayFrame items :: st }.emitValue v =
      { b with stack := arrayFrame (items ++ [v]) :: st } := rfl

@[simp] theorem emitValue_objectFrame (b : JsonDomBuilder) (old key : Bytes) (loc : SourceLocation)
    (members : List (Bytes × JsonValue)) (st : List Frame) (v : JsonValue) :
    ({ b with stack := objectFrame old members :: st }.handle (.onObjectKey key loc)).emitValue v =
      { b with stack := objectFrame key (members ++ [(key, v)]) :: st } := rfl

mutual

/-- **The events of a derivation build the tree it stands for.** -/
theorem foldl_events (v : Value) (hv : v.Accepted std) (loc : SourceLocation)
    (b : JsonDomBuilder) : (v.events std loc).foldl handle b = b.emitValue (v.tree std) := by
  cases v with
  | null => rfl
  | bool v => rfl
  | number n =>
    obtain ⟨x, hx⟩ := Option.isSome_iff_exists.mp hv
    rw [Value.events, Value.tree, hx]
    cases x <;> rfl
  | string s => rfl
  | emptyArray w => rfl
  | array before elements =>
    have hes := foldl_elements elements hv (loc.after (91 :: before.bytes)) b b.stack []
    rw [Value.events, Value.tree, List.foldl_cons, List.foldl_append]
    show List.foldl handle (List.foldl handle { b with stack := arrayFrame [] :: b.stack } _) _ = _
    rw [hes]
    rfl
  | emptyObject w => rfl
  | object before members =>
    obtain ⟨key, hms⟩ :=
      foldl_members members hv (loc.after (123 :: before.bytes)) b b.stack [] []
    rw [Value.events, Value.tree, List.foldl_cons, List.foldl_append]
    show List.foldl handle (List.foldl handle { b with stack := objectFrame [] [] :: b.stack } _)
      _ = _
    rw [hms]
    rfl

/-- The events of the elements of an array add its items. -/
theorem foldl_elements (es : Elements) (hes : es.Accepted std) (loc : SourceLocation)
    (b : JsonDomBuilder) (st : List Frame) (items : List JsonValue) :
    (es.events std loc).foldl handle { b with stack := arrayFrame items :: st } =
      { b with stack := arrayFrame (items ++ es.trees std) :: st } := by
  cases es with
  | one v after =>
    rw [Elements.events, foldl_events v hes, emitValue_arrayFrame, Elements.trees]
  | cons v after before rest =>
    rw [Elements.events, List.foldl_append, foldl_events v hes.1, emitValue_arrayFrame,
      foldl_elements rest hes.2, Elements.trees, List.append_assoc, List.singleton_append]

/-- The events of the members of an object add its members. -/
theorem foldl_members (ms : Members) (hms : ms.Accepted std) (loc : SourceLocation)
    (b : JsonDomBuilder) (st : List Frame) (old : Bytes) (members : List (Bytes × JsonValue)) :
    ∃ key, (ms.events std loc).foldl handle { b with stack := objectFrame old members :: st } =
      { b with stack := objectFrame key (members ++ ms.trees std) :: st } := by
  cases ms with
  | one key w₁ w₂ v after =>
    refine ⟨key.value, ?_⟩
    rw [Members.events, List.foldl_cons, foldl_events v hms, emitValue_objectFrame, Members.trees]
  | cons key w₁ w₂ v after before rest =>
    obtain ⟨last, hrest⟩ := foldl_members rest hms.2
      (loc.after (key.text ++ (w₁.bytes ++ 58 :: (w₂.bytes ++ (v.text ++ (after.bytes ++
        44 :: before.bytes)))))) b st key.value (members ++ [(key.value, v.tree std)])
    refine ⟨last, ?_⟩
    rw [Members.events, List.foldl_cons, List.foldl_append, foldl_events v hms.1,
      emitValue_objectFrame, hrest, Members.trees, List.append_assoc, List.singleton_append]

end

/-- A single value becomes the root. -/
theorem foldl_root (v : Value) (hv : v.Accepted std) (loc : SourceLocation) :
    (v.events std loc).foldl handle {} =
      ({ root := v.tree std, hasRoot := true } : JsonDomBuilder) := by
  rw [foldl_events v hv]
  rfl

end JsonDomBuilder

end Libca.Json
