import Mathlib.Data.List.Basic

/-!
# Stream pipelines

The nodes of `collection/stream.hpp`. A node is its state and `next`; the elements that are left
bound the loops. A predicate, a mapper and an operation are functions; a consumer changes the state
of what it works on.

* `StreamBase`: a node, with `forEach`, `collect`, `count`, `reduce`, `any` and `all`.
* `FilterStream`, `MapStream`, `TakeStream`, `SkipStream`, `Stream`: the nodes.
* `Pipeline`: any stages behind each other. `Pipeline.apply`: the list functions for them.
-/

namespace Libca.Collection

/-- `stream_base`: a node with its state. What is left gets less with every element. -/
structure StreamBase (T : Type) where
  State : Type
  next : State → Option T × State
  left : State → Nat
  left_le : ∀ s, left (next s).2 ≤ left s
  left_lt : ∀ s, (next s).1.isSome = true → left (next s).2 < left s

namespace StreamBase

variable {T A : Type}

theorem left_of_next (n : StreamBase T) {s s' : n.State} {x : T} (h : n.next s = (some x, s')) :
    n.left s' < n.left s := by
  have hlt := n.left_lt s (by rw [h]; rfl)
  rwa [h] at hlt

/-! ## The terminal operations -/

/-- A loop over all elements. -/
def loop (n : StreamBase T) (body : A → T → A) (a : A) (s : n.State) : A × n.State :=
  match _h : n.next s with
  | (none, s') => (a, s')
  | (some x, s') => loop n body (body a x) s'
termination_by n.left s
decreasing_by exact n.left_of_next _h

/-- A loop that ends at the first element of a kind. -/
def search (n : StreamBase T) (found : T → Bool) (s : n.State) : Bool × n.State :=
  match _h : n.next s with
  | (none, s') => (false, s')
  | (some x, s') => if found x then (true, s') else search n found s'
termination_by n.left s
decreasing_by exact n.left_of_next _h

/-- `for_each`, with the state that the consumer changes. -/
def forEach (n : StreamBase T) (consumer : A → T → A) (world : A) (s : n.State) : A × n.State :=
  n.loop consumer world s

/-- `collect`. -/
def collect (n : StreamBase T) (s : n.State) : List T × n.State :=
  n.loop (fun result x => result ++ [x]) [] s

/-- `count`. -/
def count (n : StreamBase T) (s : n.State) : UInt64 × n.State :=
  n.loop (fun total _ => total + 1) 0 s

/-- `reduce`. -/
def reduce (n : StreamBase T) (init : A) (op : A → T → A) (s : n.State) : A × n.State :=
  n.loop op init s

/-- `any`. -/
def any (n : StreamBase T) (predicate : T → Bool) (s : n.State) : Bool × n.State :=
  n.search predicate s

/-- `all`. -/
def all (n : StreamBase T) (predicate : T → Bool) (s : n.State) : Bool × n.State :=
  let (found, s') := n.search (fun x => !predicate x) s
  (!found, s')

end StreamBase

open StreamBase

/-! ## The nodes -/

variable {T U : Type}

/-- `Stream`: the elements from the current position on. -/
def Stream (T : Type) : StreamBase T where
  State := List T
  next
    | [] => (none, [])
    | x :: xs => (some x, xs)
  left := List.length
  left_le
    | [] => Nat.le_refl _
    | _ :: xs => Nat.le_succ xs.length
  left_lt
    | [], h => nomatch h
    | _ :: xs, _ => Nat.lt_succ_self xs.length

/-- The loop of `FilterStream::next`. -/
def filterNext (parent : StreamBase T) (predicate : T → Bool) (s : parent.State) :
    Option T × parent.State :=
  match _h : parent.next s with
  | (none, s') => (none, s')
  | (some x, s') => if predicate x then (some x, s') else filterNext parent predicate s'
termination_by parent.left s
decreasing_by exact parent.left_of_next _h

/-- The loop of `SkipStream::next`, with `to_skip_`. -/
def skipNext (parent : StreamBase T) (s : parent.State) (toSkip : UInt64) :
    Option T × parent.State × UInt64 :=
  if 0 < toSkip then
    match h : parent.next s with
    | (none, s') => (none, s', toSkip)
    | (some _, s') => skipNext parent s' (toSkip - 1)
  else
    let (item, s') := parent.next s
    (item, s', toSkip)
termination_by parent.left s
decreasing_by exact parent.left_of_next h

theorem left_filterNext (parent : StreamBase T) (predicate : T → Bool) (s : parent.State) :
    parent.left (filterNext parent predicate s).2 ≤ parent.left s ∧
      ((filterNext parent predicate s).1.isSome = true →
        parent.left (filterNext parent predicate s).2 < parent.left s) := by
  fun_induction filterNext parent predicate s with
  | case1 s s' h =>
    have hle := parent.left_le s
    rw [h] at hle
    exact ⟨hle, nofun⟩
  | case2 s x s' h hx =>
    have hlt := parent.left_of_next h
    exact ⟨Nat.le_of_lt hlt, fun _ => hlt⟩
  | case3 s x s' h hx ih =>
    have hlt := parent.left_of_next h
    exact ⟨Nat.le_trans ih.1 (Nat.le_of_lt hlt), fun _ => Nat.lt_of_le_of_lt ih.1 hlt⟩

theorem left_skipNext (parent : StreamBase T) (s : parent.State) (toSkip : UInt64) :
    parent.left (skipNext parent s toSkip).2.1 ≤ parent.left s ∧
      ((skipNext parent s toSkip).1.isSome = true → parent.left (skipNext parent s toSkip).2.1 <
      parent.left s) := by
  fun_induction skipNext parent s toSkip with
  | case1 s toSkip hpos s' h =>
    have hle := parent.left_le s
    rw [h] at hle
    exact ⟨hle, nofun⟩
  | case2 s toSkip hpos x s' h ih =>
    have hlt := parent.left_of_next h
    exact ⟨Nat.le_trans ih.1 (Nat.le_of_lt hlt), fun _ => Nat.lt_of_le_of_lt ih.1 hlt⟩
  | case3 s toSkip hpos item s' h =>
    have hle := parent.left_le s
    have hlt := parent.left_lt s
    rw [h] at hle hlt
    exact ⟨hle, hlt⟩

/-- `FilterStream`. -/
def FilterStream (parent : StreamBase T) (predicate : T → Bool) : StreamBase T where
  State := parent.State
  next := filterNext parent predicate
  left := parent.left
  left_le s := (left_filterNext parent predicate s).1
  left_lt s := (left_filterNext parent predicate s).2

/-- `MapStream`. -/
def MapStream (parent : StreamBase T) (mapper : T → U) : StreamBase U where
  State := parent.State
  next s := ((parent.next s).1.map mapper, (parent.next s).2)
  left := parent.left
  left_le := parent.left_le
  left_lt s h := parent.left_lt s (by rwa [Option.isSome_map] at h)

/-- `TakeStream`, with `remaining_`. -/
def TakeStream (parent : StreamBase T) : StreamBase T where
  State := parent.State × UInt64
  next
    | (s, remaining) =>
      if remaining = 0 then (none, s, remaining)
      else ((parent.next s).1, (parent.next s).2, remaining - 1)
  left s := parent.left s.1
  left_le := by
    rintro ⟨s, remaining⟩
    dsimp only
    split_ifs
    · exact Nat.le_refl _
    · exact parent.left_le s
  left_lt := by
    rintro ⟨s, remaining⟩
    dsimp only
    split_ifs
    · exact nofun
    · exact parent.left_lt s

/-- `SkipStream`, with `to_skip_`. -/
def SkipStream (parent : StreamBase T) : StreamBase T where
  State := parent.State × UInt64
  next s := skipNext parent s.1 s.2
  left s := parent.left s.1
  left_le s := (left_skipNext parent s.1 s.2).1
  left_lt s := (left_skipNext parent s.1 s.2).2

/-! ## Pipelines -/

/-- The adapters. -/
inductive Stage : Type → Type → Type 1
  | filter {T : Type} (predicate : T → Bool) : Stage T T
  | map {T U : Type} (mapper : T → U) : Stage T U
  | take {T : Type} (count : UInt64) : Stage T T
  | skip {T : Type} (count : UInt64) : Stage T T

namespace Stage

/-- The node that an adapter returns. -/
def node : Stage T U → StreamBase T → StreamBase U
  | .filter predicate, parent => FilterStream parent predicate
  | .map mapper, parent => MapStream parent mapper
  | .take _, parent => TakeStream parent
  | .skip _, parent => SkipStream parent

/-- Its state as it is constructed. -/
def start : (stage : Stage T U) → (parent : StreamBase T) → parent.State → (stage.node parent).State
  | .filter _, _, s => s
  | .map _, _, s => s
  | .take count, _, s => (s, count)
  | .skip count, _, s => (s, count)

/-- The state of the parent in it. -/
def parentState : (stage : Stage T U) → (parent : StreamBase T) → (stage.node parent).State →
    parent.State
  | .filter _, _, s => s
  | .map _, _, s => s
  | .take _, _, s => s.1
  | .skip _, _, s => s.1

/-- The list function of a stage. -/
def apply : Stage T U → List T → List U
  | .filter predicate, xs => xs.filter predicate
  | .map mapper, xs => xs.map mapper
  | .take count, xs => xs.take count.toNat
  | .skip count, xs => xs.drop count.toNat

end Stage

/-- Stages behind each other. -/
inductive Pipeline (T : Type) : Type → Type 1
  | source : Pipeline T T
  | behind {U V : Type} (upstream : Pipeline T U) (stage : Stage U V) : Pipeline T V

namespace Pipeline

/-- The node at the end, behind a node. -/
def node : {V : Type} → Pipeline T V → StreamBase T → StreamBase V
  | _, .source, root => root
  | _, .behind upstream stage, root => stage.node (upstream.node root)

/-- Its state as the stages are put behind each other. -/
def start : {V : Type} → (p : Pipeline T V) → (root : StreamBase T) → root.State →
    (p.node root).State
  | _, .source, _, s => s
  | _, .behind upstream stage, root, s => stage.start (upstream.node root) (upstream.start root s)

/-- The state of the first node in it. -/
def rootState : {V : Type} → (p : Pipeline T V) → (root : StreamBase T) → (p.node root).State →
    root.State
  | _, .source, _, s => s
  | _, .behind upstream stage, root, s =>
    upstream.rootState root (stage.parentState (upstream.node root) s)

/-- The list functions of the stages, one after the other. -/
def apply : {V : Type} → Pipeline T V → List T → List V
  | _, .source, xs => xs
  | _, .behind upstream stage, xs => stage.apply (upstream.apply xs)

end Pipeline

end Libca.Collection
