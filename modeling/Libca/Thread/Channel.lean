import Libca.Common.Monitor

/-!
# Channels (`thread/channel.hpp` 35-290)

`channel` makes a `Sender` and a `Receiver` on one state. Senders are copied, moved, assigned to and
destroyed; the receiver is moved and destroyed. A handle is an object while it holds the state: an
assignment lets go of one handle and makes another. The state has the handles, and two logs of what
was sent and of what was received, which are not in the source.

* `Section`, `critical_section`: what a critical section does when it finishes.
* `Counted`: the state counts the handles, and is a bounded FIFO.
* `paces`, `ends`: how the critical sections notify.
* `channel_delivers`: in every run each value is delivered once and in order, nothing is sent on a
  channel that is shut down, and no call waits for what is there or will not come.
-/

namespace Libca.Thread.Channel

open Common

inductive Cv
  | notEmpty
  | notFull
deriving DecidableEq, Repr

/-- `ChannelState`, with the handles that hold it (`created` of them were made) and the logs. -/
structure ChannelState (T : Type) where
  capacity : Nat
  items : List T := []
  senderCount : Nat := 0
  receiverAlive : Bool := true
  explicitlyClosed : Bool := false
  senders : List Nat := []
  receiver : Option Nat := none
  created : Nat := 0
  sent : List (Nat × T) := []
  received : List (Nat × T) := []

/-- The calls on the handle `h`. A copy assignment is `release` and `copy`, a move assignment
`release` and `move`, the destructor `release`; the receiver is alike, with `markDead`. -/
inductive Op (T : Type)
  | copy (h : Nat)
  | move (h : Nat)
  | release (h : Nat)
  | send (h : Nat) (value : T)
  | close (h : Nat)
  | recv (h : Nat)
  | tryRecv (h : Nat)
  | recvTimeout (h : Nat)
  | moveReceiver (h : Nat)
  | markDead (h : Nat)

inductive Result (T : Type)
  | done
  | sent (b : Bool)
  | received (value : Option T)

variable {T : Type}

namespace ChannelState

def producersAlive (s : ChannelState T) : Bool := decide (s.senderCount > 0) && !s.explicitlyClosed

/-- `items.push_back`. -/
def append (i : Nat) (value : T) (s : ChannelState T) : ChannelState T :=
  { s with items := s.items ++ [value], sent := s.sent ++ [(i, value)] }

/-- `items.pop_front`, where `items` is what is left. -/
def removeFront (i : Nat) (value : T) (items : List T) (s : ChannelState T) : ChannelState T :=
  { s with items := items, received := s.received ++ [(i, value)] }

/-- Another sender holds the state. -/
def addSender (s : ChannelState T) : ChannelState T :=
  { s with senders := s.senders ++ [s.created], created := s.created + 1 }

def removeSender (h : Nat) (s : ChannelState T) : ChannelState T :=
  { s with senders := s.senders.erase h }

end ChannelState

open ChannelState

/-- `channel`: a sender and a receiver. -/
def channel (capacity : Nat) : ChannelState T where
  capacity := capacity
  senderCount := 1
  senders := [0]
  receiver := some 1
  created := 2

/-! ## The critical sections

A call on a handle that another thread took away meanwhile finds a null state and does nothing. -/

def copy (h : Nat) (s : ChannelState T) : Outcome (ChannelState T) Cv (Result T) :=
  if h ∈ s.senders then .finish { s.addSender with senderCount := s.senderCount + 1 } [] .done
  else .finish s [] .done

/-- No critical section: the state changes its holder. -/
def move (h : Nat) (s : ChannelState T) : Outcome (ChannelState T) Cv (Result T) :=
  if h ∈ s.senders then .finish (s.removeSender h).addSender [] .done else .finish s [] .done

def release (h : Nat) (s : ChannelState T) : Outcome (ChannelState T) Cv (Result T) :=
  if h ∈ s.senders then
    let s' := { s.removeSender h with
      senderCount := if s.senderCount > 0 then s.senderCount - 1 else s.senderCount }
    .finish s' (if s'.producersAlive then [] else [.all .notEmpty]) .done
  else .finish s [] .done

/-- A sender that waited checks again what it checked when it came. -/
def send (i : Nat) (value : T) (s : ChannelState T) : Outcome (ChannelState T) Cv (Result T) :=
  if !s.receiverAlive then .finish s [] (.sent false)
  else if s.explicitlyClosed then .finish s [] (.sent false)
  else if 0 < s.capacity ∧ ¬ s.items.length < s.capacity then .block
  else .finish (s.append i value) [.one .notEmpty] (.sent true)

def close (s : ChannelState T) : Outcome (ChannelState T) Cv (Result T) :=
  .finish { s with explicitlyClosed := true } [.all .notEmpty, .all .notFull] .done

def recv (i : Nat) (s : ChannelState T) : Outcome (ChannelState T) Cv (Result T) :=
  if !s.items.isEmpty || !s.producersAlive then
    match s.items with
    | [] => .finish s [] (.received none)
    | value :: items =>
      .finish (s.removeFront i value items) [.one .notFull] (.received (some value))
  else .block

def tryRecv (i : Nat) (s : ChannelState T) : Outcome (ChannelState T) Cv (Result T) :=
  match s.items with
  | [] => .finish s [] (.received none)
  | value :: items => .finish (s.removeFront i value items) [.one .notFull] (.received (some value))

def recvTimeout (i : Nat) (expired : Bool) (s : ChannelState T) :
    Outcome (ChannelState T) Cv (Result T) :=
  if !s.items.isEmpty || !s.producersAlive then
    match s.items with
    | [] => .finish s [] (.received none)
    | value :: items =>
      .finish (s.removeFront i value items) [.one .notFull] (.received (some value))
  else if expired then .finish s [] (.received none)
  else .block

/-- No critical section: the state changes its holder. -/
def moveReceiver (h : Nat) (s : ChannelState T) : Outcome (ChannelState T) Cv (Result T) :=
  if s.receiver = some h then
    .finish { s with receiver := some s.created, created := s.created + 1 } [] .done
  else .finish s [] .done

def markDead (h : Nat) (s : ChannelState T) : Outcome (ChannelState T) Cv (Result T) :=
  if s.receiver = some h then
    .finish { s with receiverAlive := false, receiver := none } [.all .notFull] .done
  else .finish s [] .done

/-- A call is made on a handle that holds the state. -/
def admits (s : ChannelState T) : Op T → Bool
  | .copy h | .move h | .release h | .send h _ | .close h => s.senders.contains h
  | .recv h | .tryRecv h | .recvTimeout h | .moveReceiver h | .markDead h => s.receiver == some h

def waitsOn : Op T → Option Cv
  | .send _ _ => some .notFull
  | .recv _ | .recvTimeout _ => some .notEmpty
  | _ => none

def timed : Op T → Bool
  | .recvTimeout _ => true
  | _ => false

def critical (i : Nat) : Op T → Bool → ChannelState T → Outcome (ChannelState T) Cv (Result T)
  | .copy h, _ => copy h
  | .move h, _ => move h
  | .release h, _ => release h
  | .send _ value, _ => send i value
  | .close _, _ => close
  | .recv _, _ => recv i
  | .tryRecv _, _ => tryRecv i
  | .recvTimeout _, expired => recvTimeout i expired
  | .moveReceiver h, _ => moveReceiver h
  | .markDead h, _ => markDead h

/-- The calls on a channel. -/
def monitor (T : Type) : Monitor (ChannelState T) (Op T) (Result T) Cv where
  admits := admits
  waitsOn := waitsOn
  timed := timed
  critical := critical

/-! ## What a critical section does -/

/-- What a call put into the channel. -/
def accepted : Op T → Result T → List T
  | .send _ value, .sent true => [value]
  | _, _ => []

/-- What a call took out of the channel. -/
def delivered : Op T → Result T → List T
  | _, .received (some value) => [value]
  | _, _ => []

/-- The channel takes no more values. -/
def Shut (s : ChannelState T) : Prop := s.receiverAlive = false ∨ s.explicitlyClosed = true

instance (s : ChannelState T) : Decidable (Shut s) := inferInstanceAs (Decidable (_ ∨ _))

/-- What there is to wait for: items on `not_empty`, places on `not_full`. -/
def resource (cv : Cv) (s : ChannelState T) : Nat :=
  match cv with
  | .notEmpty => s.items.length
  | .notFull => if Shut s then 0 else s.capacity - s.items.length

/-- When nothing more comes: no items without producers, no places in a channel that is shut. -/
def Over (cv : Cv) (s : ChannelState T) : Prop :=
  match cv with
  | .notEmpty => s.producersAlive = false
  | .notFull => Shut s

/-- The effects of the critical sections. -/
inductive Section (i : Nat) (op : Op T) (s : ChannelState T) :
    ChannelState T → List (Signal Cv) → Result T → Prop
  | accept (h : Nat) (value : T) : op = .send h value → ¬ Shut s →
      (0 < s.capacity → s.items.length < s.capacity) →
      Section i op s (s.append i value) [.one .notEmpty] (.sent true)
  | deliver (value : T) (items : List T) : s.items = value :: items → waitsOn op ≠ some .notFull →
      Section i op s (s.removeFront i value items) [.one .notFull] (.received (some value))
  | refuse (r : Result T) : accepted op r = [] → delivered op r = [] →
      (∀ cv, waitsOn op = some cv → resource cv s = 0) →
      (∀ h, op = .recv h → s.items = [] ∧ s.producersAlive = false) → Section i op s s [] r
  | copied (h : Nat) : op = .copy h → h ∈ s.senders →
      Section i op s { s.addSender with senderCount := s.senderCount + 1 } [] .done
  | moved (h : Nat) : op = .move h → h ∈ s.senders →
      Section i op s (s.removeSender h).addSender [] .done
  | released (h : Nat) (s' : ChannelState T) : op = .release h → h ∈ s.senders →
      s' = { s.removeSender h with senderCount := s.senderCount - 1 } →
      Section i op s s' (if s'.producersAlive then [] else [.all .notEmpty]) .done
  | closed (h : Nat) : op = .close h →
      Section i op s { s with explicitlyClosed := true } [.all .notEmpty, .all .notFull] .done
  | receiverMoved (h : Nat) : op = .moveReceiver h → s.receiver = some h →
      Section i op s { s with receiver := some s.created, created := s.created + 1 } [] .done
  | markedDead (h : Nat) : op = .markDead h → s.receiver = some h →
      Section i op s { s with receiverAlive := false, receiver := none } [.all .notFull] .done

variable {i : Nat} {op : Op T}

/-- A call on a handle that is gone. -/
theorem Section.gone (s : ChannelState T) (hwaits : waitsOn op = none) :
    Section i op s s [] .done := by
  refine .refuse .done ?_ rfl (fun cv hcv => ?_) fun h hop => ?_
  · cases op <;> rfl
  · rw [hwaits] at hcv
    cases hcv
  · rw [hop] at hwaits
    cases hwaits

variable {s s' : ChannelState T} {signals : List (Signal Cv)} {r : Result T}

variable {h : Nat}

theorem copy_section (hf : copy h s = .finish s' signals r) : Section i
    (.copy h) s s' signals r := by
  unfold copy at hf
  split_ifs at hf with hmem
  · cases hf
    exact .copied h rfl hmem
  · cases hf
    exact .gone s rfl

theorem move_section (hf : move h s = .finish s' signals r) : Section i
    (.move h) s s' signals r := by
  unfold move at hf
  split_ifs at hf with hmem
  · cases hf
    exact .moved h rfl hmem
  · cases hf
    exact .gone s rfl

theorem release_section (hf : release h s = .finish s' signals r) :
    Section i (.release h) s s' signals r := by
  have hcount : (if s.senderCount > 0 then s.senderCount - 1 else s.senderCount) =
      s.senderCount - 1 := by
    split_ifs <;> omega
  unfold release at hf
  rw [hcount] at hf
  by_cases hmem : h ∈ s.senders
  · rw [if_pos hmem] at hf
    cases hf
    exact .released h _ rfl hmem rfl
  · rw [if_neg hmem] at hf
    cases hf
    exact .gone s rfl

theorem send_section {value : T} (hf : send i value s = .finish s' signals r) :
    Section i (.send h value) s s' signals r := by
  unfold send at hf
  split_ifs at hf with halive hclosed hfull
  · cases hf
    refine .refuse _ rfl rfl (fun cv hcv => ?_) (fun h hop => by cases hop)
    cases hcv
    exact if_pos (.inl (by simpa using halive))
  · cases hf
    refine .refuse _ rfl rfl (fun cv hcv => ?_) (fun h hop => by cases hop)
    cases hcv
    exact if_pos (.inr hclosed)
  · cases hf
    refine .accept h value rfl ?_ fun hpos => ?_
    · rintro (h | h)
      · rw [h] at halive
        exact halive rfl
      · exact hclosed h
    · by_contra hge
      exact hfull ⟨hpos, hge⟩

theorem recv_section (hf : recv i s = .finish s' signals r) : Section i
    (.recv h) s s' signals r := by
  unfold recv at hf
  split_ifs at hf with hready
  cases hitems : s.items with
  | nil =>
    rw [hitems] at hf hready
    cases hf
    have hgone : s.producersAlive = false := by simpa using hready
    exact .refuse _ rfl rfl (fun cv hcv => by cases hcv; exact congrArg List.length hitems)
      fun _ _ => ⟨hitems, hgone⟩
  | cons value items =>
    rw [hitems] at hf
    cases hf
    exact .deliver value items hitems (by rintro ⟨⟩)

theorem tryRecv_section (hf : tryRecv i s = .finish s' signals r) :
    Section i (.tryRecv h) s s' signals r := by
  unfold tryRecv at hf
  cases hitems : s.items with
  | nil =>
    rw [hitems] at hf
    cases hf
    exact .refuse _ rfl rfl (fun cv hcv => by cases hcv) fun _ hop => by cases hop
  | cons value items =>
    rw [hitems] at hf
    cases hf
    exact .deliver value items hitems (by rintro ⟨⟩)

variable {expired : Bool}

theorem recvTimeout_section (hf : recvTimeout i expired s = .finish s' signals r) :
    Section i (.recvTimeout h) s s' signals r := by
  have hnone : s.items = [] → Section i (.recvTimeout h) s s [] (.received none) := fun hitems =>
    .refuse _ rfl rfl (fun cv hcv => by cases hcv; exact congrArg List.length hitems)
      fun _ hop => by cases hop
  unfold recvTimeout at hf
  split_ifs at hf with hready hexpired
  · cases hitems : s.items with
    | nil =>
      rw [hitems] at hf
      cases hf
      exact hnone hitems
    | cons value items =>
      rw [hitems] at hf
      cases hf
      exact .deliver value items hitems (by rintro ⟨⟩)
  · cases hf
    exact hnone (by simp_all)

theorem moveReceiver_section (hf : moveReceiver h s = .finish s' signals r) :
    Section i (.moveReceiver h) s s' signals r := by
  unfold moveReceiver at hf
  split_ifs at hf with hholds
  · cases hf
    exact .receiverMoved h rfl hholds
  · cases hf
    exact .gone s rfl

theorem markDead_section (hf : markDead h s = .finish s' signals r) :
    Section i (.markDead h) s s' signals r := by
  unfold markDead at hf
  split_ifs at hf with hholds
  · cases hf
    exact .markedDead h rfl hholds
  · cases hf
    exact .gone s rfl

/-- **What a critical section does when it finishes.** -/
theorem critical_section
    (hf : critical i op expired s = .finish s' signals r) : Section i op s s' signals r := by
  cases op with
  | copy h => exact copy_section hf
  | move h => exact move_section hf
  | release h => exact release_section hf
  | send h value => exact send_section hf
  | close h =>
    cases hf
    exact .closed h rfl
  | recv h => exact recv_section hf
  | tryRecv h => exact tryRecv_section hf
  | recvTimeout h => exact recvTimeout_section hf
  | moveReceiver h => exact moveReceiver_section hf
  | markDead h => exact markDead_section hf

/-- **What a critical section that blocks has found**: nothing of what it waits for, and that more
may come. -/
theorem critical_block {cv : Cv}
    (hb : critical i op expired s = .block) (hcv : waitsOn op = some cv) :
    resource cv s = 0 ∧ ¬ Over cv s := by
  cases op with
  | send h value =>
    cases hcv
    simp only [critical, send] at hb
    split_ifs at hb with halive hclosed hfull
    have hopen : ¬ Shut s := by
      rintro (h | h)
      · rw [h] at halive
        exact halive rfl
      · exact hclosed h
    refine ⟨?_, hopen⟩
    rw [resource, if_neg hopen]
    exact Nat.sub_eq_zero_of_le (Nat.le_of_not_lt hfull.2)
  | recv h =>
    cases hcv
    simp only [critical, recv] at hb
    split_ifs at hb with hready
    · cases hitems : s.items with
      | nil =>
        rw [hitems] at hb
        cases hb
      | cons value items =>
        rw [hitems] at hb
        cases hb
    · simp_all [resource, Over]
  | recvTimeout h =>
    cases hcv
    simp only [critical, recvTimeout] at hb
    split_ifs at hb with hready hexpired
    · cases hitems : s.items with
      | nil =>
        rw [hitems] at hb
        cases hb
      | cons value items =>
        rw [hitems] at hb
        cases hb
    · simp_all [resource, Over]
  | copy h => cases hcv
  | move h => cases hcv
  | release h => cases hcv
  | close h => cases hcv
  | tryRecv h => cases hcv
  | moveReceiver h => cases hcv
  | markDead h => cases hcv

/-! ## The rules of the monitor -/

/-- A call takes at most one of what it waits for. -/
theorem waits_le_one (op : Op T) (cv : Cv) : (if waitsOn op = some cv then 1 else 0) ≤ 1 := by
  split_ifs
  · exact Nat.le_refl 1
  · exact Nat.zero_le 1

/-- A section that leaves items and places as they are. -/
theorem paces_of_same (cv : Cv)
    (hwaits : waitsOn op ≠ some cv) (hsame : resource cv s' = resource cv s) :
    resource cv s' + (if waitsOn op = some cv then 1 else 0) ≤
      resource cv s + signals.count (.one cv) := by
  rw [if_neg hwaits, hsame]
  exact Nat.le_add_right _ _

/-- What a call waits for comes with a notification. -/
theorem paces : (monitor T).Paces resource where
  block := fun _ _ _ _ _ hb hcv => (critical_block hb hcv).1
  finish := by
    intro i op expired s s' signals r hf cv
    have hone := waits_le_one op cv
    show _ ∨ _ ∨ _ + (if waitsOn op = some cv then 1 else 0) ≤ _
    cases critical_section hf with
    | accept h value hop hopen hlt =>
      subst hop
      cases cv with
      | notEmpty => exact .inr (.inr (by simp [resource, append, waitsOn]))
      | notFull =>
        have hopen' : ¬ Shut (s.append i value) := hopen
        by_cases hpos : 0 < s.capacity
        · have hlt := hlt hpos
          refine .inr (.inr ?_)
          simp only [resource, if_neg hopen, if_neg hopen']
          simp only [append, List.length_append, List.length_singleton]
          omega
        · refine .inr (.inl ?_)
          rw [resource, if_neg hopen']
          simp only [append]
          omega
    | deliver value items hitems hwaits =>
      cases cv with
      | notEmpty =>
        refine .inr (.inr ?_)
        simp only [resource, removeFront, hitems, List.length_cons]
        omega
      | notFull =>
        by_cases hshut : Shut s
        · exact .inr (.inl (if_pos hshut))
        · have hshut' : ¬ Shut (s.removeFront i value items) := hshut
          refine .inr (.inr ?_)
          simp only [resource, if_neg hshut, if_neg hshut', hwaits, if_false]
          simp only [removeFront, hitems, List.length_cons, List.count_singleton_self]
          omega
    | refuse r _ _ hnone _ =>
      by_cases hcv : waitsOn op = some cv
      · exact .inr (.inl (hnone cv hcv))
      · exact .inr (.inr (paces_of_same cv hcv rfl))
    | copied h hop _ =>
      subst hop
      exact .inr (.inr (paces_of_same cv (by rintro ⟨⟩) (by cases cv <;> rfl)))
    | moved h hop _ =>
      subst hop
      exact .inr (.inr (paces_of_same cv (by rintro ⟨⟩) (by cases cv <;> rfl)))
    | released h s' hop _ hs' =>
      subst hop hs'
      exact .inr (.inr (paces_of_same cv (by rintro ⟨⟩) (by cases cv <;> rfl)))
    | closed h hop => cases cv <;> exact .inl (by simp)
    | receiverMoved h hop _ =>
      subst hop
      exact .inr (.inr (paces_of_same cv (by rintro ⟨⟩) (by cases cv <;> rfl)))
    | markedDead h hop _ =>
      subst hop
      cases cv with
      | notEmpty => exact .inr (.inr (paces_of_same .notEmpty (by rintro ⟨⟩) rfl))
      | notFull => exact .inl (by simp)

/-- When nothing more comes, every wait ends. -/
theorem ends : (monitor T).Ends Over where
  block := fun _ _ _ _ _ hb hcv => (critical_block hb hcv).2
  finish := by
    intro i op expired s s' signals r hf cv hover
    cases critical_section hf with
    | accept h value => cases cv <;> exact .inl hover
    | deliver value items => cases cv <;> exact .inl hover
    | refuse r => exact .inl hover
    | copied h hop hmem =>
      refine .inl ?_
      cases cv with
      | notEmpty =>
        simp only [Over, producersAlive, addSender] at hover ⊢
        simp_all
      | notFull => exact hover
    | moved h hop hmem => cases cv <;> exact .inl hover
    | released h s' hop hmem hs' =>
      cases cv with
      | notEmpty =>
        have hgone : s'.producersAlive = false := hover
        exact .inr (by simp [hgone])
      | notFull =>
        subst hs'
        exact .inl hover
    | closed h hop => cases cv <;> exact .inr (by simp)
    | receiverMoved h hop _ => cases cv <;> exact .inl hover
    | markedDead h hop _ =>
      cases cv with
      | notEmpty => exact .inl hover
      | notFull => exact .inr (by simp)

theorem logs_sent : (monitor T).Logs ChannelState.sent accepted := by
  intro i op expired s s' signals r hf
  cases critical_section hf with
  | accept h value hop =>
    subst hop
    rfl
  | refuse r haccepted =>
    rw [haccepted]
    exact (List.append_nil _).symm
  | released h s' hop _ hs' =>
    subst hop hs'
    exact (List.append_nil _).symm
  | _ => cases op <;> exact (List.append_nil _).symm

theorem logs_received : (monitor T).Logs ChannelState.received delivered := by
  intro i op expired s s' signals r hf
  cases critical_section hf with
  | deliver value items => cases op <;> rfl
  | refuse r _ hdelivered =>
    rw [hdelivered]
    exact (List.append_nil _).symm
  | released h s' hop _ hs' =>
    subst hop hs'
    exact (List.append_nil _).symm
  | _ => cases op <;> exact (List.append_nil _).symm

/-! ## Runs -/

/-- The states of the data: the handles are counted, the items bounded and in the order of the
sends. -/
structure Counted (capacity : Nat) (s : ChannelState T) : Prop where
  capacity_eq : s.capacity = capacity
  count : s.senderCount = s.senders.length
  nodup : s.senders.Nodup
  fresh : ∀ h ∈ s.senders, h < s.created
  alive : s.receiverAlive = s.receiver.isSome
  bounded : 0 < capacity → s.items.length ≤ capacity
  order : s.sent.map Prod.snd = s.received.map Prod.snd ++ s.items

variable {capacity : Nat}

theorem Counted.addSender (hs : Counted capacity s) :
    (s.addSender).senders.Nodup ∧ ∀ h ∈ (s.addSender).senders, h < (s.addSender).created := by
  refine ⟨List.nodup_append.mpr ⟨hs.nodup, by simp, fun h hmem h' hnew => ?_⟩, fun h hmem => ?_⟩
  · rw [List.mem_singleton.mp hnew]
    exact Nat.ne_of_lt (hs.fresh h hmem)
  · rcases List.mem_append.mp hmem with hmem | hmem
    · exact Nat.lt_succ_of_lt (hs.fresh h hmem)
    · rw [List.mem_singleton.mp hmem]
      exact Nat.lt_succ_self _

/-- A state without one of its senders, which is not counted any more. -/
theorem Counted.removeSender (hs : Counted capacity s) (hmem : h ∈ s.senders) :
    Counted capacity { s.removeSender h with senderCount := s.senderCount - 1 } := by
  refine ⟨hs.capacity_eq, ?_, hs.nodup.erase h, fun h' hmem' => ?_, hs.alive, hs.bounded, hs.order⟩
  · show s.senderCount - 1 = (s.senders.erase h).length
    rw [List.length_erase_of_mem hmem, hs.count]
  · exact hs.fresh h' (List.mem_of_mem_erase hmem')

theorem Counted.section (hs : Counted capacity s)
    (h : Section i op s s' signals r) : Counted capacity s' := by
  cases h with
  | accept h value hop hopen hlt =>
    refine { hs with bounded := fun hpos => ?_, order := ?_ }
    · rw [hs.capacity_eq] at hlt
      simpa [append] using Nat.succ_le_of_lt (hlt hpos)
    · simp [append, hs.order]
  | deliver value items hitems =>
    refine { hs with bounded := fun hpos => ?_, order := ?_ }
    · have hle := hs.bounded hpos
      rw [hitems, List.length_cons] at hle
      exact Nat.le_of_succ_le hle
    · simp [removeFront, hs.order, hitems]
  | refuse r => exact hs
  | copied h hop hmem =>
    refine { hs with count := ?_, nodup := hs.addSender.1, fresh := hs.addSender.2 }
    rw [ChannelState.addSender, List.length_append, List.length_singleton, hs.count]
  | moved h hop hmem =>
    have hremoved := hs.removeSender hmem
    refine { hs with count := ?_, nodup := hremoved.addSender.1, fresh := hremoved.addSender.2 }
    show s.senderCount = (s.senders.erase h ++ [s.created]).length
    have hpos := List.length_pos_of_mem hmem
    rw [List.length_append, List.length_singleton, List.length_erase_of_mem hmem, hs.count]
    omega
  | released h s' hop hmem hs' =>
    subst hs'
    exact hs.removeSender hmem
  | closed h hop => exact { hs with }
  | receiverMoved h hop hholds =>
    refine { hs with fresh := fun h hmem => Nat.lt_succ_of_lt (hs.fresh h hmem), alive := ?_ }
    rw [hs.alive, hholds]
    rfl
  | markedDead h hop hholds => exact { hs with alive := rfl }

/-- The state of a channel and its calls. -/
abbrev Running (T : Type) := Monitor.State (ChannelState T) (Op T) (Result T) Cv

abbrev step (s : Running T) (a : Monitor.Action (Op T)) : Option (Running T) := (monitor T).step s a

/-- A channel before its first call. -/
def init (T : Type) (capacity : Nat) : Running T where
  data := channel capacity
  calls := []

theorem counted_of_reach {s : Running T}
    (h : Reach step (fun _ _ => True) (init T capacity) s) : Counted capacity s.data := by
  refine h.invariant (fun s => Counted capacity s.data) ?_ fun s a s' hs _ hstep => ?_
  · exact ⟨rfl, rfl, by simp [init, channel], by simp [init, channel], rfl, fun _ => Nat.zero_le _,
      rfl⟩
  · exact (Monitor.step_effect hstep).data
      (fun i op expired data data' signals r hdata hf => hdata.section (critical_section hf)) hs

/-- A channel that is shut stays so, and nothing is sent on it. -/
theorem shut_of_reach {s s' : Running T} (hshut : Shut s.data)
    (h : Reach step (fun _ _ => True) s s') : Shut s'.data ∧ s'.data.sent = s.data.sent := by
  refine h.invariant (fun s' => Shut s'.data ∧ s'.data.sent = s.data.sent) ⟨hshut, rfl⟩
    fun t a t' ht _ hstep => ?_
  refine (Monitor.step_effect hstep).data
    (I := fun data => Shut data ∧ data.sent = s.data.sent) ?_ ht
  intro i op expired data data' signals r hdata hf
  cases critical_section hf with
  | accept h value hop hopen => exact absurd hdata.1 hopen
  | released h s' hop _ hs' =>
    subst hs'
    exact hdata
  | closed h hop => exact ⟨.inr rfl, hdata.2⟩
  | markedDead h hop => exact ⟨.inl rfl, hdata.2⟩
  | _ => exact hdata

/-- When nothing more comes, nothing waits for it that is not about to be notified. -/
theorem ended_of_reach {s : Running T}
    (h : Reach step (fun _ _ => True) (init T capacity) s) (cv : Cv) :
    Over cv s.data → (monitor T).Ended cv s.calls :=
  h.invariant (fun s => Over cv s.data → (monitor T).Ended cv s.calls)
    (fun _ => .inl fun c hmem => by cases hmem)
    fun s a s' hs _ hstep => (Monitor.step_effect hstep).ended ends cv hs

/-- **No wakeup is lost**: nothing waits for what is there and was not promised to another. -/
theorem waiting_of_reach {s : Running T}
    (h : Reach step (fun _ _ => True) (init T capacity) s) (hquiet : Monitor.Quiet s.calls)
    (cv : Cv) {c : Call (Op T) (Result T) Cv} (hmem : c ∈ s.calls)
    (hblocked : (monitor T).blockedOn cv c = true) :
    ¬ Over cv s.data ∧ resource cv s.data ≤ s.calls.countP ((monitor T).notifiedOn cv) := by
  have hserved : (monitor T).Served cv (resource cv s.data) s.calls :=
    h.invariant (fun s => (monitor T).Served cv (resource cv s.data) s.calls)
      (.inl fun c hmem => by cases hmem)
      fun s a s' hs _ hstep => (Monitor.step_effect hstep).served paces cv hs
  refine ⟨fun hover => ?_, hserved.le_of_quiet hquiet hmem hblocked⟩
  rw [(ended_of_reach h cv hover).of_quiet hquiet c hmem] at hblocked
  cases hblocked

/-- What holds in every state of a channel that was made with this capacity. -/
structure Delivers (capacity : Nat) (s : Running T) : Prop where
  /-- the state counts the senders that hold it -/
  count : s.data.senderCount = s.data.senders.length ∧ s.data.senders.Nodup
  /-- the receiver is dead when no object holds it -/
  alive : s.data.receiverAlive = s.data.receiver.isSome
  /-- what was sent is what was received and what is still in the queue, in this order -/
  fifo : s.data.sent.map Prod.snd = s.data.received.map Prod.snd ++ s.data.items
  /-- a value was sent when its call returns true, and once -/
  accepted : Monitor.Logged accepted s.data.sent s.calls
  /-- a value was received by the call that returns it -/
  delivered : Monitor.Logged delivered s.data.received s.calls
  /-- a call of `recv` that returns nothing found no items, and no senders or a closed channel -/
  empty : ∀ i s', step s (.enter i) = some s' → ∀ h signals,
    s'.calls[i]? = some { op := .recv h, progress := .leaving signals (.received none) } →
      s.data.items = [] ∧ (s.data.senders = [] ∨ s.data.explicitlyClosed = true)
  /-- a bounded channel is never too full -/
  bounded : 0 < capacity → s.data.items.length ≤ capacity
  /-- nothing is sent after `close`, or when the receiver is dead -/
  shut : Shut s.data → ∀ s', Reach step (fun _ _ => True) s s' →
    Shut s'.data ∧ s'.data.sent = s.data.sent
  /-- without senders, no receiver waits that is not about to be notified -/
  gone : s.data.senders = [] ∨ s.data.explicitlyClosed = true → (monitor T).Ended .notEmpty s.calls
  /-- no receiver waits for items that are there -/
  consumers : Monitor.Quiet s.calls → ∀ c ∈ s.calls, (monitor T).blockedOn .notEmpty c = true →
    s.data.items.length ≤ s.calls.countP ((monitor T).notifiedOn .notEmpty)
  /-- no sender waits for places that are there, or on a channel that is shut -/
  producers : Monitor.Quiet s.calls → ∀ c ∈ s.calls, (monitor T).blockedOn .notFull c = true →
    ¬ Shut s.data ∧
      capacity - s.data.items.length ≤ s.calls.countP ((monitor T).notifiedOn .notFull)

/-- The producers are gone when no sender holds the state, or it was closed. -/
theorem producersAlive_eq_false (hs : Counted capacity s) :
    s.producersAlive = false ↔ s.senders = [] ∨ s.explicitlyClosed = true := by
  unfold producersAlive
  rw [hs.count, Bool.and_eq_false_iff, decide_eq_false_iff_not, Nat.not_lt, Nat.le_zero_eq,
    List.length_eq_zero_iff, Bool.not_eq_false']

/-- **A channel delivers**, in every run. -/
theorem channel_delivers (capacity : Nat) (s : Running T)
    (h : Reach step (fun _ _ => True) (init T capacity) s) : Delivers capacity s := by
  have hcounted := counted_of_reach h
  refine
    { count := ⟨hcounted.count, hcounted.nodup⟩
      alive := hcounted.alive
      fifo := hcounted.order
      accepted := ?_
      delivered := ?_
      empty := ?_
      bounded := hcounted.bounded
      shut := fun hshut s' h' => shut_of_reach hshut h'
      gone := fun hgone => ended_of_reach h .notEmpty ((producersAlive_eq_false hcounted).mpr hgone)
      consumers := fun hquiet c hmem hblocked =>
        (waiting_of_reach h hquiet .notEmpty hmem hblocked).2
      producers := ?_ }
  · exact h.invariant (fun s => Monitor.Logged accepted s.data.sent s.calls) (fun i => rfl)
      fun s a s' hs _ hstep => (Monitor.step_effect hstep).logged logs_sent hs
  · exact h.invariant (fun s => Monitor.Logged delivered s.data.received s.calls) (fun i => rfl)
      fun s a s' hs _ hstep => (Monitor.step_effect hstep).logged logs_received hs
  · intro i s' hstep h signals hc
    obtain ⟨expired, hf⟩ := Monitor.enter_finish hstep hc
    obtain ⟨hitems, hgone⟩ : s.data.items = [] ∧ s.data.producersAlive = false := by
      have hsection : Section i (.recv h) s.data s'.data signals (.received none) :=
        recv_section hf
      generalize s'.data = data at hsection
      generalize hr : Result.received (none : Option T) = r at hsection
      cases hsection with
      | refuse r _ _ _ hempty => exact hempty h rfl
      | _ => cases hr
    exact ⟨hitems, (producersAlive_eq_false hcounted).mp hgone⟩
  · intro hquiet c hmem hblocked
    obtain ⟨hopen, hle⟩ := waiting_of_reach h hquiet .notFull hmem hblocked
    rw [resource, if_neg (show ¬ Shut s.data from hopen), hcounted.capacity_eq] at hle
    exact ⟨hopen, hle⟩

/-- The receiver waits, the only sender is copied, sends and goes, and the copy goes before the
receiver is notified. -/
theorem channel_delivers_two_senders :
    ∃ s : Running Nat, Reach step (fun _ _ => True) (init Nat 1) s ∧ s.data.senderCount = 0 ∧
      s.data.items = [7] ∧ Delivers 1 s := by
  let actions : List (Monitor.Action (Op Nat)) :=
    [.invoke (.recv 1), .enter 0, .invoke (.copy 0), .enter 1, .invoke (.send 0 7), .enter 2,
      .invoke (.release 0), .enter 3, .invoke (.release 2), .enter 4, .notify 2 (some 0)]
  obtain ⟨s, hs⟩ : ∃ s, run step (fun _ _ => true) actions (init Nat 1) = some s := ⟨_, rfl⟩
  have hreach : Reach step (fun _ _ => True) (init Nat 1) s :=
    Reach.run (fun _ _ _ => trivial) .init hs
  refine ⟨s, hreach, ?_, ?_, channel_delivers 1 s hreach⟩
  · cases hs
    rfl
  · cases hs
    rfl

end Libca.Thread.Channel
