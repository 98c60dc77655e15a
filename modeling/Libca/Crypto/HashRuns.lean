import Libca.Crypto.Sponge

/-!
# Any calls of a hash class (`crypto/{md5,sha1,sha256,sha512,sha3}.cpp`)

* `results_eq`: what holds of one call of a hasher (`Hasher.Keeps`) holds of all of them.
* `incremental_hashing`: the results of `get_hash` in any calls of any class are the digests of what
  was added since the last `reset`, if `SHA384` is asked for one digest after each `reset` at most
  (`AskedOnce`). It restores six of its eight words: `not_incremental_hashing`.
-/

namespace Libca.Crypto

open Common

/-- The digest of a message: the compression function or the permutation folded over the padded
message. -/
def HashClass.digest : HashClass → Bytes → Bytes
  | md5 => Crypto.md5.digest 8 (toLe 8)
  | sha1 => Crypto.sha1.digest 8 (toBe 8)
  | sha256 => Crypto.sha256.digest 8 (toBe 8)
  | sha384 => Crypto.sha384.digest 16 (toBe 16)
  | sha512 => Crypto.sha512.digest 16 (toBe 16)
  | sha3 bits => Sha3State.digest bits

/-- The digests of what was added since the last `reset`. -/
def expected (digest : Bytes → Bytes) : Bytes → List HashCall → List Bytes
  | _, [] => []
  | _, .reset :: calls => expected digest [] calls
  | msg, .add data :: calls => expected digest (msg ++ data) calls
  | msg, .getHash _ text :: calls => render text (digest msg) :: expected digest msg calls

/-- No message is too long. -/
def Bounded : Bytes → List HashCall → Prop
  | _, [] => True
  | _, .reset :: calls => Bounded [] calls
  | msg, .add data :: calls => (msg ++ data).length < 2 ^ 61 ∧ Bounded (msg ++ data) calls
  | msg, .getHash _ _ :: calls => Bounded msg calls

/-- After each `reset` there is one `get_hash` at most; `asked` says whether there was one. -/
def AskedOnce : Bool → List HashCall → Prop
  | _, [] => True
  | _, .reset :: calls => AskedOnce false calls
  | asked, .add _ :: calls => AskedOnce asked calls
  | asked, .getHash _ _ :: calls => asked = false ∧ AskedOnce true calls

/-- What one call does, of a state that holds a message; `restores` says whether `get_hash` leaves
the message. -/
structure Hasher.Keeps (h : Hasher) (digest : Bytes → Bytes) (restores : Prop)
    (holds : h.State → Bytes → Prop) : Prop where
  init : holds h.init []
  reset : ∀ s, holds (h.reset s) []
  add : ∀ s msg data, holds s msg → holds (h.add s data) (msg ++ data)
  getHash : ∀ s msg garbage, holds s msg → msg.length < 2 ^ 61 → (h.getHash s garbage).1 =
    digest msg
  kept : restores → ∀ s msg garbage, holds s msg → msg.length < 2 ^ 61 →
    holds (h.getHash s garbage).2 msg

/-- **What holds of one call holds of all of them.** A state that was asked and does not restore
holds nothing up to the next `reset`. -/
theorem results_eq {h : Hasher} {digest : Bytes → Bytes} {restores : Prop}
    {holds : h.State → Bytes → Prop} (hk : h.Keeps digest restores holds) {calls : List HashCall}
    {s : h.State} {msg : Bytes} (asked : Bool) (hbounded : Bounded msg calls)
    (honce : restores ∨ AskedOnce asked calls) (hs : restores ∨ asked = false → holds s msg)
    (hlt : msg.length < 2 ^ 61) : h.results s calls = expected digest msg calls := by
  induction calls generalizing s msg asked with
  | nil => rfl
  | cons call calls ih =>
    cases call with
    | reset => exact ih false hbounded honce (fun _ => hk.reset s) (by decide)
    | add data =>
      exact ih asked hbounded.2 honce (fun hfresh => hk.add s msg data (hs hfresh)) hbounded.1
    | getHash garbage text =>
      have hfresh : restores ∨ asked = false := honce.imp_right And.left
      have hdigest := hk.getHash s msg garbage (hs hfresh) hlt
      have hnext : restores ∨ true = false → holds (h.getHash s garbage).2 msg := by
        intro hrestores
        rcases hrestores with hrestores | habsurd
        · exact hk.kept hrestores s msg garbage (hs hfresh) hlt
        · cases habsurd
      have hrest := ih true hbounded (honce.imp_right And.right) hnext hlt
      unfold Hasher.results expected
      simp only [hdigest, hrest]

/-! ## The classes -/

theorem HashKind.Standard.keeps {k : HashKind} {w : Nat} {field : Nat → Bytes}
    (hk : k.Standard w field) :
    k.hasher.Keeps (k.digest w field) (∀ old new, k.restore old new = old) HashState.Absorbed where
  init := HashState.Absorbed.initial (Nat.zero_lt_of_lt hk.width_lt) rfl rfl rfl
  reset _ := HashState.Absorbed.initial (Nat.zero_lt_of_lt hk.width_lt) rfl rfl rfl
  add _ _ data h := HashState.absorbed_add h data
  getHash _ _ garbage h hlt := HashState.getHash_eq hk h hlt garbage
  kept hrestore _ _ garbage h hlt := HashState.absorbed_getHash hk hrestore h hlt garbage

theorem Sha3State.keeps (bits : Sha3Bits) :
    (HashClass.sha3 bits).hasher.Keeps (Sha3State.digest bits) True (Sha3State.Absorbed bits) where
  init := Sha3State.absorbed_init bits
  reset _ := Sha3State.absorbed_init bits
  add _ _ data h := Sha3State.absorbed_add h data
  getHash _ _ _ h _ := Sha3State.squeezeInto_eq h
  kept _ _ _ _ h _ := h

/-- **Incremental hashing is hashing of the concatenation**: for every class and all calls in any
order, if `SHA384` is asked once after each `reset` at most. -/
theorem incremental_hashing (c : HashClass) {calls : List HashCall} (hbounded : Bounded [] calls)
    (honce : c = .sha384 → AskedOnce false calls) :
    c.hasher.results c.hasher.init calls = expected c.digest [] calls := by
  have hrestores {k : HashKind} {w : Nat} {field : Nat → Bytes} (hk : k.Standard w field)
      (honce : (∀ old new, k.restore old new = old) ∨ AskedOnce false calls) :
      k.hasher.results k.hasher.init calls = expected (k.digest w field) [] calls :=
    results_eq hk.keeps false hbounded honce (fun _ => hk.keeps.init) (by decide)
  cases c with
  | md5 => exact hrestores md5_standard (.inl fun _ _ => rfl)
  | sha1 => exact hrestores sha1_standard (.inl fun _ _ => rfl)
  | sha256 => exact hrestores sha256_standard (.inl fun _ _ => rfl)
  | sha384 => exact hrestores sha384_standard (.inr (honce rfl))
  | sha512 => exact hrestores sha512_standard (.inl fun _ _ => rfl)
  | sha3 bits =>
    exact results_eq (Sha3State.keeps bits) false hbounded (.inl trivial)
      (fun _ => Sha3State.absorbed_init bits) (by decide)

/-- Two pieces, a digest, a `reset` and another digest of `SHA384`. -/
theorem incremental_hashing_sha384 :
    HashClass.sha384.hasher.results HashClass.sha384.hasher.init
      [.add [1], .add [2, 3], .getHash (fun _ => 0xcc) true, .reset,
      .getHash (fun _ => 0xcc) false] = expected HashClass.sha384.digest []
          [.add [1], .add [2, 3], .getHash (fun _ => 0xcc) true, .reset,
            .getHash (fun _ => 0xcc) false] :=
  incremental_hashing .sha384 (by simp [Bounded]) (fun _ => by simp [AskedOnce])

/-- `SHA384` asked twice. -/
theorem sha384_getHash_getHash :
    ((HashState.init sha384).getHash fun _ => 0).1 ≠
      (((HashState.init sha384).getHash fun _ => 0).2.getHash fun _ => 0).1 := by
  decide +kernel

/-- **The second digest is another one.** -/
theorem not_incremental_hashing :
    ¬ ∀ (c : HashClass) (calls : List HashCall), Bounded [] calls →
      c.hasher.results c.hasher.init calls = expected c.digest [] calls := by
  intro h
  have htwice := h .sha384 [.getHash (fun _ => 0) false, .getHash (fun _ => 0) false] trivial
  have hfirst : ((HashState.init sha384).getHash fun _ => 0).1 = HashClass.sha384.digest [] :=
    (List.cons.inj htwice).1
  have hsecond : (((HashState.init sha384).getHash fun _ => 0).2.getHash fun _ => 0).1 =
      HashClass.sha384.digest [] := (List.cons.inj (List.cons.inj htwice).2).1
  exact sha384_getHash_getHash (hfirst.trans hsecond.symm)

end Libca.Crypto
