import Libca.Common.Bytes

/-!
# zlib

The library is not part of the repository: its functions are parameters, and `Zlib.Documented` says
of them what zlib's manual does. A call of `deflate` or `inflate` takes the rest of the input and
the room for output, and tells what it consumed and wrote.
-/

namespace Libca.Zip

open Common

/-- `Z_NO_FLUSH` or `Z_FINISH`. -/
inductive Flush
  | noFlush
  | finish
  deriving DecidableEq

/-- The return code of a call. -/
inductive ZStatus
  | ok
  | streamEnd
  | streamError
  | dataError
  | other (code : Int)
  deriving DecidableEq

/-- What a call of `deflate` or `inflate` does. -/
structure ZStep (σ : Type) where
  status : ZStatus
  stream : σ
  consumed : Nat
  output : Bytes

/-- The functions of zlib; `none` is a stream that could not be set up. -/
structure Zlib where
  DeflateStream : Type
  deflateInit2 : Int → Option DeflateStream
  deflate : DeflateStream → Flush → Bytes → Nat → ZStep DeflateStream
  InflateStream : Type
  inflateInit2 : Option InflateStream
  inflate : InflateStream → Bytes → Nat → ZStep InflateStream
  crcInit : UInt32
  crc32 : UInt32 → Bytes → UInt32

/-- What the manual says of `deflate` with `Z_FINISH`: `F s i o` holds of a stream that took `i`,
gave `o` and is not at its end. What it gave up to the end stands for what it took. -/
structure Zlib.Finishes (Z : Zlib) (Compressed : Bytes → Bytes → Prop)
    (F : Z.DeflateStream → Bytes → Bytes → Prop) : Prop where
  step : ∀ s i o room, F s i o → (Z.deflate s .finish [] room).status ≠ .streamEnd →
    F (Z.deflate s .finish [] room).stream i (o ++ (Z.deflate s .finish [] room).output)
  finished : ∀ s i o room, F s i o → (Z.deflate s .finish [] room).status = .streamEnd →
    Compressed (o ++ (Z.deflate s .finish [] room).output) i

/-- What the manual says of `deflate`: `D s i o` holds of a stream that took `i`, gave `o` and was
not yet called with `Z_FINISH`, behind which it refuses input. It consumes all input unless the room
for output ends first. -/
structure Zlib.Deflates (Z : Zlib) (Compressed : Bytes → Bytes → Prop)
    (D : Z.DeflateStream → Bytes → Bytes → Prop) : Prop where
  init : ∀ level s, Z.deflateInit2 level = some s → D s [] []
  step : ∀ s i o input room, D s i o →
    D (Z.deflate s .noFlush input room).stream
      (i ++ input.take (Z.deflate s .noFlush input room).consumed)
      (o ++ (Z.deflate s .noFlush input room).output)
  room : ∀ s flush input room, (Z.deflate s flush input room).output.length ≤ room
  drained : ∀ s i o input room, D s i o →
    (Z.deflate s .noFlush input room).output.length < room →
    input.length ≤ (Z.deflate s .noFlush input room).consumed
  finishes : ∃ F, Z.Finishes Compressed F ∧ ∀ s i o, D s i o → F s i o

/-- What the manual says of `inflate`: `I s z rest` holds of a stream that has `z` to take and, with
it, `rest` to give. A call gives as much as there is room for, and makes progress until the end. -/
structure Zlib.Inflates (Z : Zlib) (Compressed : Bytes → Bytes → Prop)
    (I : Z.InflateStream → Bytes → Bytes → Prop) : Prop where
  init : ∃ s, Z.inflateInit2 = some s ∧ ∀ z c, Compressed z c → I s z c
  output : ∀ s z rest room, I s z rest → (Z.inflate s z room).output = rest.take room
  status : ∀ s z rest room, 0 < room → I s z rest →
    (Z.inflate s z room).status = .streamEnd ∧ rest.length ≤ room ∨
      (Z.inflate s z room).status = .ok ∧
        I (Z.inflate s z room).stream (z.drop (Z.inflate s z room).consumed) (rest.drop room) ∧
        (z.drop (Z.inflate s z room).consumed).length + (rest.drop room).length <
          z.length + rest.length

/-- zlib behaves as its manual says: `Compressed z c` is a raw deflate stream `z` of `c`. -/
structure Zlib.Documented (Z : Zlib) : Prop where
  crc_nil : ∀ crc, Z.crc32 crc [] = crc
  crc_append : ∀ crc a b, Z.crc32 (Z.crc32 crc a) b = Z.crc32 crc (a ++ b)
  streams : ∃ Compressed, (∃ D, Z.Deflates Compressed D) ∧ ∃ I, Z.Inflates Compressed I

end Libca.Zip
