import Risuko.Lib.Blockwise
import Risuko.Lib.LittleEndian

/-!
# MD4

`md4.rs`, and the digest of RFC 1320. The buffer of a hasher is what it holds of a block; the bytes behind that are never read.
-/

namespace Risuko

namespace Ed2k

/-- A word of 32 bits: sums wrap. -/
abbrev Word := BitVec 32

/-- The four words of a state. -/
structure Md4State where
  a : Word
  b : Word
  c : Word
  d : Word
  deriving DecidableEq

namespace Md4State

/-- `INIT`. -/
def init : Md4State := ⟨0x67452301, 0xefcdab89, 0x98badcfe, 0x10325476⟩

def add (s t : Md4State) : Md4State := ⟨s.a + t.a, s.b + t.b, s.c + t.c, s.d + t.d⟩

/-- The words, low byte first. -/
def bytes (s : Md4State) : List UInt8 := [s.a, s.b, s.c, s.d].flatMap fun w => toLe 4 w.toNat

end Md4State

/-- The words of a block. -/
def wordAt (chunk : List UInt8) (i : ℕ) : Word := BitVec.ofNat 32 (ofLe (Blockwise.blockAt 4 chunk i))

/-! ## The rounds as the code has them -/

namespace Md4

def f (x y z : Word) : Word := (x &&& y) ||| (~~~x &&& z)

def g (x y z : Word) : Word := (x &&& y) ||| (x &&& z) ||| (y &&& z)

def h (x y z : Word) : Word := x ^^^ y ^^^ z

/-- A turn of the first loop of `block`. -/
def turn1 (x : ℕ → Word) (s : Md4State) (i : ℕ) : Md4State :=
  let k := i * 4
  let a := (s.a + f s.b s.c s.d + x k).rotateLeft 3
  let d := (s.d + f a s.b s.c + x (k + 1)).rotateLeft 7
  let c := (s.c + f d a s.b + x (k + 2)).rotateLeft 11
  let b := (s.b + f c d a + x (k + 3)).rotateLeft 19
  ⟨a, b, c, d⟩

def turn2 (x : ℕ → Word) (s : Md4State) (i : ℕ) : Md4State :=
  let a := (s.a + g s.b s.c s.d + x i + 0x5a827999).rotateLeft 3
  let d := (s.d + g a s.b s.c + x (i + 4) + 0x5a827999).rotateLeft 5
  let c := (s.c + g d a s.b + x (i + 8) + 0x5a827999).rotateLeft 9
  let b := (s.b + g c d a + x (i + 12) + 0x5a827999).rotateLeft 13
  ⟨a, b, c, d⟩

def turn3 (x : ℕ → Word) (s : Md4State) (i : ℕ) : Md4State :=
  let a := (s.a + h s.b s.c s.d + x i + 0x6ed9eba1).rotateLeft 3
  let d := (s.d + h a s.b s.c + x (i + 8) + 0x6ed9eba1).rotateLeft 9
  let c := (s.c + h d a s.b + x (i + 4) + 0x6ed9eba1).rotateLeft 11
  let b := (s.b + h c d a + x (i + 12) + 0x6ed9eba1).rotateLeft 15
  ⟨a, b, c, d⟩

def block (state : Md4State) (chunk : List UInt8) : Md4State :=
  let x := wordAt chunk
  let s := [0, 1, 2, 3].foldl (turn1 x) state
  let s := [0, 1, 2, 3].foldl (turn2 x) s
  let s := [0, 2, 1, 3].foldl (turn3 x) s
  state.add s

end Md4

/-! ## The hasher -/

structure Md4 where
  state : Md4State
  buf : List UInt8
  total : UInt64
  short : buf.length < 64

namespace Md4

def new : Md4 := ⟨.init, [], 0, by decide⟩

/-- The loop over whole blocks in `update`, and the copy of what is left. -/
def refill (total : UInt64) (state : Md4State) (data : List UInt8) : Md4 where
  state := (Blockwise.whole 64 block state data).1
  buf := (Blockwise.whole 64 block state data).2
  total := total
  short := (Blockwise.length_whole (by decide) state data).trans_lt (Nat.mod_lt _ (by decide))

def update (s : Md4) (data : List UInt8) : Md4 :=
  let total := s.total + UInt64.ofNat data.length
  if 0 < s.buf.length then
    let take := min (64 - s.buf.length) data.length
    if hshort : (s.buf ++ data.take take).length < 64 then ⟨s.state, s.buf ++ data.take take, total, hshort⟩
    else refill total (block s.state (s.buf ++ data.take take)) (data.drop take)
  else refill total s.state data

/-- `&pad[..pad_len]` in `finalize`. -/
def padding (s : Md4) : List UInt8 :=
  let padLen := if s.buf.length < 56 then 56 - s.buf.length else 120 - s.buf.length
  (0x80 :: List.replicate 71 0).take padLen

def finalize (s : Md4) : List UInt8 :=
  let bits := s.total * 8
  ((s.update s.padding).update (toLe 8 bits.toNat)).state.bytes

end Md4

def md4 (data : List UInt8) : List UInt8 := (Md4.new.update data).finalize

/-! ## RFC 1320 -/

namespace Rfc1320

/-- The operation `[abcd k s]` of a round, with the registers in the places that they have in the next one. -/
def operation (auxiliary : Word → Word → Word → Word) (constant : Word) (x : ℕ → Word) (r : Md4State) (ks : ℕ × ℕ) : Md4State :=
  ⟨r.d, (r.a + auxiliary r.b r.c r.d + x ks.1 + constant).rotateLeft ks.2, r.b, r.c⟩

/-- `F(X,Y,Z) = XY v not(X) Z`. -/
def F (x y z : Word) : Word := (x &&& y) ||| (~~~x &&& z)

/-- `G(X,Y,Z) = XY v XZ v YZ`. -/
def G (x y z : Word) : Word := (x &&& y) ||| (x &&& z) ||| (y &&& z)

/-- `H(X,Y,Z) = X xor Y xor Z`. -/
def H (x y z : Word) : Word := x ^^^ y ^^^ z

def round1 : List (ℕ × ℕ) :=
  [(0, 3), (1, 7), (2, 11), (3, 19), (4, 3), (5, 7), (6, 11), (7, 19), (8, 3), (9, 7), (10, 11), (11, 19), (12, 3), (13, 7),
    (14, 11), (15, 19)]

def round2 : List (ℕ × ℕ) :=
  [(0, 3), (4, 5), (8, 9), (12, 13), (1, 3), (5, 5), (9, 9), (13, 13), (2, 3), (6, 5), (10, 9), (14, 13), (3, 3), (7, 5), (11, 9),
    (15, 13)]

def round3 : List (ℕ × ℕ) :=
  [(0, 3), (8, 9), (4, 11), (12, 15), (2, 3), (10, 9), (6, 11), (14, 15), (1, 3), (9, 9), (5, 11), (13, 15), (3, 3), (11, 9), (7, 11),
    (15, 15)]

/-- What a block does to the registers. -/
def compress (r : Md4State) (chunk : List UInt8) : Md4State :=
  let x := wordAt chunk
  let s := round1.foldl (operation F 0 x) r
  let s := round2.foldl (operation G 0x5a827999 x) s
  let s := round3.foldl (operation H 0x6ed9eba1 x) s
  r.add s

/-- The message with `0x80` and zeros behind it, up to eight bytes before a multiple of 64, and its length in bits. -/
def pad (message : List UInt8) : List UInt8 :=
  message ++ 0x80 :: List.replicate ((119 - message.length % 64) % 64) 0 ++ toLe 8 (8 * message.length)

def digest (message : List UInt8) : List UInt8 :=
  let padded := pad message
  ((List.range (padded.length / 64)).foldl (fun r i => compress r (Blockwise.blockAt 64 padded i)) .init).bytes

example : digest [97, 98, 99] =
    [0xa4, 0x48, 0x01, 0x7a, 0xaf, 0x21, 0xd8, 0x52, 0x5f, 0xc1, 0x0a, 0xe8, 0x7a, 0xa6, 0x72, 0x9d] := by decide +kernel

end Rfc1320

end Ed2k

end Risuko
