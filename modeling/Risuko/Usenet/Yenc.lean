import Mathlib.Data.List.DropRight
import Risuko.Bencode.Parser

/-!
# The checksum of yEnc parts

`build_crc32_tables` and `crc32` of `usenet_pipeline.rs`, and a definition of the checksum bit by bit.
-/

namespace Risuko

namespace Usenet

abbrev Bytes := List UInt8

def polynomial : BitVec 32 := 0xedb88320

/-- A word with its low bit taken off, as in the inner loop of `build_crc32_tables`. -/
def bitStep (crc : BitVec 32) : BitVec 32 := if crc &&& 1 ≠ 0 then (crc >>> 1) ^^^ polynomial else crc >>> 1

/-- `build_crc32_tables`: the entry of a table at an index. -/
def crc32Tables : ℕ → ℕ → BitVec 32
  | 0, index => bitStep^[8] (BitVec.ofNat 32 index)
  | slice + 1, index =>
    let previous := crc32Tables slice index
    (previous >>> 8) ^^^ bitStep^[8] (BitVec.ofNat 32 (previous &&& 0xff).toNat)

/-- `u32::from_le_bytes`. -/
def fromLeBytes (a b c d : UInt8) : BitVec 32 := d.toBitVec ++ c.toBitVec ++ b.toBitVec ++ a.toBitVec

/-- Eight bytes at once. -/
def crcBlock (crc low high : BitVec 32) : BitVec 32 :=
  let low := low ^^^ crc
  crc32Tables 7 (low &&& 0xff).toNat ^^^ crc32Tables 6 ((low >>> 8) &&& 0xff).toNat ^^^ crc32Tables 5 ((low >>> 16) &&& 0xff).toNat ^^^
    crc32Tables 4 (low >>> 24).toNat ^^^ crc32Tables 3 (high &&& 0xff).toNat ^^^ crc32Tables 2 ((high >>> 8) &&& 0xff).toNat ^^^
    crc32Tables 1 ((high >>> 16) &&& 0xff).toNat ^^^ crc32Tables 0 (high >>> 24).toNat

/-- One byte of the rest. -/
def crcByte (crc : BitVec 32) (byte : UInt8) : BitVec 32 := (crc >>> 8) ^^^ crc32Tables 0 ((crc ^^^ byte.toBitVec.setWidth 32) &&& 0xff).toNat

/-- The two loops of `crc32`. -/
def crcLoop (crc : BitVec 32) : Bytes → BitVec 32
  | b0 :: b1 :: b2 :: b3 :: b4 :: b5 :: b6 :: b7 :: rest => crcLoop (crcBlock crc (fromLeBytes b0 b1 b2 b3) (fromLeBytes b4 b5 b6 b7)) rest
  | rest => rest.foldl crcByte crc

def crc32 (bytes : Bytes) : BitVec 32 := ~~~crcLoop 0xffffffff bytes

/-! ## The definition of the checksum -/

/-- The bits of a byte, the lowest first. -/
def bitsOf (byte : UInt8) : List Bool := (List.range 8).map byte.toBitVec.getLsbD

/-- The reflected checksum, one bit of the message at a time. -/
def crc32Bitwise (bytes : Bytes) : BitVec 32 :=
  ~~~(bytes.flatMap bitsOf).foldl (fun crc b => if crc.getLsbD 0 != b then (crc >>> 1) ^^^ 0xedb88320 else crc >>> 1) 0xffffffff

end Usenet

end Risuko
