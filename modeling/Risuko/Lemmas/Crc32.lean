import Risuko.Lib.Crc
import Risuko.Usenet.Yenc

/-!
# What the tables hold

The entry of the table `slice` at `index` is `index` shifted `8 * (slice + 1)` times, so the lookups for eight bytes shift each byte as often as it
has still to go.
-/

namespace Risuko

namespace Usenet

open Crc

theorem bitStep_eq (crc : BitVec 32) : bitStep crc = shift polynomial crc := by
  have hbit : crc &&& 1 = BitVec.setWidth 32 (BitVec.ofBool (crc.getLsbD 0)) := BitVec.and_one_eq_setWidth_ofBool_getLsbD
  unfold bitStep shift
  rw [hbit]
  cases crc.getLsbD 0 <;> rfl

theorem bitStep_iterate (n : ℕ) (crc : BitVec 32) : bitStep^[n] crc = shifts polynomial n crc := by
  induction n generalizing crc with
  | zero => rfl
  | succ n ih => rw [Function.iterate_succ_apply, ih, bitStep_eq, shifts]

theorem ofNat_toNat_word (x : BitVec 32) : BitVec.ofNat 32 x.toNat = x := by
  rw [BitVec.ofNat_toNat, BitVec.setWidth_eq]

/-- The entry of a table. -/
theorem crc32Tables_eq (slice : ℕ) (x : BitVec 32) : crc32Tables slice x.toNat = shifts polynomial (8 * (slice + 1)) x := by
  induction slice with
  | zero => rw [crc32Tables, bitStep_iterate, ofNat_toNat_word]
  | succ slice ih =>
    have hparts : shifts polynomial 8 (shifts polynomial (8 * (slice + 1)) x) =
        shifts polynomial 8 (shifts polynomial (8 * (slice + 1)) x &&& 0xff) ^^^ shifts polynomial (8 * (slice + 1)) x >>> 8 :=
      shifts_split (n := 8) (k := 0) _
    rw [crc32Tables, ih, bitStep_iterate, ofNat_toNat_word, Nat.mul_succ 8 (slice + 1), shifts_add, hparts, BitVec.xor_comm]

/-- A byte of the message on its own. -/
theorem crcByte_eq (crc : BitVec 32) (byte : UInt8) : crcByte crc byte = shifts polynomial 8 (crc ^^^ byte.toBitVec.setWidth 32) := by
  have hparts : shifts polynomial 8 (crc ^^^ byte.toBitVec.setWidth 32) =
      shifts polynomial 8 ((crc ^^^ byte.toBitVec.setWidth 32) &&& 0xff) ^^^ (crc ^^^ byte.toBitVec.setWidth 32) >>> 8 :=
    shifts_split (n := 8) (k := 0) _
  have hdown : (crc ^^^ byte.toBitVec.setWidth 32) >>> 8 = crc >>> 8 := by
    refine BitVec.eq_of_getLsbD_eq fun i hi => ?_
    simp only [BitVec.getLsbD_ushiftRight, BitVec.getLsbD_xor, BitVec.getLsbD_setWidth]
    rw [BitVec.getLsbD_of_ge byte.toBitVec (8 + i) (Nat.le_add_right 8 i), Bool.and_false, Bool.xor_false]
  unfold crcByte
  rw [crc32Tables_eq, hparts, hdown, BitVec.xor_comm]

/-- Four bytes, shifted `k` times more than they are long. -/
theorem shifts_bytes (k : ℕ) (x : BitVec 32) : shifts polynomial (32 + k) x =
    shifts polynomial (32 + k) (x &&& 0xff) ^^^ shifts polynomial (24 + k) ((x >>> 8) &&& 0xff) ^^^ shifts polynomial (16 + k) ((x >>> 16) &&& 0xff) ^^^
      shifts polynomial (8 + k) (x >>> 24) := by
  have hfirst : ∀ (n : ℕ) (y : BitVec 32), shifts polynomial (8 + n) y = shifts polynomial (8 + n) (y &&& 0xff) ^^^ shifts polynomial n (y >>> 8) :=
    fun n y => shifts_split y
  have h1 := hfirst (24 + k) x
  have h2 := hfirst (16 + k) (x >>> 8)
  have h3 := hfirst (8 + k) (x >>> 16)
  rw [show 8 + (24 + k) = 32 + k by omega] at h1
  rw [show 8 + (16 + k) = 24 + k by omega, ← BitVec.shiftRight_add] at h2
  rw [show 8 + (8 + k) = 16 + k by omega, ← BitVec.shiftRight_add] at h3
  rw [h1, h2, h3]
  simp only [BitVec.xor_assoc]

/-- Eight bytes of the message at once. -/
theorem crcBlock_eq (crc low high : BitVec 32) :
    crcBlock crc low high = shifts polynomial 32 (shifts polynomial 32 (crc ^^^ low) ^^^ high) := by
  unfold crcBlock
  simp only [crc32Tables_eq]
  rw [shifts_xor, ← shifts_add, BitVec.xor_comm crc]
  have hlow := shifts_bytes 32 (low ^^^ crc)
  have hhigh := shifts_bytes 0 high
  norm_num at hlow hhigh ⊢
  rw [hlow, hhigh]
  simp only [BitVec.xor_assoc]

/-! ## The bits of the message -/

theorem word_bitsOf (byte : UInt8) : word 32 (bitsOf byte) = byte.toBitVec.setWidth 32 := by
  refine BitVec.eq_of_getLsbD_eq fun i hi => ?_
  rw [getLsbD_word, BitVec.getLsbD_setWidth, bitsOf, List.getD_eq_getElem?_getD, List.getElem?_map]
  by_cases hlt : i < 8
  · rw [List.getElem?_range hlt]
    rfl
  · rw [List.getElem?_eq_none (by rw [List.length_range]; omega), BitVec.getLsbD_of_ge _ _ (not_lt.mp hlt)]
    rfl

theorem getElem?_bitsOf (byte : UInt8) (i : ℕ) : (bitsOf byte)[i]? = if i < 8 then some (byte.toBitVec.getLsbD i) else none := by
  rw [bitsOf, List.getElem?_map]
  split
  · rename_i hlt
    rw [List.getElem?_range hlt]
    rfl
  · rename_i hge
    rw [List.getElem?_eq_none (by rw [List.length_range]; omega)]
    rfl

/-- Four bytes of the message are the word that the source reads. -/
theorem word_bytes (a b c d : UInt8) : word 32 (bitsOf a ++ (bitsOf b ++ (bitsOf c ++ bitsOf d))) = fromLeBytes a b c d := by
  refine BitVec.eq_of_getLsbD_eq fun i hi => ?_
  have hlength : ∀ byte : UInt8, (bitsOf byte).length = 8 := fun _ => rfl
  unfold fromLeBytes
  rw [getLsbD_word, List.getD_eq_getElem?_getD, BitVec.getLsbD_append, BitVec.getLsbD_append, BitVec.getLsbD_append]
  simp only [List.getElem?_append, hlength, getElem?_bitsOf, hi, decide_true, Bool.true_and]
  by_cases h0 : i < 8
  · simp [h0]
  · by_cases h1 : i - 8 < 8
    · simp [h0, h1]
    · by_cases h2 : i - 8 - 8 < 8
      · simp [h0, h1, h2]
      · have h3 : i - 8 - 8 - 8 < 8 := by
          omega
        simp [h0, h1, h2, h3]

/-- Bytes of the message, bit by bit. -/
theorem foldl_crcByte (bytes : Bytes) (crc : BitVec 32) : bytes.foldl crcByte crc = (bytes.flatMap bitsOf).foldl (feed polynomial) crc := by
  induction bytes generalizing crc with
  | nil => rfl
  | cons byte rest ih =>
    have hlength : (bitsOf byte).length ≤ 32 := by
      show 8 ≤ 32
      decide
    have hbyte : (bitsOf byte).foldl (feed polynomial) crc = crcByte crc byte := by
      rw [foldl_feed hlength, word_bitsOf, crcByte_eq]
      rfl
    rw [List.foldl_cons, List.flatMap_cons, List.foldl_append, hbyte, ih]

theorem foldl_feed_bytes (a b c d : UInt8) (crc : BitVec 32) :
    (bitsOf a ++ (bitsOf b ++ (bitsOf c ++ bitsOf d))).foldl (feed polynomial) crc = shifts polynomial 32 (crc ^^^ fromLeBytes a b c d) := by
  rw [foldl_feed (le_refl 32), word_bytes]
  rfl

theorem crcLoop_eq (crc : BitVec 32) (bytes : Bytes) : crcLoop crc bytes = (bytes.flatMap bitsOf).foldl (feed polynomial) crc := by
  fun_induction crcLoop crc bytes with
  | case1 crc b0 b1 b2 b3 b4 b5 b6 b7 rest ih =>
    have hbits : (b0 :: b1 :: b2 :: b3 :: b4 :: b5 :: b6 :: b7 :: rest).flatMap bitsOf =
        (bitsOf b0 ++ (bitsOf b1 ++ (bitsOf b2 ++ bitsOf b3))) ++ ((bitsOf b4 ++ (bitsOf b5 ++ (bitsOf b6 ++ bitsOf b7))) ++ rest.flatMap bitsOf) := by
      simp only [List.flatMap_cons, List.append_assoc]
    rw [hbits, List.foldl_append, List.foldl_append, foldl_feed_bytes, foldl_feed_bytes, ih, crcBlock_eq]
  | case2 crc rest => exact foldl_crcByte rest crc

end Usenet

end Risuko
