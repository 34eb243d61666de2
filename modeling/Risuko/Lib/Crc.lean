import Mathlib.Tactic

/-!
# Reflected cyclic redundancy checks

A remainder is shifted one bit at a time (`shift`), and the message is fed into it bit by bit (`feed`). Shifts are linear in exclusive or, and of a
remainder whose low bits are clear they only move it down, so many bits can be fed at once (`foldl_feed`) and a remainder can be shifted in parts.
-/

namespace Risuko

namespace Crc

variable {w : ℕ} (poly : BitVec w)

/-- The remainder after a zero bit. -/
def shift (c : BitVec w) : BitVec w := if c.getLsbD 0 then (c >>> 1) ^^^ poly else c >>> 1

/-- The remainder after a bit of the message. -/
def feed (c : BitVec w) (b : Bool) : BitVec w := if c.getLsbD 0 != b then (c >>> 1) ^^^ poly else c >>> 1

def shifts : ℕ → BitVec w → BitVec w
  | 0, c => c
  | n + 1, c => shifts n (shift poly c)

variable {poly}

theorem shift_xor (a b : BitVec w) : shift poly (a ^^^ b) = shift poly a ^^^ shift poly b := by
  have hcancel : (a >>> 1 ^^^ poly) ^^^ (b >>> 1 ^^^ poly) = a >>> 1 ^^^ b >>> 1 := by
    rw [BitVec.xor_assoc, ← BitVec.xor_assoc poly, BitVec.xor_comm poly, BitVec.xor_assoc, BitVec.xor_self, BitVec.xor_zero]
  unfold shift
  rw [BitVec.getLsbD_xor, BitVec.ushiftRight_xor_distrib]
  cases ha : a.getLsbD 0 <;> cases hb : b.getLsbD 0
  · rfl
  · exact BitVec.xor_assoc ..
  · show (a >>> 1 ^^^ b >>> 1) ^^^ poly = (a >>> 1 ^^^ poly) ^^^ b >>> 1
    rw [BitVec.xor_assoc, BitVec.xor_comm (b >>> 1), BitVec.xor_assoc]
  · exact hcancel.symm

theorem shifts_xor (n : ℕ) (a b : BitVec w) : shifts poly n (a ^^^ b) = shifts poly n a ^^^ shifts poly n b := by
  induction n generalizing a b with
  | zero => rfl
  | succ n ih => rw [shifts, shift_xor, ih, shifts, shifts]

theorem shifts_add (m n : ℕ) (c : BitVec w) : shifts poly (m + n) c = shifts poly n (shifts poly m c) := by
  induction m generalizing c with
  | zero => rw [Nat.zero_add, shifts]
  | succ m ih => rw [Nat.succ_add, shifts, ih, shifts]

/-- A remainder whose low bits are clear moves down. -/
theorem shifts_of_low {n : ℕ} {c : BitVec w} (h : ∀ i < n, c.getLsbD i = false) : shifts poly n c = c >>> n := by
  induction n generalizing c with
  | zero => rw [shifts, BitVec.ushiftRight_zero]
  | succ n ih =>
    have hfirst : shift poly c = c >>> 1 := by
      unfold shift
      rw [h 0 (Nat.succ_pos n), if_neg Bool.false_ne_true]
    rw [shifts, hfirst, ih fun i hi => ?_, ← BitVec.shiftRight_add, Nat.add_comm]
    rw [BitVec.getLsbD_ushiftRight]
    exact h (1 + i) (by omega)

/-- What has been moved up moves down again before it is divided. -/
theorem shifts_shiftLeft {m n : ℕ} {c : BitVec w} (hfits : ∀ i, w ≤ i + m → c.getLsbD i = false) :
    shifts poly (m + n) (c <<< m) = shifts poly n c := by
  have hlow : ∀ i < m, (c <<< m).getLsbD i = false := by
    intro i hi
    rw [BitVec.getLsbD_shiftLeft]
    simp [hi]
  rw [shifts_add, shifts_of_low hlow]
  congr 1
  refine BitVec.eq_of_getLsbD_eq fun i hi => ?_
  rw [BitVec.getLsbD_ushiftRight, BitVec.getLsbD_shiftLeft]
  by_cases hend : m + i < w
  · simp [hend]
  · rw [hfits i (by omega)]
    simp [hend]

/-- A remainder in its low bits and the rest. -/
theorem shifts_split {n k : ℕ} (c : BitVec w) : shifts poly (n + k) c = shifts poly (n + k) (c &&& BitVec.ofNat w (2 ^ n - 1)) ^^^
    shifts poly k (c >>> n) := by
  have hmask : ∀ i, (BitVec.ofNat w (2 ^ n - 1)).getLsbD i = (decide (i < w) && decide (i < n)) := by
    intro i
    rw [BitVec.getLsbD_ofNat, Nat.testBit_two_pow_sub_one]
  have hsplit : c = (c &&& BitVec.ofNat w (2 ^ n - 1)) ^^^ (c >>> n) <<< n := by
    refine BitVec.eq_of_getLsbD_eq fun i hi => ?_
    rw [BitVec.getLsbD_xor, BitVec.getLsbD_and, hmask, BitVec.getLsbD_shiftLeft, BitVec.getLsbD_ushiftRight]
    by_cases hlow : i < n
    · simp [hi, hlow]
    · simp [hi, hlow, Nat.add_sub_cancel' (not_lt.mp hlow)]
  conv_lhs => rw [hsplit]
  rw [shifts_xor, shifts_shiftLeft]
  intro i hi
  rw [BitVec.getLsbD_ushiftRight]
  exact BitVec.getLsbD_of_ge c _ (by omega)

/-! ## Messages -/

/-- Bits as a word, the first one lowest. -/
def word (w : ℕ) : List Bool → BitVec w
  | [] => 0
  | b :: rest => BitVec.ofNat w b.toNat ^^^ word w rest <<< 1

theorem testBit_toNat_succ (b : Bool) (i : ℕ) : b.toNat.testBit (i + 1) = false := by
  cases b <;> simp [Nat.testBit_succ]

theorem getLsbD_word (bits : List Bool) (i : ℕ) : (word w bits).getLsbD i = (decide (i < w) && bits.getD i false) := by
  induction bits generalizing i with
  | nil => simp [word]
  | cons b rest ih =>
    rw [word, BitVec.getLsbD_xor, BitVec.getLsbD_shiftLeft, ih, BitVec.getLsbD_ofNat]
    cases i with
    | zero => cases b <;> simp
    | succ i =>
      rw [testBit_toNat_succ]
      by_cases hi : i + 1 < w
      · simp [hi, Nat.lt_of_succ_lt hi]
      · simp [hi]

/-- Bits can be put into the remainder first, and shifted through it then. -/
theorem foldl_feed {bits : List Bool} (h : bits.length ≤ w) (c : BitVec w) :
    bits.foldl (feed poly) c = shifts poly bits.length (c ^^^ word w bits) := by
  induction bits generalizing c with
  | nil => exact (BitVec.xor_zero ..).symm
  | cons b rest ih =>
    have hrest : rest.length < w := h
    have hlow : ∀ i < 1, (word w rest <<< 1).getLsbD i = false := by
      intro i hi
      rw [BitVec.getLsbD_shiftLeft]
      simp [hi]
    have hfeed : feed poly c b = shift poly (c ^^^ BitVec.ofNat w b.toNat) := by
      have hbit : (c ^^^ BitVec.ofNat w b.toNat).getLsbD 0 = (c.getLsbD 0 != b) := by
        rw [BitVec.getLsbD_xor, BitVec.getLsbD_ofNat]
        cases b <;> simp [Nat.zero_lt_of_lt hrest]
      have hdown : (c ^^^ BitVec.ofNat w b.toNat) >>> 1 = c >>> 1 := by
        refine BitVec.eq_of_getLsbD_eq fun i hi => ?_
        rw [BitVec.getLsbD_ushiftRight, BitVec.getLsbD_xor, BitVec.getLsbD_ofNat, BitVec.getLsbD_ushiftRight, Nat.add_comm, testBit_toNat_succ,
          Bool.and_false, Bool.xor_false]
      unfold feed shift
      rw [hbit, hdown]
    have hup : shifts poly 1 (word w rest <<< 1) = word w rest := by
      have hfits : ∀ i, w ≤ i + 1 → (word w rest).getLsbD i = false := by
        intro i hi
        rw [getLsbD_word, List.getD_eq_getElem?_getD, List.getElem?_eq_none (by omega)]
        exact Bool.and_false _
      have hmoved : shifts poly (1 + 0) (word w rest <<< 1) = shifts poly 0 (word w rest) := shifts_shiftLeft hfits
      exact hmoved
    rw [List.foldl_cons, ih hrest.le, hfeed, List.length_cons, Nat.add_comm, shifts_add, word, ← BitVec.xor_assoc, shifts_xor 1, hup]
    rfl

end Crc

end Risuko
