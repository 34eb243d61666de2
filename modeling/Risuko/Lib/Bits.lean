import Mathlib.Tactic

/-!
# Bit strings in bytes

A bit string is a list of bytes, the first bit in the high end of the first byte. `bitMask i` selects bit `i` within its byte
and `bitAt` reads a bit, false past the end. The lemmas say how the byte operations (or, and, and-not) act on single bits.
-/

namespace Risuko

/-- The byte with exactly the bit that bit `i` of a string has in its byte. -/
def bitMask (i : Nat) : UInt8 := 1 <<< UInt8.ofNat (7 - i % 8)

/-- Whether a byte has the bit of position `i`. -/
def byteHas (b : UInt8) (i : Nat) : Bool := (b &&& bitMask i) != 0

/-- Bit `i` of a bit string. -/
def bitAt (bytes : List UInt8) (i : Nat) : Bool :=
  match bytes[i / 8]? with
  | some b => byteHas b i
  | none => false

theorem toBitVec_bitMask (i : Nat) : (bitMask i).toBitVec = BitVec.twoPow 8 (7 - i % 8) := by
  unfold bitMask
  have h : i % 8 < 8 := Nat.mod_lt _ (by decide)
  generalize i % 8 = k at h
  interval_cases k <;> rfl

/-- A byte has the bit of a position exactly when its bit vector does, counted from the low end. -/
theorem byteHas_eq (b : UInt8) (i : Nat) : byteHas b i = b.toBitVec.getLsbD (7 - i % 8) := by
  have hz : byteHas b i = true ↔ (b &&& bitMask i).toBitVec ≠ 0 := by
    unfold byteHas
    simp only [bne_iff_ne, ne_eq]
    rw [← UInt8.toBitVec_inj]
    rfl
  have hlt : 7 - i % 8 < 8 := by omega
  have hand : (b &&& bitMask i).toBitVec = if b.toBitVec.getLsbD (7 - i % 8) then BitVec.twoPow 8 (7 - i % 8) else 0#8 := by
    rw [UInt8.toBitVec_and, toBitVec_bitMask, BitVec.and_twoPow]
  have hne : BitVec.twoPow 8 (7 - i % 8) ≠ 0#8 := by
    intro h
    have := congrArg (fun v => v.getLsbD (7 - i % 8)) h
    simp [hlt] at this
  cases hb : b.toBitVec.getLsbD (7 - i % 8) with
  | true =>
    rw [hb] at hand
    exact hz.mpr (by rw [hand]; exact hne)
  | false =>
    rw [hb] at hand
    cases hh : byteHas b i with
    | false => rfl
    | true => exact absurd (by rw [hand]; rfl) (hz.mp hh)

theorem byteHas_zero (i : Nat) : byteHas 0 i = false := by
  rw [byteHas_eq]
  simp

/-- Setting a bit. -/
theorem byteHas_or_mask (b : UInt8) (i j : Nat) : byteHas (b ||| bitMask i) j = (byteHas b j || decide (i % 8 = j % 8)) := by
  simp only [byteHas_eq, UInt8.toBitVec_or, BitVec.getLsbD_or, toBitVec_bitMask, BitVec.getLsbD_twoPow]
  congr 1
  by_cases h : i % 8 = j % 8
  · simp [h]
    omega
  · have : ¬ (7 - i % 8 = 7 - j % 8) := by omega
    simp [h, this]

/-- Clearing a bit. -/
theorem byteHas_and_not_mask (b : UInt8) (i j : Nat) :
    byteHas (b &&& ~~~bitMask i) j = (byteHas b j && decide (i % 8 ≠ j % 8)) := by
  simp only [byteHas_eq, UInt8.toBitVec_and, UInt8.toBitVec_not, BitVec.getLsbD_and, BitVec.getLsbD_not,
    toBitVec_bitMask, BitVec.getLsbD_twoPow]
  congr 1
  by_cases h : i % 8 = j % 8
  · simp [h]
  · have : ¬ (7 - i % 8 = 7 - j % 8) := by omega
    simp [h, this]
    omega

/-- Two bytes have a common bit exactly when some position is set in both. -/
theorem and_ne_zero_iff (a b : UInt8) : (a &&& b) ≠ 0 ↔ ∃ k < 8, byteHas a k = true ∧ byteHas b k = true := by
  have hz : (a &&& b) ≠ 0 ↔ ∃ j < 8, (a.toBitVec &&& b.toBitVec).getLsbD j = true := by
    rw [ne_eq, ← UInt8.toBitVec_inj, UInt8.toBitVec_and]
    constructor
    · intro h
      by_contra hno
      push Not at hno
      apply h
      apply BitVec.eq_of_getLsbD_eq
      intro j hj
      have := hno j hj
      simp only [Bool.not_eq_true] at this
      rw [this]
      simp
    · rintro ⟨j, _, hj⟩ h
      rw [h] at hj
      simp at hj
  rw [hz]
  constructor
  · rintro ⟨j, hj, h⟩
    refine ⟨7 - j, by omega, ?_⟩
    rw [byteHas_eq, byteHas_eq, show 7 - (7 - j) % 8 = j by omega]
    simpa using h
  · rintro ⟨k, hk, ha, hb⟩
    rw [byteHas_eq] at ha hb
    exact ⟨7 - k % 8, by omega, by simp [ha, hb]⟩

/-- Only the position within the byte matters to a byte. -/
theorem byteHas_mod (b : UInt8) (i : Nat) : byteHas b (i % 8) = byteHas b i := by
  rw [byteHas_eq, byteHas_eq, Nat.mod_mod]

theorem bitAt_of_getElem? {bytes : List UInt8} {i : Nat} {b : UInt8} (h : bytes[i / 8]? = some b) :
    bitAt bytes i = byteHas b i := by
  simp [bitAt, h]

theorem bitAt_replicate_zero (n i : Nat) : bitAt (List.replicate n 0) i = false := by
  unfold bitAt
  split
  · rename_i b hb
    rw [List.getElem?_replicate] at hb
    split at hb
    · cases hb
      exact byteHas_zero i
    · cases hb
  · rfl

/-- Replacing the byte of bit `i` by one that differs from it in that bit at most changes no other bit. -/
theorem bitAt_set {bytes : List UInt8} {i : Nat} {b : UInt8} (hi : i / 8 < bytes.length) (j : Nat) :
    bitAt (bytes.set (i / 8) b) j = if j / 8 = i / 8 then byteHas b j else bitAt bytes j := by
  unfold bitAt
  rw [List.getElem?_set]
  by_cases h : j / 8 = i / 8
  · simp [h, hi]
  · simp [h, Ne.symm h]

/-- Two bit strings have a common bit exactly when some pair of their bytes does. -/
theorem any_zip_and_iff (a b : List UInt8) :
    (a.zip b).any (fun p => (p.1 &&& p.2) != 0) = true ↔ ∃ i, bitAt a i = true ∧ bitAt b i = true := by
  rw [List.any_eq_true]
  constructor
  · rintro ⟨⟨x, y⟩, hmem, hne⟩
    obtain ⟨j, hj⟩ := List.mem_iff_getElem?.mp hmem
    obtain ⟨hx, hy⟩ := List.getElem?_zip_eq_some.mp hj
    obtain ⟨k, hk, hxk, hyk⟩ := (and_ne_zero_iff x y).mp (by simpa using hne)
    refine ⟨8 * j + k, ?_, ?_⟩
    · rw [bitAt_of_getElem? (b := x) (by rw [show (8 * j + k) / 8 = j by omega]; exact hx), ← byteHas_mod,
        show (8 * j + k) % 8 = k by omega]
      exact hxk
    · rw [bitAt_of_getElem? (b := y) (by rw [show (8 * j + k) / 8 = j by omega]; exact hy), ← byteHas_mod,
        show (8 * j + k) % 8 = k by omega]
      exact hyk
  · rintro ⟨i, ha, hb⟩
    unfold bitAt at ha hb
    split at ha
    · rename_i x hx
      split at hb
      · rename_i y hy
        refine ⟨(x, y), List.mem_iff_getElem?.mpr ⟨i / 8, List.getElem?_zip_eq_some.mpr ⟨hx, hy⟩⟩, ?_⟩
        have := (and_ne_zero_iff x y).mpr ⟨i % 8, Nat.mod_lt _ (by decide), by rw [byteHas_mod]; exact ha,
          by rw [byteHas_mod]; exact hb⟩
        simpa using this
      · cases hb
    · cases ha

end Risuko

/-!
## The order of bytes

Bytes are ordered by their numbers, and byte strings lexicographically.
-/

namespace Risuko

instance byteOrder : LinearOrder UInt8 where
  le_refl := UInt8.le_refl
  le_trans _ _ _ := UInt8.le_trans
  le_antisymm _ _ := UInt8.le_antisymm
  le_total := UInt8.le_total
  lt_iff_le_not_ge a b := by
    rw [UInt8.lt_iff_toNat_lt, UInt8.le_iff_toNat_le, UInt8.le_iff_toNat_le]
    omega
  toDecidableLE := inferInstance
  toDecidableLT := inferInstance
  toDecidableEq := inferInstance

end Risuko
