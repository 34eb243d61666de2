import Risuko.Lib.Bits
import Risuko.Lemmas.UtpPacket
import Risuko.Utp.Sender

/-!
# The mask of a selective ack

The receiver sets the bit of every buffered packet that the mask has room for, and cuts the mask off after the word of the highest
bit; the peer reads a packet's bit by the same rule. So the mask says exactly which numbers are buffered, as far as it reaches.
-/

namespace Risuko

namespace ConnState

variable {F : Type}

/-- Whether a byte list has a bit, counted from the low end of the first byte; false past the end. -/
def maskBit (mask : List UInt8) (bit : Nat) : Bool := byteHas (mask.getD (bit / 8) 0) (7 - bit % 8)

theorem bitMask_low (bit : Nat) : bitMask (7 - bit % 8) = 1 <<< UInt8.ofNat (bit % 8) := by
  unfold bitMask
  rw [show 7 - (7 - bit % 8) % 8 = bit % 8 by omega]

theorem sackIsSet_eq (mask : List UInt8) (bit : Nat) : sackIsSet mask bit = (decide (bit < mask.length * 8) && maskBit mask bit) := by
  unfold sackIsSet maskBit byteHas
  rw [bitMask_low]

/-- Setting one bit of a mask. -/
theorem maskBit_set {mask : List UInt8} {bit : Nat} (hbit : bit < mask.length * 8) (i : Nat) :
    maskBit (mask.set (bit / 8) (mask.getD (bit / 8) 0 ||| 1 <<< UInt8.ofNat (bit % 8))) i = (maskBit mask i || decide (i = bit)) := by
  have hlt : bit / 8 < mask.length := by omega
  unfold maskBit
  rw [← bitMask_low, List.getD_eq_getElem?_getD, List.getElem?_set]
  by_cases hbyte : bit / 8 = i / 8
  · rw [if_pos hbyte, if_pos (hbyte ▸ hlt), Option.getD_some, byteHas_or_mask, hbyte]
    congr 1
    rw [decide_eq_decide]
    omega
  · have hne : i ≠ bit := by
      rintro rfl
      exact hbyte rfl
    rw [if_neg hbyte, List.getD_eq_getElem?_getD, decide_eq_false hne, Bool.or_false]

theorem maskBit_zeros (n i : Nat) : maskBit (List.replicate n 0) i = false := by
  unfold maskBit
  rw [List.getD_eq_getElem?_getD, List.getElem?_replicate]
  split
  · exact byteHas_zero _
  · exact byteHas_zero _

/-- The mask while it is built: it has the bits of the numbers seen so far that it has room for, and the highest of them. -/
structure Marked (base : UInt16) (seen : List UInt16) (acc : List UInt8 × Option Nat) : Prop where
  length : acc.1.length = maxSackBytes
  bits : ∀ i, maskBit acc.1 i = true ↔ i < maxSackBytes * 8 ∧ ∃ seq ∈ seen, sackBitOf base seq = i
  highest : ∀ i, maskBit acc.1 i = true → ∃ high, acc.2 = some high ∧ i ≤ high

theorem Marked.start (base : UInt16) : Marked base [] (List.replicate maxSackBytes 0, none) where
  length := List.length_replicate ..
  bits i := by simp [maskBit_zeros]
  highest i hi := by simp [maskBit_zeros] at hi

theorem Marked.markSack {base : UInt16} {seen : List UInt16} {acc : List UInt8 × Option Nat} (h : Marked base seen acc) (seq : UInt16) :
    Marked base (seen ++ [seq]) (markSack base acc seq) := by
  unfold ConnState.markSack
  simp only
  split
  · rename_i hroom
    have hbit : (seq - base).toNat < acc.1.length * 8 := by rwa [h.length]
    have hset := maskBit_set hbit
    refine ⟨(List.length_set ..).trans h.length, fun i => ?_, fun i hi => ?_⟩
    · rw [hset, Bool.or_eq_true, h.bits, decide_eq_true_eq]
      constructor
      · rintro (⟨hi, n, hn, heq⟩ | rfl)
        · exact ⟨hi, n, List.mem_append_left _ hn, heq⟩
        · exact ⟨hroom, seq, by simp, rfl⟩
      · rintro ⟨hi, n, hn, heq⟩
        rcases List.mem_append.mp hn with hn | hn
        · exact .inl ⟨hi, n, hn, heq⟩
        · rw [List.mem_singleton.mp hn] at heq
          exact .inr heq.symm
    · rw [hset, Bool.or_eq_true, decide_eq_true_eq] at hi
      cases hacc : acc.2 with
      | none =>
        refine ⟨_, rfl, ?_⟩
        rcases hi with hi | rfl
        · obtain ⟨high, hsome, _⟩ := h.highest i hi
          rw [hacc] at hsome
          cases hsome
        · exact Nat.le_refl _
      | some highest =>
        refine ⟨_, rfl, ?_⟩
        rcases hi with hi | rfl
        · obtain ⟨high, hsome, hle⟩ := h.highest i hi
          rw [hacc] at hsome
          cases hsome
          exact hle.trans (Nat.le_max_left ..)
        · exact Nat.le_max_right ..
  · rename_i hroom
    refine ⟨h.length, fun i => ?_, h.highest⟩
    rw [h.bits]
    constructor
    · rintro ⟨hi, n, hn, heq⟩
      exact ⟨hi, n, List.mem_append_left _ hn, heq⟩
    · rintro ⟨hi, n, hn, heq⟩
      rcases List.mem_append.mp hn with hn | hn
      · exact ⟨hi, n, hn, heq⟩
      · rw [List.mem_singleton.mp hn] at heq
        rw [← heq] at hi
        exact absurd hi hroom

theorem Marked.foldl {base : UInt16} {seen : List UInt16} {acc : List UInt8 × Option Nat} (h : Marked base seen acc)
    (keys : List UInt16) : Marked base (seen ++ keys) (keys.foldl (ConnState.markSack base) acc) := by
  induction keys generalizing seen acc with
  | nil => simpa using h
  | cons seq keys ih => simpa using ih (h.markSack seq)

/-- The numbers that the selective ack of a header acknowledges by the rule of `process_selective_ack`. -/
def sackNames (h : UtpHeader) (seq : UInt16) : Bool := sackIsSet (h.selectiveAck.getD []) (sackBitOf (h.ackNr + 2) seq)

/-- The bits of the mask of a header. -/
def sackBits (h : UtpHeader) : Nat := (h.selectiveAck.getD []).length * 8

theorem maskBit_take {mask : List UInt8} {n i : Nat} (hi : i < n * 8) : maskBit (mask.take n) i = maskBit mask i := by
  unfold maskBit
  rw [List.getD_eq_getElem?_getD, List.getD_eq_getElem?_getD, List.getElem?_take, if_pos (by omega)]

/-- The mask has the bits of exactly the buffered numbers that it reaches. -/
theorem sackIsSet_buildSelectiveAck (s : ConnState F) (bit : Nat) :
    sackIsSet (s.buildSelectiveAck.getD []) bit = true ↔
      bit < (s.buildSelectiveAck.getD []).length * 8 ∧ ∃ seq ∈ s.reorder.keys, sackBitOf (s.ackNr + 2) seq = bit := by
  rw [sackIsSet_eq, Bool.and_eq_true, decide_eq_true_eq]
  have hmarked := (Marked.start (s.ackNr + 2)).foldl s.reorder.keys
  rw [List.nil_append] at hmarked
  unfold buildSelectiveAck
  split
  · simp
  · simp only
    generalize s.reorder.keys.foldl (markSack (s.ackNr + 2)) (List.replicate maxSackBytes 0, none) = acc at hmarked ⊢
    cases acc.2 with
    | none => simp
    | some highest =>
      simp only [Option.map_some, Option.getD_some, List.length_take, hmarked.length]
      constructor
      · rintro ⟨hlt, hset⟩
        rw [maskBit_take (by omega)] at hset
        exact ⟨hlt, ((hmarked.bits bit).mp hset).2⟩
      · rintro ⟨hlt, hkey⟩
        rw [maskBit_take (by omega)]
        exact ⟨hlt, (hmarked.bits bit).mpr ⟨by omega, hkey⟩⟩

end ConnState

end Risuko
