import Mathlib.Tactic

/-!
# Sixteen-bit sequence numbers

Sequence numbers are counters read modulo `2 ^ 16`. `seqAfter` compares two of them by the shorter way around the circle; the
lemmas say what the comparison and the difference of two residues tell about the counters they come from.
-/

namespace Risuko

instance wordOrder : LinearOrder UInt16 where
  le_refl _ := UInt16.le_refl _
  le_trans _ _ _ := UInt16.le_trans
  le_antisymm _ _ := UInt16.le_antisymm
  le_total := UInt16.le_total
  lt_iff_le_not_ge a b := by
    simp only [UInt16.le_iff_toNat_le, UInt16.lt_iff_toNat_lt]
    omega
  toDecidableLE := inferInstance

/-- Whether `a` lies after `b` on the circle of sequence numbers. -/
def seqAfter (a b : UInt16) : Bool :=
  let d := a - b
  d != 0 && d < 0x8000

theorem seqAfter_iff (a b : UInt16) : seqAfter a b = true ↔ 0 < (a - b).toNat ∧ (a - b).toNat < 2 ^ 15 := by
  unfold seqAfter
  simp only [Bool.and_eq_true, bne_iff_ne, ne_eq, decide_eq_true_eq, UInt16.lt_iff_toNat_lt]
  rw [← UInt16.toNat_inj]
  have : (0x8000 : UInt16).toNat = 2 ^ 15 := rfl
  have h0 : (0 : UInt16).toNat = 0 := rfl
  omega

/-- Whether `x` lies on the way around the circle from `a` to `b`, both included. -/
def SeqBetween (a b x : UInt16) : Prop := x - a ≤ b - a

instance (a b x : UInt16) : Decidable (SeqBetween a b x) := inferInstanceAs (Decidable (_ ≤ _))

/-- When `ack` is not after the number before `next`, a number `m` before `next` is not after `ack` only if `ack` is less than `m`
behind the number before `next`, or half a circle behind it. -/
theorem behind_of_not_seqAfter {next ack : UInt16} {m : Nat} (hpos : 0 < m) (hle : m ≤ 2 ^ 15) (hahead : seqAfter ack (next - 1) = false)
    (hpopped : seqAfter (next - UInt16.ofNat m) ack = false) :
    (next - 1 - ack).toNat < m ∨ (ack = next - 1 - 0x8000 ∧ m = 1) := by
  have hn := next.toNat_lt
  have ha := ack.toNat_lt
  have h1 : ¬ (0 < (ack - (next - 1)).toNat ∧ (ack - (next - 1)).toNat < 2 ^ 15) := by
    rw [← seqAfter_iff, hahead]
    simp
  have h2 : ¬ (0 < (next - UInt16.ofNat m - ack).toNat ∧ (next - UInt16.ofNat m - ack).toNat < 2 ^ 15) := by
    rw [← seqAfter_iff, hpopped]
    simp
  have hone : (1 : UInt16).toNat = 1 := rfl
  have hhalf : (0x8000 : UInt16).toNat = 2 ^ 15 := rfl
  rw [← UInt16.toNat_inj]
  simp only [UInt16.toNat_sub, UInt16.toNat_ofNat', hone, hhalf] at h1 h2 ⊢
  omega

/-- The numbers from `m` before `next` to the one before `next` are those less than `m` behind the latter. -/
theorem seqBetween_iff {next ack : UInt16} {m : Nat} (hpos : 0 < m) (hle : m ≤ 2 ^ 15 + 1) :
    SeqBetween (next - UInt16.ofNat m) (next - 1) ack ↔ (next - 1 - ack).toNat < m := by
  have hn := next.toNat_lt
  have ha := ack.toNat_lt
  have hone : (1 : UInt16).toNat = 1 := rfl
  unfold SeqBetween
  simp only [UInt16.le_iff_toNat_le, UInt16.toNat_sub, UInt16.toNat_ofNat', hone]
  omega

end Risuko
