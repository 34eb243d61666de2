import Risuko.Lib.Bits

/-!
# Ids of 20 and 32 bytes

`Id20`, the type of peer ids and of the node ids of the DHT, and the distance between two of them.
-/

namespace Risuko

/-- A peer id, compared byte by byte. -/
structure Id20 where
  bytes : List UInt8
  length_eq : bytes.length = 20
  deriving DecidableEq

instance : LT Id20 := ⟨fun a b => a.bytes < b.bytes⟩

instance (a b : Id20) : Decidable (a < b) := inferInstanceAs (Decidable (a.bytes < b.bytes))

namespace Id20

theorem ext {a b : Id20} (h : a.bytes = b.bytes) : a = b := by
  cases a
  cases b
  cases h
  rfl

/-- `Id20([0; 20])`. -/
def zero : Id20 := ⟨List.replicate 20 0, by simp⟩

/-- `distance`: bytewise exclusive or. -/
def distance (a b : Id20) : Id20 := ⟨List.zipWith (· ^^^ ·) a.bytes b.bytes, by simp [a.length_eq, b.length_eq]⟩

/-- Bit `i`, the first one in the high end of the first byte. -/
def bit (d : Id20) (i : Nat) : Bool := bitAt d.bytes i

/-- The id with bit `i` set or cleared. -/
def setBit (d : Id20) (i : Nat) (on : Bool) : Id20 where
  bytes := d.bytes.modify (i / 8) fun b => if on then b ||| bitMask i else b &&& ~~~bitMask i
  length_eq := by simp [d.length_eq]

/-! ## Distances -/

theorem zipWith_xor_cancel : ∀ {xs ys : List UInt8}, xs.length = ys.length →
    List.zipWith (· ^^^ ·) xs (List.zipWith (· ^^^ ·) xs ys) = ys
  | [], [], _ => rfl
  | x :: xs, y :: ys, h => by
    have hxy : x ^^^ (x ^^^ y) = y := by rw [← UInt8.xor_assoc, UInt8.xor_self, UInt8.zero_xor]
    simp only [List.zipWith_cons_cons, hxy]
    rw [zipWith_xor_cancel (by simpa using h)]

@[simp] theorem distance_distance (a b : Id20) : a.distance (a.distance b) = b :=
  ext (zipWith_xor_cancel (by rw [a.length_eq, b.length_eq]))

theorem distance_comm (a b : Id20) : a.distance b = b.distance a := by
  apply ext
  simp only [distance]
  rw [List.zipWith_comm]
  simp only [UInt8.xor_comm]

theorem distance_left_cancel {a b c : Id20} (h : a.distance b = a.distance c) : b = c := by
  rw [← distance_distance a b, h, distance_distance]

/-- Ids at one distance from a target are equal. -/
theorem distance_right_cancel {a b c : Id20} (h : a.distance c = b.distance c) : a = b := by
  rw [distance_comm a, distance_comm b] at h
  exact distance_left_cancel h

theorem distance_self (a : Id20) : a.distance a = zero := by
  apply ext
  simp [distance, zero, List.map_const', a.length_eq]

theorem distance_eq_zero_iff {a b : Id20} : a.distance b = zero ↔ a = b := by
  constructor
  · intro h
    rw [← distance_self a] at h
    exact (distance_left_cancel h).symm
  · rintro rfl
    exact distance_self a

/-! ## Bits -/

theorem bit_setBit {d : Id20} {i : Nat} (hi : i < 160) (on : Bool) (j : Nat) :
    (d.setBit i on).bit j = if j = i then on else d.bit j := by
  have hb : i / 8 < d.bytes.length := by
    rw [d.length_eq]
    omega
  have hset : ∀ f : UInt8 → UInt8, d.bytes.modify (i / 8) f = d.bytes.set (i / 8) (f d.bytes[i / 8]) := by
    intro f
    rw [List.modify_eq_set_getElem? ]
    simp [hb]
  simp only [bit, setBit]
  rw [hset, bitAt_set hb]
  by_cases hj : j / 8 = i / 8
  · have hd : bitAt d.bytes j = byteHas d.bytes[i / 8] j := bitAt_of_getElem? (by rw [hj]; simp [hb])
    have hmod : i % 8 = j % 8 ↔ j = i := by omega
    rw [if_pos hj, hd]
    cases on with
    | true => by_cases he : j = i <;> simp [byteHas_or_mask, hmod, he]
    | false => by_cases he : j = i <;> simp [byteHas_and_not_mask, hmod, he]
  · rw [if_neg hj, if_neg (by rintro rfl; exact hj rfl)]

end Id20

/-!
## 32-byte ids

`Id32`, the type of SHA-256 digests: roots of Merkle trees, their nodes and leaves.
-/

/-- `[u8; 32]`. -/
@[ext]
structure Id32 where
  bytes : List UInt8
  length_eq : bytes.length = 32
  deriving DecidableEq

namespace Id32

/-- An array filled from the front of a slice. -/
def ofSlice (s : List UInt8) : Id32 where
  bytes := (s ++ List.replicate 32 0).take 32
  length_eq := by simp

theorem ofSlice_append (x : Id32) (rest : List UInt8) : ofSlice (x.bytes ++ rest) = x := by
  ext1
  simp only [ofSlice, List.append_assoc]
  rw [List.take_append_of_le_length (by rw [x.length_eq]), List.take_of_length_le (by rw [x.length_eq])]

theorem bytes_ofSlice {s : List UInt8} (h : 32 ≤ s.length) : (ofSlice s).bytes = s.take 32 :=
  List.take_append_of_le_length h

end Id32

end Risuko
