import Risuko.Utp.ConnState

/-!
# Encoded packets

What is decoded from an encoded packet is the header and the payload it was encoded from, for every header that the connection
code builds: its selective ack is missing or has a length that is a multiple of four, up to 252 bytes.
-/

namespace Risuko

theorem ofBeBytes16_beBytes16 (x : UInt16) : ofBeBytes16 (x >>> 8).toUInt8 x.toUInt8 = x := by
  have hx := x.toNat_lt
  unfold ofBeBytes16
  apply UInt16.toNat_inj.mp
  simp only [UInt16.toNat_or, UInt16.toNat_shiftLeft, UInt8.toNat_toUInt16, UInt16.toNat_toUInt8, UInt16.toNat_shiftRight]
  have h8 : (8 : UInt16).toNat % 16 = 8 := rfl
  have hs : (x.toNat >>> 8 % 2 ^ 8) <<< 8 % 2 ^ 16 = (x.toNat / 2 ^ 8) <<< 8 := by
    simp only [Nat.shiftRight_eq_div_pow, Nat.shiftLeft_eq]
    omega
  rw [h8, hs, ← Nat.shiftLeft_add_eq_or_of_lt (Nat.mod_lt _ (by decide)), Nat.shiftLeft_eq]
  omega

/-- Putting a low byte under a number. -/
theorem div_shiftLeft_or (x i : Nat) : (x / 2 ^ (i + 8)) <<< (i + 8) ||| (x / 2 ^ i % 2 ^ 8) <<< i = (x / 2 ^ i) <<< i := by
  have hlow : (x / 2 ^ i % 2 ^ 8) <<< i < 2 ^ (i + 8) := by
    rw [Nat.shiftLeft_eq, Nat.pow_add, Nat.mul_comm (2 ^ i)]
    exact Nat.mul_lt_mul_of_pos_right (Nat.mod_lt _ (by decide)) (Nat.two_pow_pos i)
  rw [← Nat.shiftLeft_add_eq_or_of_lt hlow, Nat.shiftLeft_eq, Nat.shiftLeft_eq, Nat.shiftLeft_eq, Nat.pow_add,
    ← Nat.div_div_eq_div_mul, Nat.mul_comm (2 ^ i), ← Nat.mul_assoc, ← Nat.add_mul, Nat.div_add_mod']

theorem ofBeBytes32_beBytes32 (x : UInt32) :
    ofBeBytes32 (x >>> 24).toUInt8 (x >>> 16).toUInt8 (x >>> 8).toUInt8 x.toUInt8 = x := by
  have hx := x.toNat_lt
  unfold ofBeBytes32
  apply UInt32.toNat_inj.mp
  simp only [UInt32.toNat_or, UInt32.toNat_shiftLeft, UInt8.toNat_toUInt32, UInt32.toNat_toUInt8, UInt32.toNat_shiftRight]
  have h8 : (8 : UInt32).toNat % 32 = 8 := rfl
  have h16 : (16 : UInt32).toNat % 32 = 16 := rfl
  have h24 : (24 : UInt32).toNat % 32 = 24 := rfl
  simp only [h8, h16, h24, Nat.shiftRight_eq_div_pow]
  have hs : (x.toNat / 2 ^ 24 % 2 ^ 8) <<< 24 % 2 ^ 32 = (x.toNat / 2 ^ 24) <<< 24 := by
    simp only [Nat.shiftLeft_eq]
    omega
  have hs' : (x.toNat / 2 ^ 16 % 2 ^ 8) <<< 16 % 2 ^ 32 = (x.toNat / 2 ^ 16 % 2 ^ 8) <<< 16 := by
    simp only [Nat.shiftLeft_eq]
    omega
  have hs'' : (x.toNat / 2 ^ 8 % 2 ^ 8) <<< 8 % 2 ^ 32 = (x.toNat / 2 ^ 8 % 2 ^ 8) <<< 8 := by
    simp only [Nat.shiftLeft_eq]
    omega
  have hlast := div_shiftLeft_or x.toNat 0
  simp only [Nat.pow_zero, Nat.div_one, Nat.shiftLeft_zero] at hlast
  rw [hs, hs', hs'', div_shiftLeft_or x.toNat 16, div_shiftLeft_or x.toNat 8, hlast]

theorem fromNibble_toNibble (t : PacketType) : PacketType.fromNibble ((t.toNibble <<< 4 ||| utpVersion) >>> 4) = some t := by
  cases t <;> decide

theorem version_toNibble (t : PacketType) : (t.toNibble <<< 4 ||| utpVersion) &&& 0x0f = utpVersion := by
  cases t <;> decide

namespace UtpHeader

/-- The headers whose selective ack survives the encoding. -/
def Sendable (h : UtpHeader) : Prop := ∀ s, h.selectiveAck = some s → 4 ≤ s.length ∧ s.length % 4 = 0 ∧ s.length ≤ 252

theorem decodeExtensions_none (rest : List UInt8) (sack : Option (List UInt8)) :
    decodeExtensions 0 rest sack = .ok (sack, rest) := by
  unfold decodeExtensions
  rfl

/-- A single extension record, with a length that fits. -/
theorem decodeExtensions_single {len : UInt8} {data : List UInt8} (hlen : len.toNat ≤ data.length) :
    decodeExtensions extSelectiveAck (0 :: len :: data) none =
      .ok (if 4 ≤ len.toNat ∧ len.toNat % 4 = 0 then some (data.take len.toNat) else none, data.drop len.toNat) := by
  rw [decodeExtensions, if_neg (by decide)]
  simp only
  rw [if_neg (by omega), decodeExtensions_none]
  by_cases h4 : 4 ≤ len.toNat ∧ len.toNat % 4 = 0
  · simp [h4]
  · rw [if_neg h4]
    by_cases h : 4 ≤ len.toNat
    · have hmod : ¬ len.toNat % 4 = 0 := fun hm => h4 ⟨h, hm⟩
      simp [hmod]
    · simp [h]

theorem decodeExtensions_sack {s : List UInt8} (h4 : 4 ≤ s.length) (hmod : s.length % 4 = 0) (hle : s.length ≤ 252)
    (payload : List UInt8) :
    decodeExtensions extSelectiveAck (0 :: UInt8.ofNat s.length :: (s ++ payload)) none = .ok (some s, payload) := by
  have hlen : (UInt8.ofNat s.length).toNat = s.length := by
    rw [UInt8.toNat_ofNat']
    omega
  rw [decodeExtensions_single (by rw [hlen, List.length_append]; omega), hlen, if_pos ⟨h4, hmod⟩]
  simp

theorem decodeExtensions_extensionBytes {h : UtpHeader} (hs : h.Sendable) (payload : List UInt8) :
    decodeExtensions (if h.sentSack.isSome then extSelectiveAck else 0) (extensionBytes h.sentSack ++ payload) none =
      .ok (h.selectiveAck, payload) := by
  cases hsel : h.selectiveAck with
  | none =>
    have hnone : h.sentSack = none := by simp [sentSack, hsel]
    rw [hnone]
    exact decodeExtensions_none payload none
  | some s =>
    obtain ⟨h4, hmod, hle⟩ := hs s hsel
    have hsome : h.sentSack = some s := by
      have hne : s ≠ [] := by
        rintro rfl
        simp at h4
      simp [sentSack, hsel, hne]
    rw [hsome]
    exact decodeExtensions_sack h4 hmod hle payload

/-- What is decoded from an encoded packet: the header, with the selective ack that its extension records say. -/
theorem decode_encode_eq (h : UtpHeader) (payload : List UInt8) :
    decode (h.encode payload) =
      match decodeExtensions (if h.sentSack.isSome then extSelectiveAck else 0) (extensionBytes h.sentSack ++ payload) none with
      | .error e => .error e
      | .ok (selectiveAck, rest) => .ok ({ h with selectiveAck := selectiveAck }, rest) := by
  unfold encode beBytes16 beBytes32
  simp only [List.cons_append, List.nil_append]
  unfold decode
  cases hext : decodeExtensions (if h.sentSack.isSome then extSelectiveAck else 0) (extensionBytes h.sentSack ++ payload) none <;>
    simp only [version_toNibble, ne_eq, not_true_eq_false, if_false, fromNibble_toNibble, ofBeBytes16_beBytes16, ofBeBytes32_beBytes32, hext]

/-- The payload and the header come back from an encoded packet. -/
theorem decode_encode {h : UtpHeader} (hs : h.Sendable) (payload : List UInt8) : decode (h.encode payload) = .ok (h, payload) := by
  rw [decode_encode_eq, decodeExtensions_extensionBytes hs payload]

/-- Only a header that can be sent comes back: a selective ack of another length is left out, ignored or cut off. -/
theorem sendable_of_decode_encode {h : UtpHeader} {payload : List UInt8} (hd : decode (h.encode payload) = .ok (h, payload)) :
    h.Sendable := by
  intro s hs
  rw [decode_encode_eq] at hd
  cases hempty : s.isEmpty with
  | true =>
    have hnone : h.sentSack = none := by simp [sentSack, hs, List.isEmpty_iff.mp hempty]
    rw [hnone] at hd
    simp only [Option.isSome_none, Bool.false_eq_true, if_false, extensionBytes, List.nil_append, decodeExtensions_none,
      Except.ok.injEq, Prod.mk.injEq] at hd
    have hsel := congrArg UtpHeader.selectiveAck hd.1
    rw [hs] at hsel
    cases hsel
  | false =>
    have hsome : h.sentSack = some s := by simp [sentSack, hs, hempty]
    have hle : (UInt8.ofNat s.length).toNat ≤ (s ++ payload).length := by
      rw [UInt8.toNat_ofNat', List.length_append]
      exact (Nat.mod_le ..).trans (Nat.le_add_right ..)
    rw [hsome] at hd
    simp only [Option.isSome_some, if_true, extensionBytes, List.cons_append, decodeExtensions_single hle, Except.ok.injEq,
      Prod.mk.injEq] at hd
    have hsel := congrArg UtpHeader.selectiveAck hd.1
    rw [hs] at hsel
    split at hsel
    · rename_i h4
      have hlen := congrArg List.length (Option.some.inj hsel)
      rw [List.length_take, Nat.min_eq_left hle] at hlen
      have hlt := (UInt8.ofNat s.length).toNat_lt
      omega
    · cases hsel

end UtpHeader

end Risuko

/-!
## Selective acks that are built

The mask of a selective ack has a length that survives the encoding, so every packet that a connection sends decodes to its
header and payload; the length of an encoded packet follows.
-/

namespace Risuko

namespace ConnState

variable {F : Type}

theorem markSack_spec (base : UInt16) {acc : List UInt8 × Option Nat} (hlen : acc.1.length = maxSackBytes)
    (hhigh : ∀ n, acc.2 = some n → n < maxSackBytes * 8) (seq : UInt16) :
    (markSack base acc seq).1.length = maxSackBytes ∧ ∀ n, (markSack base acc seq).2 = some n → n < maxSackBytes * 8 := by
  unfold markSack
  simp only
  split
  · rename_i hbit
    refine ⟨by rw [List.length_set, hlen], fun n hn => ?_⟩
    cases hacc : acc.2 with
    | none =>
      rw [hacc] at hn
      cases hn
      exact hbit
    | some highest =>
      rw [hacc] at hn
      cases hn
      exact Nat.max_lt.mpr ⟨hhigh highest hacc, hbit⟩
  · exact ⟨hlen, hhigh⟩

theorem foldl_markSack_spec (base : UInt16) (keys : List UInt16) {acc : List UInt8 × Option Nat}
    (hlen : acc.1.length = maxSackBytes) (hhigh : ∀ n, acc.2 = some n → n < maxSackBytes * 8) :
    (keys.foldl (markSack base) acc).1.length = maxSackBytes ∧
      ∀ n, (keys.foldl (markSack base) acc).2 = some n → n < maxSackBytes * 8 := by
  induction keys generalizing acc with
  | nil => exact ⟨hlen, hhigh⟩
  | cons seq keys ih =>
    obtain ⟨hl, hh⟩ := markSack_spec base hlen hhigh seq
    exact ih hl hh

theorem length_buildSelectiveAck {s : ConnState F} {mask : List UInt8} (h : s.buildSelectiveAck = some mask) :
    4 ≤ mask.length ∧ mask.length % 4 = 0 ∧ mask.length ≤ maxSackBytes := by
  unfold buildSelectiveAck at h
  split at h
  · cases h
  · obtain ⟨hlen, hhigh⟩ := @foldl_markSack_spec (s.ackNr + 2) s.reorder.keys
      (List.replicate maxSackBytes 0, none) (List.length_replicate ..) (fun n hn => by cases hn)
    simp only [Option.map_eq_some_iff] at h
    obtain ⟨highest, hsome, rfl⟩ := h
    have hlt := hhigh highest hsome
    rw [List.length_take, hlen]
    unfold maxSackBytes at hlt ⊢
    omega

theorem sendable_header (s : ConnState F) (ty : PacketType) (id seq : UInt16) (now : Nat) :
    (s.header ty id seq now).Sendable := by
  intro mask hmask
  obtain ⟨h4, hmod, hle⟩ := length_buildSelectiveAck hmask
  refine ⟨h4, hmod, ?_⟩
  unfold maxSackBytes at hle
  omega

/-- The bytes a selective ack adds to a packet. -/
def sackBytes (s : ConnState F) : Nat :=
  match s.buildSelectiveAck with
  | none => 0
  | some mask => 2 + mask.length

theorem sackBytes_le (s : ConnState F) : s.sackBytes ≤ 2 + maxSackBytes := by
  unfold sackBytes
  split
  · omega
  · rename_i mask hmask
    have := (length_buildSelectiveAck hmask).2.2
    omega

theorem length_encode_header (s : ConnState F) (ty : PacketType) (id seq : UInt16) (payload : List UInt8) (now : Nat) :
    ((s.header ty id seq now).encode payload).length = headerLen + s.sackBytes + payload.length := by
  have hext : (UtpHeader.extensionBytes (s.header ty id seq now).sentSack).length = s.sackBytes := by
    unfold sackBytes UtpHeader.sentSack
    cases hmask : s.buildSelectiveAck with
    | none =>
      simp only [header, hmask, Option.filter_none]
      rfl
    | some mask =>
      have hne : (!mask.isEmpty) = true := by
        cases mask with
        | nil =>
          have := (length_buildSelectiveAck hmask).1
          simp at this
        | cons _ _ => rfl
      simp only [header, hmask, Option.filter_some, hne, if_true]
      show mask.length + 1 + 1 = 2 + mask.length
      omega
  unfold UtpHeader.encode beBytes16 beBytes32
  simp only [List.length_append, hext, List.length_cons, List.length_nil, headerLen]

theorem length_encode (s : ConnState F) (p : OutPacket) (now : Nat) :
    (s.encode p now).length = headerLen + s.sackBytes + p.payload.length := length_encode_header s _ _ _ _ now

end ConnState

end Risuko
