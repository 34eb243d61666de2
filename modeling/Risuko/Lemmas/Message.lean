import Risuko.Wire.Message
import Risuko.Lemmas.UtpPacket

/-!
# Encoded messages and decoded frames

What the encoder puts on the wire the decoder reads back (`tryDecode_encode`), what it decodes is the encoding of what it returns
(`encode_of_tryDecode`), and it does not look behind a frame (`tryDecode_framed`).
-/

namespace Risuko

variable {b buf body : List UInt8} {id : UInt8} {m : Message}

/-! ## Numbers -/

theorem toNat_ofBeBytes16 (a b : UInt8) : (ofBeBytes16 a b).toNat = a.toNat * 2 ^ 8 + b.toNat := by
  have ha := a.toNat_lt
  have hb := b.toNat_lt
  unfold ofBeBytes16
  simp only [UInt16.toNat_or, UInt16.toNat_shiftLeft, UInt8.toNat_toUInt16]
  have h8 : (8 : UInt16).toNat % 16 = 8 := rfl
  have hs : a.toNat <<< 8 % 2 ^ 16 = a.toNat <<< 8 := by
    rw [Nat.shiftLeft_eq]
    omega
  rw [h8, hs, ← Nat.shiftLeft_add_eq_or_of_lt hb, Nat.shiftLeft_eq]

theorem toNat_ofBeBytes32 (a b c d : UInt8) :
    (ofBeBytes32 a b c d).toNat = a.toNat * 2 ^ 24 + b.toNat * 2 ^ 16 + c.toNat * 2 ^ 8 + d.toNat := by
  have ha := a.toNat_lt
  have hb := b.toNat_lt
  have hc := c.toNat_lt
  have hd := d.toNat_lt
  unfold ofBeBytes32
  simp only [UInt32.toNat_or, UInt32.toNat_shiftLeft, UInt8.toNat_toUInt32]
  have h8 : (8 : UInt32).toNat % 32 = 8 := rfl
  have h16 : (16 : UInt32).toNat % 32 = 16 := rfl
  have h24 : (24 : UInt32).toNat % 32 = 24 := rfl
  have hsa : a.toNat <<< 24 % 2 ^ 32 = a.toNat <<< 24 := by
    rw [Nat.shiftLeft_eq]
    omega
  have hsb : b.toNat <<< 16 % 2 ^ 32 = b.toNat <<< 16 := by
    rw [Nat.shiftLeft_eq]
    omega
  have hsc : c.toNat <<< 8 % 2 ^ 32 = c.toNat <<< 8 := by
    rw [Nat.shiftLeft_eq]
    omega
  have hbound : b.toNat <<< 16 < 2 ^ 24 := by
    rw [Nat.shiftLeft_eq]
    omega
  -- Each byte lies under the ones before it.
  have hab : a.toNat <<< 24 ||| b.toNat <<< 16 = (a.toNat * 2 ^ 8 + b.toNat) <<< 16 := by
    rw [← Nat.shiftLeft_add_eq_or_of_lt hbound, Nat.shiftLeft_eq, Nat.shiftLeft_eq, Nat.shiftLeft_eq]
    ring
  have hboundc : c.toNat <<< 8 < 2 ^ 16 := by
    rw [Nat.shiftLeft_eq]
    omega
  have habc : (a.toNat * 2 ^ 8 + b.toNat) <<< 16 ||| c.toNat <<< 8 = ((a.toNat * 2 ^ 8 + b.toNat) * 2 ^ 8 + c.toNat) <<< 8 := by
    rw [← Nat.shiftLeft_add_eq_or_of_lt hboundc, Nat.shiftLeft_eq, Nat.shiftLeft_eq, Nat.shiftLeft_eq]
    ring
  rw [h8, h16, h24, hsa, hsb, hsc, hab, habc, ← Nat.shiftLeft_add_eq_or_of_lt hd, Nat.shiftLeft_eq]
  ring

theorem beBytes16_ofBeBytes16 (a b : UInt8) : beBytes16 (ofBeBytes16 a b) = [a, b] := by
  have ha := a.toNat_lt
  have hb := b.toNat_lt
  have hx := toNat_ofBeBytes16 a b
  unfold beBytes16
  have h8 : (8 : UInt16).toNat % 16 = 8 := rfl
  congr 1
  · apply UInt8.toNat_inj.mp
    simp only [UInt16.toNat_toUInt8, UInt16.toNat_shiftRight, h8, Nat.shiftRight_eq_div_pow, hx]
    omega
  · congr 1
    apply UInt8.toNat_inj.mp
    simp only [UInt16.toNat_toUInt8, hx]
    omega

theorem beBytes32_ofBeBytes32 (a b c d : UInt8) : beBytes32 (ofBeBytes32 a b c d) = [a, b, c, d] := by
  have ha := a.toNat_lt
  have hb := b.toNat_lt
  have hc := c.toNat_lt
  have hd := d.toNat_lt
  have hx := toNat_ofBeBytes32 a b c d
  have h8 : (8 : UInt32).toNat % 32 = 8 := rfl
  have h16 : (16 : UInt32).toNat % 32 = 16 := rfl
  have h24 : (24 : UInt32).toNat % 32 = 24 := rfl
  have hbyte : ∀ (y : UInt32) (e : UInt8), y.toNat % 2 ^ 8 = e.toNat → y.toUInt8 = e := by
    intro y e h
    apply UInt8.toNat_inj.mp
    rw [UInt32.toNat_toUInt8]
    exact h
  unfold beBytes32
  rw [hbyte _ a, hbyte _ b, hbyte _ c, hbyte _ d]
  · rw [hx]
    omega
  · simp only [UInt32.toNat_shiftRight, h8, Nat.shiftRight_eq_div_pow, hx]
    omega
  · simp only [UInt32.toNat_shiftRight, h16, Nat.shiftRight_eq_div_pow, hx]
    omega
  · simp only [UInt32.toNat_shiftRight, h24, Nat.shiftRight_eq_div_pow, hx]
    omega

@[simp] theorem length_beBytes32 (x : UInt32) : (beBytes32 x).length = 4 := rfl

@[simp] theorem getU32_beBytes32 (x : UInt32) (rest : List UInt8) : getU32 (beBytes32 x ++ rest) = (x, rest) := by
  simp only [getU32, beBytes32, List.cons_append, List.nil_append, List.getD_cons_zero, List.getD_cons_succ, List.drop_succ_cons,
    List.drop_zero, ofBeBytes32_beBytes32]

/-- A number alone. -/
@[simp] theorem getU32_beBytes32_self (x : UInt32) : getU32 (beBytes32 x) = (x, []) := by
  simpa using getU32_beBytes32 x []

@[simp] theorem getU16_beBytes16 (x : UInt16) : getU16 (beBytes16 x) = x := ofBeBytes16_beBytes16 x

theorem beBytes32_getU32 (h : 4 ≤ b.length) : beBytes32 (getU32 b).1 ++ (getU32 b).2 = b := by
  match b, h with
  | b0 :: b1 :: b2 :: b3 :: rest, _ =>
    simp only [getU32, List.getD_cons_zero, List.getD_cons_succ, List.drop_succ_cons, List.drop_zero, beBytes32_ofBeBytes32]
    rfl

theorem beBytes16_getU16 (h : buf.length = 2) : beBytes16 (getU16 buf) = buf := by
  match buf, h with
  | [a, b], _ => exact beBytes16_ofBeBytes16 a b

theorem length_getU32 (h : 4 ≤ b.length) : (getU32 b).2.length + 4 = b.length := by
  have := congrArg List.length (beBytes32_getU32 h)
  rw [List.length_append, length_beBytes32] at this
  omega

/-! ## Groups of fields -/

theorem getTriple_putTriple (index begin length : UInt32) (mk : UInt32 → UInt32 → UInt32 → Message) :
    getTriple (putTriple index begin length) mk = mk index begin length := by
  simp only [getTriple, putTriple, getU32_beBytes32, getU32_beBytes32_self]

theorem putTriple_getTriple (h : body.length = 12) :
    ∃ index begin length, putTriple index begin length = body ∧ ∀ mk, getTriple body mk = mk index begin length := by
  have h1 := length_getU32 (b := body) (by omega)
  have h2 := length_getU32 (b := (getU32 body).2) (by omega)
  have hlast : (getU32 (getU32 (getU32 body).2).2).2 = [] := by
    have h3 := length_getU32 (b := (getU32 (getU32 body).2).2) (by omega)
    exact List.eq_nil_of_length_eq_zero (by omega)
  refine ⟨(getU32 body).1, (getU32 (getU32 body).2).1, (getU32 (getU32 (getU32 body).2).2).1, ?_, fun mk => rfl⟩
  have hb3 := beBytes32_getU32 (b := (getU32 (getU32 body).2).2) (by omega)
  rw [hlast, List.append_nil] at hb3
  unfold putTriple
  rw [hb3, beBytes32_getU32 (by omega), beBytes32_getU32 (by omega)]

theorem getHashFields_putHashFields {α : Type} (piecesRoot : Id32) (baseLayer index length proofLayers : UInt32) (rest : List UInt8)
    (mk : Id32 → UInt32 → UInt32 → UInt32 → UInt32 → List UInt8 → α) :
    getHashFields (putHashFields piecesRoot baseLayer index length proofLayers ++ rest) mk =
      mk piecesRoot baseLayer index length proofLayers rest := by
  have hdrop : (putHashFields piecesRoot baseLayer index length proofLayers ++ rest).drop 32 =
      beBytes32 baseLayer ++ (beBytes32 index ++ (beBytes32 length ++ (beBytes32 proofLayers ++ rest))) := by
    unfold putHashFields
    rw [List.append_assoc, List.drop_left' piecesRoot.length_eq]
    simp only [List.append_assoc]
  unfold getHashFields
  rw [hdrop]
  simp only [getU32_beBytes32]
  unfold putHashFields
  rw [List.append_assoc, Id32.ofSlice_append]

theorem putHashFields_getHashFields (h : 48 ≤ b.length) :
    ∃ piecesRoot baseLayer index length proofLayers rest,
      b = putHashFields piecesRoot baseLayer index length proofLayers ++ rest ∧ rest.length + 48 = b.length := by
  have h0 : 4 ≤ (b.drop 32).length := by
    rw [List.length_drop]
    omega
  have hlen : (b.drop 32).length + 32 = b.length := by
    rw [List.length_drop]
    omega
  have h1 := length_getU32 h0
  have h2 := length_getU32 (b := (getU32 (b.drop 32)).2) (by omega)
  have h3 := length_getU32 (b := (getU32 (getU32 (b.drop 32)).2).2) (by omega)
  have h4 := length_getU32 (b := (getU32 (getU32 (getU32 (b.drop 32)).2).2).2) (by omega)
  refine ⟨Id32.ofSlice b, (getU32 (b.drop 32)).1, (getU32 (getU32 (b.drop 32)).2).1,
    (getU32 (getU32 (getU32 (b.drop 32)).2).2).1, (getU32 (getU32 (getU32 (getU32 (b.drop 32)).2).2).2).1,
    (getU32 (getU32 (getU32 (getU32 (b.drop 32)).2).2).2).2, ?_, by omega⟩
  unfold putHashFields
  simp only [List.append_assoc]
  rw [beBytes32_getU32 (by omega), beBytes32_getU32 (by omega), beBytes32_getU32 (by omega), beBytes32_getU32 h0,
    Id32.bytes_ofSlice (by omega), List.take_append_drop]

theorem length_putHashFields (piecesRoot : Id32) (baseLayer index length proofLayers : UInt32) :
    (putHashFields piecesRoot baseLayer index length proofLayers).length = 48 := by
  simp [putHashFields, piecesRoot.length_eq]

/-! ## Limits -/

namespace Message

/-- The sizes the protocol allows: those of the variable parts, and for hashes the number that the message announces. -/
def WithinLimits : Message → Prop
  | bitfield b => 1 + b.length ≤ maxMessageBytes
  | piece _ _ data => data.length ≤ maxPieceDataBytes
  | extended _ payload => 2 + payload.length ≤ maxExtendedBytes
  | hashes _ _ _ length proofLayers bytes => bytes.length = expectedHashBytes length proofLayers ∧ 49 + bytes.length ≤ maxMessageBytes
  | unknown _ payload => 1 + payload.length ≤ maxMessageBytes
  | _ => True

/-- A message that is sent as unknown is of no known kind. -/
def Proper : Message → Prop
  | unknown id _ => id ∉ MessageId.known
  | _ => True

end Message

theorem exactBodyLen_unknown (h : id ∉ MessageId.known) : exactBodyLen id = none ∧ maxBodyLen id = maxMessageBytes := by
  simp only [MessageId.known, List.mem_cons, List.not_mem_nil, or_false, not_or] at h
  unfold exactBodyLen maxBodyLen
  simp [h]

theorem bodyLenAllowed_ok {bodyLen : Nat} (h : bodyLenAllowed id bodyLen = .ok ()) :
    (∀ expected, exactBodyLen id = some expected → bodyLen = 1 + expected) ∧
      (exactBodyLen id = none → bodyLen ≤ maxBodyLen id) := by
  unfold bodyLenAllowed at h
  split at h
  · rename_i expected he
    split at h
    · cases h
    · rename_i hlen
      rw [Decidable.not_not] at hlen
      refine ⟨fun expected' he' => ?_, fun hn => ?_⟩
      · rw [he] at he'
        cases he'
        exact hlen
      · rw [he] at hn
        cases hn
  · rename_i hn
    split at h
    · cases h
    · rename_i hlen
      refine ⟨fun expected' he' => ?_, fun _ => not_lt.mp hlen⟩
      rw [hn] at he'
      cases he'

/-! ## Bodies -/

/-- A body within the limits passes both checks of its length, and is read back as its message. -/
theorem decodeBody_encodeBody (hl : m.WithinLimits) (hp : m.Proper)
    (h : m.encodeBody = id :: body) :
    bodyLenAllowed id (body.length + 1) = .ok () ∧ body.length + 1 ≤ maxMessageBytes ∧ decodeBody id body = .ok m := by
  cases m with
  | keepAlive => cases h
  | choke | unchoke | interested | notInterested | haveAll | haveNone =>
    cases h
    exact ⟨by decide, by decide, by rfl⟩
  | have' index | suggestPiece index | allowedFast index =>
    cases h
    refine ⟨by rfl, Nat.le_of_ble_eq_true rfl, congrArg Except.ok ?_⟩
    exact congrArg _ (congrArg Prod.fst (getU32_beBytes32_self index))
  | bitfield b =>
    cases h
    have hlen : body.length + 1 ≤ maxMessageBytes := by
      have : 1 + body.length ≤ maxMessageBytes := hl
      omega
    refine ⟨?_, hlen, by rfl⟩
    have hnone : exactBodyLen MessageId.bitfield = none := by decide
    unfold bodyLenAllowed
    rw [hnone]
    exact if_neg (not_lt.mpr hlen)
  | request index begin length | cancel index begin length | rejectRequest index begin length =>
    cases h
    exact ⟨by rfl, Nat.le_of_ble_eq_true rfl, congrArg Except.ok (getTriple_putTriple ..)⟩
  | piece index begin data =>
    cases h
    have hdata : data.length ≤ maxPieceDataBytes := hl
    have hlen : (beBytes32 index ++ (beBytes32 begin ++ data)).length + 1 = 1 + 8 + data.length := by
      simp only [List.length_append, length_beBytes32]
      omega
    have hmax : 1 + 8 + data.length ≤ 1 + 8 + maxPieceDataBytes := by omega
    rw [hlen]
    refine ⟨?_, le_trans hmax (by decide), ?_⟩
    · have hnone : exactBodyLen MessageId.piece = none := by decide
      unfold bodyLenAllowed
      rw [hnone]
      exact if_neg (not_lt.mpr hmax)
    · unfold decodeBody
      repeat rw [if_neg (by decide)]
      rw [if_pos rfl]
      unfold atLeast
      rw [if_neg (by simp only [List.length_append, length_beBytes32]; omega)]
      simp only [getU32_beBytes32]
  | port number =>
    cases h
    refine ⟨by rfl, Nat.le_of_ble_eq_true rfl, ?_⟩
    unfold decodeBody
    repeat rw [if_neg (by decide)]
    rw [if_pos rfl]
    rw [getU16_beBytes16]
    rfl
  | extended extId payload =>
    cases h
    have hpay : 2 + payload.length ≤ maxExtendedBytes := hl
    have hlen : (extId :: payload).length + 1 ≤ maxExtendedBytes := by
      rw [List.length_cons]
      omega
    refine ⟨?_, le_trans hlen (by decide), by rfl⟩
    have hnone : exactBodyLen MessageId.extended = none := by decide
    unfold bodyLenAllowed
    rw [hnone]
    exact if_neg (not_lt.mpr hlen)
  | hashRequest piecesRoot baseLayer index length proofLayers | hashReject piecesRoot baseLayer index length proofLayers =>
    cases h
    rw [length_putHashFields]
    refine ⟨by rfl, Nat.le_of_ble_eq_true rfl, ?_⟩
    unfold decodeBody
    repeat rw [if_neg (by decide)]
    rw [if_pos rfl]
    unfold exactly
    rw [if_neg (by rw [length_putHashFields]; decide),
      ← List.append_nil (putHashFields piecesRoot baseLayer index length proofLayers), getHashFields_putHashFields]
  | hashes piecesRoot baseLayer index length proofLayers bytes =>
    cases h
    obtain ⟨hexpected, hmax⟩ := hl
    have hlen : (putHashFields piecesRoot baseLayer index length proofLayers ++ bytes).length + 1 = 49 + bytes.length := by
      rw [List.length_append, length_putHashFields]
      omega
    rw [hlen]
    refine ⟨?_, hmax, ?_⟩
    · have hnone : exactBodyLen MessageId.hashes = none := by decide
      unfold bodyLenAllowed
      rw [hnone]
      exact if_neg (not_lt.mpr hmax)
    · unfold decodeBody
      repeat rw [if_neg (by decide)]
      rw [if_pos rfl]
      unfold atLeast
      rw [if_neg (by rw [List.length_append, length_putHashFields]; omega), getHashFields_putHashFields]
      unfold decodeHashes
      rw [if_neg (by rw [Decidable.not_not]; exact hexpected)]
  | unknown id' payload =>
    cases h
    have hlen : body.length + 1 ≤ maxMessageBytes := by
      have : 1 + body.length ≤ maxMessageBytes := hl
      omega
    obtain ⟨hnone, hmax⟩ := exactBodyLen_unknown hp
    refine ⟨?_, hlen, ?_⟩
    · unfold bodyLenAllowed
      rw [hnone]
      exact if_neg (by rw [hmax]; exact not_lt.mpr hlen)
    · have hid : id ∉ MessageId.known := hp
      simp only [MessageId.known, List.mem_cons, List.not_mem_nil, or_false, not_or] at hid
      unfold decodeBody
      simp [hid]

theorem exactly_ok {expected : Nat} {msg : Message} (h : exactly id expected body msg = .ok m) :
    body.length = expected ∧ msg = m := by
  unfold exactly at h
  split at h
  · cases h
  · rename_i hlen
    cases h
    exact ⟨Decidable.not_not.mp hlen, rfl⟩

theorem atLeast_ok {expected : Nat} {msg : Except MessageError Message}
    (h : atLeast id expected body msg = .ok m) : expected ≤ body.length ∧ msg = .ok m := by
  unfold atLeast at h
  split at h
  · cases h
  · rename_i hlen
    exact ⟨not_lt.mp hlen, h⟩

/-- An `if` that gives a message does so in one of its branches. -/
theorem branch_ok {p : Prop} [Decidable p] {x y : Except MessageError Message} (h : (if p then x else y) = .ok m) :
    p ∧ x = .ok m ∨ y = .ok m := by
  split at h
  · exact .inl ⟨‹p›, h⟩
  · exact .inr h

/-- A body of a length that is allowed is the encoding of what it is read as. -/
theorem encodeBody_of_decodeBody (hallowed : bodyLenAllowed id (body.length + 1) = .ok ())
    (h : decodeBody id body = .ok m) : m.encodeBody = id :: body := by
  have hexact := (bodyLenAllowed_ok hallowed).1
  have hempty : exactBodyLen id = some 0 → body = [] := fun he => List.eq_nil_of_length_eq_zero (by have := hexact 0 he; omega)
  have htriple : ∀ mk : UInt32 → UInt32 → UInt32 → Message, (∀ a b c, (mk a b c).encodeBody = id :: putTriple a b c) →
      exactly id 12 body (getTriple body mk) = .ok m → m.encodeBody = id :: body := by
    intro mk hmk hx
    obtain ⟨hlen, rfl⟩ := exactly_ok hx
    obtain ⟨index, begin, length, hput, hget⟩ := putTriple_getTriple hlen
    rw [hget, hmk, hput]
  have hword : ∀ mk : UInt32 → Message, (∀ a, (mk a).encodeBody = id :: beBytes32 a) →
      exactly id 4 body (mk (getU32 body).1) = .ok m → m.encodeBody = id :: body := by
    intro mk hmk hx
    obtain ⟨hlen, rfl⟩ := exactly_ok hx
    have hall := beBytes32_getU32 (b := body) (by omega)
    have hnil : (getU32 body).2 = [] := List.eq_nil_of_length_eq_zero (by have := length_getU32 (b := body) (by omega); omega)
    rw [hnil, List.append_nil] at hall
    rw [hmk, hall]
  have hhash : ∀ mk : Id32 → UInt32 → UInt32 → UInt32 → UInt32 → Message,
      (∀ r a b c d, (mk r a b c d).encodeBody = id :: putHashFields r a b c d) →
      exactly id 48 body (getHashFields body (fun r a b c d _ => mk r a b c d)) = .ok m → m.encodeBody = id :: body := by
    intro mk hmk hx
    obtain ⟨hlen, rfl⟩ := exactly_ok hx
    obtain ⟨r, a, b, c, d, rest, hput, hrest⟩ := putHashFields_getHashFields (b := body) (by omega)
    have hnil : rest = [] := List.eq_nil_of_length_eq_zero (by omega)
    subst hnil
    rw [hput, getHashFields_putHashFields, hmk, List.append_nil]
  unfold decodeBody at h
  -- In the order of the branches; the first four have no body.
  obtain ⟨rfl, h⟩ | h := branch_ok h
  · cases h
    rw [hempty (by decide)]
    rfl
  obtain ⟨rfl, h⟩ | h := branch_ok h
  · cases h
    rw [hempty (by decide)]
    rfl
  obtain ⟨rfl, h⟩ | h := branch_ok h
  · cases h
    rw [hempty (by decide)]
    rfl
  obtain ⟨rfl, h⟩ | h := branch_ok h
  · cases h
    rw [hempty (by decide)]
    rfl
  obtain ⟨rfl, h⟩ | h := branch_ok h
  · exact hword Message.have' (fun _ => rfl) h
  obtain ⟨rfl, h⟩ | h := branch_ok h
  · cases h
    rfl
  obtain ⟨rfl, h⟩ | h := branch_ok h
  · exact htriple Message.request (fun _ _ _ => rfl) h
  obtain ⟨rfl, h⟩ | h := branch_ok h
  · obtain ⟨hlen, hm⟩ := atLeast_ok h
    cases hm
    have hrest := length_getU32 (b := body) (by omega)
    show MessageId.piece :: _ = _
    rw [beBytes32_getU32 (by omega), beBytes32_getU32 (by omega)]
  obtain ⟨rfl, h⟩ | h := branch_ok h
  · exact htriple Message.cancel (fun _ _ _ => rfl) h
  obtain ⟨rfl, h⟩ | h := branch_ok h
  · obtain ⟨hlen, rfl⟩ := exactly_ok h
    show MessageId.port :: _ = _
    rw [beBytes16_getU16 hlen]
  obtain ⟨rfl, h⟩ | h := branch_ok h
  · obtain ⟨hlen, rfl⟩ := exactly_ok h
    rw [List.eq_nil_of_length_eq_zero hlen]
    rfl
  obtain ⟨rfl, h⟩ | h := branch_ok h
  · obtain ⟨hlen, rfl⟩ := exactly_ok h
    rw [List.eq_nil_of_length_eq_zero hlen]
    rfl
  obtain ⟨rfl, h⟩ | h := branch_ok h
  · exact htriple Message.rejectRequest (fun _ _ _ => rfl) h
  obtain ⟨rfl, h⟩ | h := branch_ok h
  · exact hword Message.suggestPiece (fun _ => rfl) h
  obtain ⟨rfl, h⟩ | h := branch_ok h
  · exact hword Message.allowedFast (fun _ => rfl) h
  obtain ⟨rfl, h⟩ | h := branch_ok h
  · obtain ⟨hlen, hm⟩ := atLeast_ok h
    cases hm
    match body, hlen with
    | extId :: payload, _ => rfl
  obtain ⟨rfl, h⟩ | h := branch_ok h
  · exact hhash Message.hashRequest (fun _ _ _ _ _ => rfl) h
  obtain ⟨rfl, h⟩ | h := branch_ok h
  · exact hhash Message.hashReject (fun _ _ _ _ _ => rfl) h
  obtain ⟨rfl, h⟩ | h := branch_ok h
  · obtain ⟨hlen, hm⟩ := atLeast_ok h
    obtain ⟨r, a, b, c, d, rest, hput, -⟩ := putHashFields_getHashFields hlen
    subst hput
    rw [getHashFields_putHashFields] at hm
    unfold decodeHashes at hm
    split at hm
    · cases hm
    · cases hm
      rfl
  cases h
  rfl

/-! ## Frames -/

/-- A body the decoder takes, and the message it is read as. -/
def BodyOf (m : Message) (body : List UInt8) : Prop :=
  body.length ≤ maxMessageBytes ∧
    ((body = [] ∧ m = .keepAlive) ∨
      ∃ id rest, body = id :: rest ∧ bodyLenAllowed id (rest.length + 1) = .ok () ∧ decodeBody id rest = .ok m)

/-- The frame of a body. -/
def frameOf (body : List UInt8) : List UInt8 := beBytes32 (UInt32.ofNat body.length) ++ body

theorem length_frameOf (body : List UInt8) : (frameOf body).length = 4 + body.length := by
  rw [frameOf, List.length_append, length_beBytes32]

theorem toNat_bodyLen (h : body.length ≤ maxMessageBytes) : (UInt32.ofNat body.length).toNat = body.length := by
  have hmax : maxMessageBytes < 2 ^ 32 := by decide
  rw [UInt32.toNat_ofNat']
  exact Nat.mod_eq_of_lt (by omega)

/-- What the decoder sees of a buffer that begins with a frame, whole or not. -/
theorem getU32_frameOf (body tail : List UInt8) : getU32 (frameOf body ++ tail) = (UInt32.ofNat body.length, body ++ tail) := by
  rw [frameOf, List.append_assoc, getU32_beBytes32]

theorem encode_of_bodyOf (h : BodyOf m body) : m.encode = frameOf body := by
  obtain ⟨-, ⟨rfl, rfl⟩ | ⟨id, rest, rfl, hallowed, hdec⟩⟩ := h
  · rfl
  · unfold Message.encode frameOf
    rw [encodeBody_of_decodeBody hallowed hdec]

theorem bodyOf_encodeBody (hl : m.WithinLimits) (hp : m.Proper) : BodyOf m m.encodeBody := by
  cases hb : m.encodeBody with
  | nil =>
    refine ⟨Nat.zero_le _, Or.inl ⟨rfl, ?_⟩⟩
    cases m <;> first | rfl | cases hb
  | cons id rest =>
    obtain ⟨hallowed, hmax, hdec⟩ := decodeBody_encodeBody hl hp hb
    exact ⟨hmax, Or.inr ⟨id, rest, rfl, hallowed, hdec⟩⟩

/-- The decoder returns a message exactly when the buffer begins with the frame of a body it takes. -/
theorem tryDecode_some_iff {rest : List UInt8} :
    tryDecode buf = .ok (some (m, rest)) ↔ ∃ body, buf = frameOf body ++ rest ∧ BodyOf m body := by
  constructor
  · intro h
    unfold tryDecode at h
    split at h
    · cases h
    rename_i h4
    have hbuf := beBytes32_getU32 (not_lt.mp h4)
    have hlen := length_getU32 (not_lt.mp h4)
    have hdrop : buf.drop 4 = (getU32 buf).2 := rfl
    simp only [hdrop] at h
    generalize hw : (getU32 buf).1 = w at h hbuf
    generalize (getU32 buf).2 = tail at h hbuf hlen
    split at h
    · cases h
    rename_i hmax
    split at h
    · cases h
    rename_i hcheck
    split at h
    · cases h
    · rename_i hfull
      have htake : (tail.take w.toNat).length = w.toNat := by
        rw [List.length_take]
        omega
      have hframe : buf = frameOf (tail.take w.toNat) ++ tail.drop w.toNat := by
        unfold frameOf
        rw [htake, UInt32.ofNat_toNat, List.append_assoc, List.take_append_drop, hbuf]
      cases hbody : tail.take w.toNat with
      | nil =>
        rw [hbody] at h hframe
        cases h
        exact ⟨[], hframe, Nat.zero_le _, Or.inl ⟨rfl, rfl⟩⟩
      | cons id body =>
        rw [hbody] at h hframe htake
        simp only at h
        split at h
        · cases h
        · rename_i msg hdec
          cases h
          have hget : buf.getD 4 0 = id := by
            rw [hframe]
            rfl
          have hpos : (decide (0 < w.toNat) && decide (4 < buf.length)) = true := by
            rw [List.length_cons] at htake
            simp only [Bool.and_eq_true, decide_eq_true_eq]
            omega
          rw [if_pos hpos, hget, ← htake, List.length_cons] at hcheck
          refine ⟨id :: body, hframe, ?_, Or.inr ⟨id, body, rfl, hcheck, hdec⟩⟩
          rw [htake]
          exact not_lt.mp hmax
  · rintro ⟨body, rfl, hmax, hbody⟩
    unfold tryDecode
    rw [if_neg (by rw [List.length_append, length_frameOf]; omega)]
    simp only [getU32_frameOf, toNat_bodyLen hmax]
    rw [if_neg (not_lt.mpr hmax)]
    have hdrop : (frameOf body ++ rest).drop 4 = body ++ rest := congrArg Prod.snd (getU32_frameOf body rest)
    have hlen : ¬ (frameOf body ++ rest).length < 4 + body.length := by
      rw [List.length_append, length_frameOf]
      omega
    rcases hbody with ⟨rfl, rfl⟩ | ⟨id, tail, rfl, hallowed, hdec⟩
    · simp only [List.length_nil, lt_irrefl, decide_false, Bool.false_and, Bool.false_eq_true, if_false] at hlen ⊢
      rw [if_neg hlen, hdrop]
      rfl
    · have hpos : (decide (0 < (id :: tail).length) && decide (4 < (frameOf (id :: tail) ++ rest).length)) = true := by
        rw [List.length_append, length_frameOf, List.length_cons]
        simp only [Bool.and_eq_true, decide_eq_true_eq]
        omega
      have hget : (frameOf (id :: tail) ++ rest).getD 4 0 = id := rfl
      rw [if_pos hpos, hget, List.length_cons, hallowed]
      rw [List.length_cons] at hlen
      simp only
      rw [if_neg hlen, hdrop, List.cons_append, List.take_succ_cons, List.take_left' rfl, List.drop_succ_cons, List.drop_left' rfl]
      simp only [hdec]

/-- An encoded message within the limits is read back, and nothing behind it is consumed. -/
theorem tryDecode_encode (hl : m.WithinLimits) (hp : m.Proper) (tail : List UInt8) :
    tryDecode (m.encode ++ tail) = .ok (some (m, tail)) :=
  tryDecode_some_iff.mpr ⟨m.encodeBody, rfl, bodyOf_encodeBody hl hp⟩

/-- What is read is the encoding of the message it is read as. -/
theorem encode_of_tryDecode {rest : List UInt8} (h : tryDecode buf = .ok (some (m, rest))) :
    buf = m.encode ++ rest := by
  obtain ⟨body, rfl, hbody⟩ := tryDecode_some_iff.mp h
  rw [encode_of_bodyOf hbody]

theorem getU32_append (h : 4 ≤ b.length) (x : List UInt8) :
    getU32 (b ++ x) = ((getU32 b).1, (getU32 b).2 ++ x) := by
  match b, h with
  | _ :: _ :: _ :: _ :: rest, _ => rfl

/-- The decoder does not look behind a frame, nor behind what it refuses. -/
theorem tryDecode_framed : Framed tryDecode where
  shrinks := by
    intro b m r h
    obtain ⟨body, rfl, -⟩ := tryDecode_some_iff.mp h
    rw [List.length_append, length_frameOf]
    omega
  frame_append := by
    intro b m r x h
    obtain ⟨body, rfl, hbody⟩ := tryDecode_some_iff.mp h
    exact tryDecode_some_iff.mpr ⟨body, List.append_assoc _ _ _, hbody⟩
  error_append := by
    intro b e x h
    unfold tryDecode at h ⊢
    split at h
    · cases h
    rename_i h4
    have hlen := length_getU32 (not_lt.mp h4)
    have hdrop : b.drop 4 = (getU32 b).2 := rfl
    have hdrop' : (b ++ x).drop 4 = (getU32 b).2 ++ x := congrArg Prod.snd (getU32_append (not_lt.mp h4) x)
    have hw : (getU32 (b ++ x)).1 = (getU32 b).1 := by rw [getU32_append (not_lt.mp h4) x]
    rw [if_neg (by rw [List.length_append]; omega)]
    simp only [hdrop, hdrop', hw] at h ⊢
    split at h
    · rename_i hmax
      rw [if_pos hmax]
      exact h
    · rename_i hmax
      rw [if_neg hmax]
      by_cases hcond : (decide (0 < (getU32 b).1.toNat) && decide (4 < b.length)) = true
      · -- The id is there, so more bytes do not change the check of the length.
        have hcond' : (decide (0 < (getU32 b).1.toNat) && decide (4 < (b ++ x).length)) = true := by
          simp only [Bool.and_eq_true, decide_eq_true_eq, List.length_append] at hcond ⊢
          omega
        have hid : (b ++ x).getD 4 0 = b.getD 4 0 := by
          simp only [Bool.and_eq_true, decide_eq_true_eq] at hcond
          rw [List.getD_eq_getElem?_getD, List.getD_eq_getElem?_getD,
            List.getElem?_append_left hcond.2]
        rw [if_pos hcond', hid]
        rw [if_pos hcond] at h
        split at h
        · exact h
        split at h
        · cases h
        · rename_i hfull
          rw [if_neg (by rw [List.length_append]; omega)]
          rw [List.take_append_of_le_length (by omega)]
          cases hbody : (getU32 b).2.take (getU32 b).1.toNat with
          | nil =>
            rw [hbody] at h
            cases h
          | cons id body =>
            rw [hbody] at h
            simp only at h ⊢
            split at h
            · exact h
            · cases h
      · -- Without an id there is nothing to refuse yet.
        rw [if_neg hcond] at h
        simp only [Bool.and_eq_true, decide_eq_true_eq, not_and] at hcond
        simp only at h
        split at h
        · cases h
        · rename_i hfull
          have hzero : (getU32 b).1.toNat = 0 := by
            by_contra hne
            have := hcond (Nat.pos_of_ne_zero hne)
            omega
          rw [hzero] at h
          cases h

/-- A part of a frame asks for more. -/
theorem tryDecode_part (hl : m.WithinLimits) (hp : m.Proper) {n : Nat} (hn : n < m.encode.length) :
    tryDecode (m.encode.take n) = .ok none := by
  obtain ⟨hmax, hbody⟩ := bodyOf_encodeBody hl hp
  have henc : m.encode = frameOf m.encodeBody := rfl
  rw [henc] at hn ⊢
  generalize m.encodeBody = body at hmax hbody hn ⊢
  have hlen : ((frameOf body).take n).length = n := by
    rw [List.length_take]
    omega
  rw [length_frameOf] at hn
  unfold tryDecode
  by_cases h4 : n < 4
  · rw [if_pos (by rw [hlen]; exact h4)]
  · rw [if_neg (by rw [hlen]; exact h4)]
    have hsplit : frameOf body = (frameOf body).take n ++ (frameOf body).drop n := (List.take_append_drop n _).symm
    have hw : (getU32 ((frameOf body).take n)).1.toNat = body.length := by
      have happ := getU32_append (b := (frameOf body).take n) (by omega) ((frameOf body).drop n)
      rw [← hsplit] at happ
      have hwhole := getU32_frameOf body []
      rw [List.append_nil] at hwhole
      rw [hwhole] at happ
      rw [← congrArg Prod.fst happ, toNat_bodyLen hmax]
    simp only [hw]
    rw [if_neg (not_lt.mpr hmax)]
    have hcheck : (if (decide (0 < body.length) && decide (4 < ((frameOf body).take n).length)) = true then
        bodyLenAllowed (((frameOf body).take n).getD 4 0) body.length else .ok ()) = .ok () := by
      split
      · rename_i hcond
        simp only [Bool.and_eq_true, decide_eq_true_eq, hlen] at hcond
        rcases hbody with ⟨rfl, -⟩ | ⟨id, rest, rfl, hallowed, -⟩
        · exact absurd hcond.1 (lt_irrefl 0)
        · have hid : ((frameOf (id :: rest)).take n).getD 4 0 = id := by
            rw [List.getD_eq_getElem?_getD, List.getElem?_take_of_lt hcond.2]
            rfl
          rw [hid]
          exact hallowed
      · rfl
    rw [hcheck]
    simp only
    rw [if_pos (by rw [hlen]; exact hn)]

end Risuko
