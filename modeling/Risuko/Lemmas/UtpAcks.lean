import Risuko.Lemmas.UtpMoves

/-!
# What an ack takes out of the queue

The loop of `process_ack` drops the front of the queue as long as it is not after the acked number. A selective ack drops the
packets whose bits are set, and resends those that have enough set bits after them: the cursor of `findLost` counts the same as
a count over the whole mask for every packet (`sackedAfter`), as long as the queue is in sequence order.
-/

namespace Risuko

namespace OutPacket

/-- The packet once it is resent by fast retransmission. -/
def fastResend (p : OutPacket) (now : Nat) : OutPacket :=
  { p.markFastResent with
    sentAt := now
    transmissions := p.transmissions + 1
    needResend := false }

end OutPacket

namespace ConnState

variable {F : Type}

/-! ## The cumulative ack -/

/-- The packets of the queue whose numbers end just before the next one. -/
def Consecutive (s : ConnState F) : Prop :=
  ∀ i p, s.unacked[i]? = some p → p.seqNr = s.seqNr - UInt16.ofNat (s.unacked.length - i)

instance (s : ConnState F) : Decidable s.Consecutive :=
  decidable_of_iff (∀ i, ∀ hi : i < s.unacked.length, s.unacked[i].seqNr = s.seqNr - UInt16.ofNat (s.unacked.length - i))
    ⟨fun h i p hp => by
      obtain ⟨hi, rfl⟩ := List.getElem?_eq_some_iff.mp hp
      exact h i hi, fun h i hi => h i _ (List.getElem?_eq_getElem hi)⟩

/-- The oldest unacked number, or the next one when there is none. -/
def oldest (s : ConnState F) : UInt16 :=
  match s.unacked with
  | [] => s.seqNr
  | p :: _ => p.seqNr

/-- The number before the oldest unacked one. -/
theorem Consecutive.oldest_sub_one {s : ConnState F} (hc : s.Consecutive) :
    s.oldest - 1 = s.seqNr - UInt16.ofNat (s.unacked.length + 1) := by
  have hone : UInt16.ofNat 1 = 1 := rfl
  unfold oldest
  cases hun : s.unacked with
  | nil => simp
  | cons p rest =>
    have hp := hc 0 p (by rw [hun]; rfl)
    rw [hun, Nat.sub_zero] at hp
    simp only
    rw [hp, UInt16.ofNat_add, hone]
    grind

/-- The early returns of `handle_packet`. -/
def returnsEarly (s : ConnState F) (h : UtpHeader) : Bool :=
  s.state = .closed || h.packetType = .reset || h.packetType = .syn || (s.state = .synSent && h.packetType ≠ .state) ||
    (s.pendingDeadline.isSome && h.ackNr ≠ s.seqNr - 1) || seqAfter h.ackNr (s.seqNr - 1)

/-- The state of `handle_packet` right after its cumulative ack. -/
def cumulativeAck [F64 F] (s : ConnState F) (h : UtpHeader) (now : Nat) : ConnState F :=
  if s.returnsEarly h then s else (((s.notePeer h now).connectOn h).processAck h now).1

/-- The packets that the cumulative ack of a packet takes out of the queue. -/
def removedByAck [F64 F] (s : ConnState F) (h : UtpHeader) (now : Nat) : List OutPacket :=
  s.unacked.filter (fun p => p.seqNr ∉ (s.cumulativeAck h now).unacked.map (fun q => q.seqNr))

theorem unacked_accountRemoved (s : ConnState F) (p : OutPacket) : (s.accountRemoved p).unacked = s.unacked := by
  unfold accountRemoved
  split
  · rfl
  · rfl

/-- The loop of `process_ack` leaves the queue from the first packet after the acked number on. -/
theorem unacked_popAcked [F64 F] (ackNr : UInt16) (now : Nat) {fuel : Nat} {s : ConnState F} (hfuel : s.unacked.length ≤ fuel)
    (bytes : Nat) (any : Bool) :
    (popAcked ackNr now fuel s bytes any).1.unacked = s.unacked.dropWhile (fun p => !seqAfter p.seqNr ackNr) := by
  induction fuel generalizing s bytes any with
  | zero =>
    have hnil : s.unacked = [] := List.length_eq_zero_iff.mp (Nat.le_zero.mp hfuel)
    rw [popAcked, hnil, List.dropWhile_nil]
  | succ fuel ih =>
    rw [popAcked]
    cases hun : s.unacked with
    | nil => simp [hun]
    | cons p rest =>
      by_cases hafter : seqAfter p.seqNr ackNr = true
      · simp [hafter, hun]
      · have hpop : (if p.transmissions = 1 then
            (({ s with unacked := rest } : ConnState F).accountRemoved p).sampleAcked p.seqNr (now - p.sentAt)
          else ({ s with unacked := rest } : ConnState F).accountRemoved p).unacked = rest := by
          split
          · exact (congrArg ConnCore.unacked (core_sampleAcked _ _ _)).trans (unacked_accountRemoved _ p)
          · exact unacked_accountRemoved _ p
        have hlen : rest.length ≤ fuel := by
          rw [hun, List.length_cons] at hfuel
          omega
        simp only [hafter, Bool.false_eq_true, if_false]
        rw [ih (by rw [hpop]; exact hlen), hpop, List.dropWhile_cons_of_pos (by simp [hafter])]

theorem contents_congr {s s' : ConnState F} (h : s'.speech = s.speech) : s'.contents = s.contents := congrArg Speech.contents h

theorem contents_retransmit (s : ConnState F) (idx now : Nat) : (s.retransmit idx now).contents = s.contents := by
  unfold retransmit
  split
  · rfl
  · rename_i p hp
    show (s.markResent idx p now).contents = s.contents
    exact contents_congr (speech_markResent hp now)

theorem contents_fastRetransmitFront (s : ConnState F) (ackNr : UInt16) (now : Nat) :
    (s.fastRetransmitFront ackNr now).contents = s.contents := by
  unfold fastRetransmitFront
  simp only
  split
  · rfl
  split
  · rw [contents_retransmit]
    have hjudge : ((s.setFastResent 0).onMtuProbeLost (ackNr + 1)).1.contents = s.contents :=
      contents_congr ((speech_onMtuProbeLost ..).trans (speech_setFastResent ..))
    split
    · exact hjudge
    · exact (contents_congr (speech_onLoss _)).trans hjudge
  · rfl

theorem contents_afterAck (s : ConnState F) (h : UtpHeader) (any : Bool) (now : Nat) : (s.afterAck h any now).contents = s.contents := by
  unfold afterAck
  split
  · exact contents_congr (speech_endRecovery { s with dupAcks := 0 } h.ackNr)
  split
  · simp only
    split
    · exact contents_fastRetransmitFront { s with dupAcks := s.dupAcks + 1 } h.ackNr now
    · rfl
  · rfl

theorem contents_processAck [F64 F] (s : ConnState F) (h : UtpHeader) (now : Nat) :
    (s.processAck h now).1.contents = (s.unacked.dropWhile (fun p => !seqAfter p.seqNr h.ackNr)).map OutPacket.content := by
  rw [← unacked_popAcked h.ackNr now (Nat.le_refl _) 0 false]
  exact contents_afterAck ..

theorem seqNrs_eq (s : ConnState F) : s.unacked.map (fun p => p.seqNr) = s.contents.map (fun c => c.2.1) := by
  rw [contents, List.map_map]
  rfl

theorem unacked_connectOn (s : ConnState F) (h : UtpHeader) (now : Nat) : ((s.notePeer h now).connectOn h).unacked = s.unacked := by
  unfold connectOn
  split
  · rfl
  · rfl

theorem seqNrs_cumulativeAck [F64 F] {s : ConnState F} {h : UtpHeader} (hearly : s.returnsEarly h = false) (now : Nat) :
    (s.cumulativeAck h now).unacked.map (fun p => p.seqNr) =
      (s.unacked.dropWhile (fun p => !seqAfter p.seqNr h.ackNr)).map (fun p => p.seqNr) := by
  rw [cumulativeAck, hearly, seqNrs_eq]
  simp only [Bool.false_eq_true, if_false]
  rw [contents_processAck, unacked_connectOn, List.map_map]
  rfl

/-! ## The selective ack -/

/-- The set bits of a mask after the position of a sequence number. A number half a circle or more past the base lies before the
mask. -/
def sackedAfter (base : UInt16) (mask : List UInt8) (seq : UInt16) : Nat :=
  if sackBitOf base seq ≥ 0x8000 then (List.range (mask.length * 8)).countP (fun i => sackIsSet mask i)
  else (List.range (mask.length * 8)).countP (fun i => decide (sackBitOf base seq < i) && sackIsSet mask i)

theorem sackIsSet_cons_add (b : UInt8) (mask : List UInt8) (i : Nat) : sackIsSet (b :: mask) (8 + i) = sackIsSet mask i := by
  unfold sackIsSet
  have hlt : (8 + i < (b :: mask).length * 8) ↔ i < mask.length * 8 := by
    rw [List.length_cons]
    omega
  have hdiv : (8 + i) / 8 = i / 8 + 1 := by omega
  have hmod : (8 + i) % 8 = i % 8 := by omega
  rw [hdiv, hmod, List.getD_cons_succ, decide_eq_decide.mpr hlt]

theorem sackIsSet_cons_of_lt (b : UInt8) (mask : List UInt8) {i : Nat} (hi : i < 8) :
    sackIsSet (b :: mask) i = ((b &&& 1 <<< UInt8.ofNat i) != 0) := by
  unfold sackIsSet
  have hlt : i < (b :: mask).length * 8 := by
    rw [List.length_cons]
    omega
  rw [Nat.div_eq_of_lt hi, Nat.mod_eq_of_lt hi, List.getD_cons_zero, decide_eq_true hlt, Bool.true_and]

/-- The bytes' counts of their bits add up to the set bits of the mask. -/
theorem sum_countOnes (mask : List UInt8) :
    (mask.map countOnes).sum = (List.range (mask.length * 8)).countP (fun i => sackIsSet mask i) := by
  induction mask with
  | nil => rfl
  | cons b mask ih =>
    have hlen : (b :: mask).length * 8 = 8 + mask.length * 8 := by
      rw [List.length_cons]
      omega
    have hlow : (List.range 8).countP (fun i => sackIsSet (b :: mask) i) = countOnes b :=
      List.countP_congr (fun i hi => by rw [sackIsSet_cons_of_lt b mask (List.mem_range.mp hi)])
    have hhigh : (fun i => sackIsSet (b :: mask) i) ∘ (fun i => 8 + i) = fun i => sackIsSet mask i :=
      funext (fun i => sackIsSet_cons_add b mask i)
    rw [List.map_cons, List.sum_cons, ih, hlen, List.range_add, List.countP_append, List.countP_map, hlow, hhigh]

theorem sackedAfter_le (base : UInt16) (mask : List UInt8) (seq : UInt16) : sackedAfter base mask seq ≤ (mask.map countOnes).sum := by
  rw [sum_countOnes]
  unfold sackedAfter
  split
  · exact Nat.le_refl _
  · exact List.countP_mono_left (fun i _ h => (Bool.and_eq_true_iff.mp h).2)

/-- The set bits below `n`. -/
def setBelow (mask : List UInt8) (n : Nat) : Nat := (List.range n).countP (fun i => sackIsSet mask i)

theorem setBelow_succ (mask : List UInt8) (n : Nat) : setBelow mask (n + 1) = setBelow mask n + (if sackIsSet mask n then 1 else 0) := by
  unfold setBelow
  rw [List.range_succ, List.countP_append, List.countP_cons, List.countP_nil, Nat.zero_add]

/-- The cursor comes to rest after the bit, with the set bits below it counted. -/
theorem countBelow_eq (mask : List UInt8) (bit : Nat) {fuel cursor : Nat} (hfuel : bit + 1 = cursor + fuel) :
    countBelow mask bit fuel cursor (setBelow mask cursor) = (bit + 1, setBelow mask (bit + 1)) := by
  induction fuel generalizing cursor with
  | zero =>
    rw [countBelow, hfuel]
    rfl
  | succ fuel ih =>
    rw [countBelow, if_pos (by omega), ← setBelow_succ]
    exact ih (by omega)

/-- What the scan computes for a covered packet: the set bits that the cursor has not passed. -/
theorem sackedAfter_of_covered {base : UInt16} {mask : List UInt8} {seq : UInt16} (hlow : sackBitOf base seq < 0x8000)
    (hcovered : sackBitOf base seq < mask.length * 8) :
    sackedAfter base mask seq = (mask.map countOnes).sum - setBelow mask (sackBitOf base seq + 1) := by
  rw [sum_countOnes, sackedAfter, if_neg (by omega)]
  generalize sackBitOf base seq = bit at hcovered ⊢
  have hsplit : mask.length * 8 = (bit + 1) + (mask.length * 8 - (bit + 1)) := by omega
  have hbefore : (List.range (bit + 1)).countP (fun i => decide (bit < i) && sackIsSet mask i) = 0 := by
    rw [List.countP_eq_zero]
    intro i hi
    have := List.mem_range.mp hi
    simp
    omega
  have hafter : ((List.range (mask.length * 8 - (bit + 1))).map (fun i => bit + 1 + i)).countP
        (fun i => decide (bit < i) && sackIsSet mask i) =
      ((List.range (mask.length * 8 - (bit + 1))).map (fun i => bit + 1 + i)).countP (fun i => sackIsSet mask i) := by
    apply List.countP_congr
    intro i hi
    obtain ⟨k, _, rfl⟩ := List.mem_map.mp hi
    have : bit < bit + 1 + k := by omega
    simp [this]
  rw [hsplit, List.range_add, List.countP_append, List.countP_append, hbefore, hafter]
  unfold setBelow
  omega

theorem sackedAfter_of_past {base : UInt16} {mask : List UInt8} {seq : UInt16} (hlow : sackBitOf base seq < 0x8000)
    (hpast : mask.length * 8 ≤ sackBitOf base seq) : sackedAfter base mask seq = 0 := by
  rw [sackedAfter, if_neg (by omega), List.countP_eq_zero]
  intro i hi
  have := List.mem_range.mp hi
  simp
  omega

/-- Of two packets in sequence order that are not before the mask, the later has the higher bit. -/
theorem sackBitOf_lt {base a b : UInt16} (hab : seqAfter b a = true) (ha : sackBitOf base a < 0x8000) :
    sackBitOf base a < sackBitOf base b := by
  obtain ⟨h1, h2⟩ := (seqAfter_iff b a).mp hab
  have hb := b.toNat_lt
  have ha' := a.toNat_lt
  have hbase := base.toNat_lt
  unfold sackBitOf at ha ⊢
  simp only [UInt16.toNat_sub] at h1 h2 ha ⊢
  omega

/-- The packets that a scan finds lost. -/
def isLost (s : ConnState F) (base : UInt16) (mask : List UInt8) (now : Nat) (p : OutPacket) : Bool :=
  s.mayFastResend p now && decide (sackedAfter base mask p.seqNr ≥ dupAckThreshold)

/-- The indices of a list, from `idx` on, whose entries have a property. -/
def indicesOf (f : OutPacket → Bool) : List OutPacket → Nat → List Nat
  | [], _ => []
  | p :: rest, idx => if f p then idx :: indicesOf f rest (idx + 1) else indicesOf f rest (idx + 1)

/-- The scan finds the packets with enough set bits after them: its one cursor never has to go back, since the queue is in
sequence order. -/
theorem findLost_eq (s : ConnState F) (base : UInt16) (mask : List UInt8) (now : Nat) {L : List OutPacket}
    (hL : L.Pairwise (fun p q => seqAfter q.seqNr p.seqNr = true)) (idx cursor : Nat)
    (hcursor : ∀ p ∈ L, sackBitOf base p.seqNr < 0x8000 → cursor ≤ sackBitOf base p.seqNr) :
    findLost s base mask (mask.map countOnes).sum now L idx cursor (setBelow mask cursor) =
      indicesOf (s.isLost base mask now) L idx := by
  induction L generalizing idx cursor with
  | nil => rfl
  | cons p rest ih =>
    obtain ⟨hp, hrest⟩ := List.pairwise_cons.mp hL
    have hkeep : ∀ q ∈ rest, sackBitOf base q.seqNr < 0x8000 → cursor ≤ sackBitOf base q.seqNr :=
      fun q hq => hcursor q (List.mem_cons_of_mem _ hq)
    have hhead := hcursor p (List.mem_cons_self ..)
    rw [findLost, indicesOf]
    cases hmay : s.mayFastResend p now with
    | false =>
      have hno : s.isLost base mask now p = false := by simp [isLost, hmay]
      simpa [hno] using ih hrest (idx + 1) cursor hkeep
    | true =>
      have hlost : s.isLost base mask now p = decide (sackedAfter base mask p.seqNr ≥ dupAckThreshold) := by simp [isLost, hmay]
      simp only [Bool.not_true, Bool.false_eq_true, if_false, hlost]
      by_cases hbefore : sackBitOf base p.seqNr ≥ 0x8000
      · have hall : sackedAfter base mask p.seqNr = (mask.map countOnes).sum := by
          rw [sackedAfter, if_pos hbefore, sum_countOnes]
        simp only [hbefore, if_true, hall, decide_eq_true_eq, ih hrest (idx + 1) cursor hkeep]
      · by_cases hpast : sackBitOf base p.seqNr ≥ mask.length * 8
        · have hnone := sackedAfter_of_past (Nat.lt_of_not_le hbefore) hpast
          simp only [hbefore, if_false, hpast, if_true, hnone, decide_eq_true_eq, ih hrest (idx + 1) cursor hkeep]
        · have hbit := hhead (Nat.lt_of_not_le hbefore)
          have hcovered := sackedAfter_of_covered (Nat.lt_of_not_le hbefore) (Nat.lt_of_not_le hpast)
          have hnext : ∀ q ∈ rest, sackBitOf base q.seqNr < 0x8000 → sackBitOf base p.seqNr + 1 ≤ sackBitOf base q.seqNr :=
            fun q hq _ => sackBitOf_lt (hp q hq) (Nat.lt_of_not_le hbefore)
          simp only [hbefore, if_false, hpast, countBelow_eq mask (sackBitOf base p.seqNr)
            (show sackBitOf base p.seqNr + 1 = cursor + (sackBitOf base p.seqNr + 1 - cursor) by omega), hcovered,
            decide_eq_true_eq, ih hrest (idx + 1) _ hnext]

theorem isLost_of_not_sacked (s : ConnState F) {base : UInt16} {mask : List UInt8} (hzero : (mask.map countOnes).sum = 0) (now : Nat)
    (p : OutPacket) : s.isLost base mask now p = false := by
  have hle := sackedAfter_le base mask p.seqNr
  have hnone : ¬ sackedAfter base mask p.seqNr ≥ dupAckThreshold := by
    unfold dupAckThreshold
    omega
  simp [isLost, hnone]

theorem isSacked_of_no_bits {mask : List UInt8} (hzero : (mask.map countOnes).sum = 0) (ackNr : UInt16) (p : OutPacket) :
    isSacked ackNr mask p = false := by
  rw [sum_countOnes, List.countP_eq_zero] at hzero
  unfold isSacked
  by_cases hbit : sackBitOf (ackNr + 2) p.seqNr < mask.length * 8
  · simpa using hzero _ (List.mem_range.mpr hbit)
  · simp [sackIsSet, hbit]

/-- Changing the entries of the list that have a property one by one is changing them all at once. -/
theorem foldl_modify_indicesOf (f : OutPacket → Bool) (g : OutPacket → OutPacket) (done L : List OutPacket) :
    (indicesOf f L done.length).foldl (fun M i => M.modify i g) (done ++ L) = done ++ L.map (fun p => if f p then g p else p) := by
  induction L generalizing done with
  | nil => simp [indicesOf]
  | cons p rest ih =>
    rw [indicesOf, List.map_cons]
    cases hf : f p with
    | false =>
      have := ih (done ++ [p])
      simpa using this
    | true =>
      have := ih (done ++ [g p])
      simpa [modify_append_cons] using this

theorem unacked_retransmit (s : ConnState F) (idx now : Nat) :
    ((s.setFastResent idx).retransmit idx now).unacked = s.unacked.modify idx (fun p => p.fastResend now) := by
  have hget : (s.setFastResent idx).unacked[idx]? = (s.unacked[idx]?).map OutPacket.markFastResent := by
    show (s.unacked.modify idx OutPacket.markFastResent)[idx]? = _
    rw [List.getElem?_modify]
    simp
  unfold retransmit
  cases hp : s.unacked[idx]? with
  | none =>
    rw [hp, Option.map_none] at hget
    have hlen := List.getElem?_eq_none_iff.mp hp
    simp only [hget]
    show s.unacked.modify idx OutPacket.markFastResent = _
    rw [List.modify_eq_self hlen, List.modify_eq_self hlen]
  | some p =>
    rw [hp, Option.map_some] at hget
    have hmark : ((s.setFastResent idx).markResent idx p.markFastResent now).unacked =
        (s.unacked.modify idx OutPacket.markFastResent).set idx (p.fastResend now) := by
      unfold markResent
      simp only
      split
      · rfl
      · rfl
    simp only [hget]
    show ((s.setFastResent idx).markResent idx p.markFastResent now).unacked = _
    rw [hmark]
    apply List.ext_getElem?
    intro i
    rw [List.getElem?_set, List.getElem?_modify, List.getElem?_modify, List.length_modify]
    by_cases hi : idx = i
    · subst hi
      obtain ⟨hlt, heq⟩ := List.getElem?_eq_some_iff.mp hp
      simp [hlt, heq]
    · simp [hi]

theorem unacked_foldl_resend (now : Nat) (lost : List Nat) (s : ConnState F) :
    (lost.foldl (fun s idx => (s.setFastResent idx).retransmit idx now) s).unacked =
      lost.foldl (fun M i => M.modify i (fun p => p.fastResend now)) s.unacked := by
  induction lost generalizing s with
  | nil => rfl
  | cons idx rest ih => rw [List.foldl_cons, List.foldl_cons, ih, unacked_retransmit]

theorem unacked_resendLost (s : ConnState F) (lost : List Nat) (now : Nat) :
    (s.resendLost lost now).unacked = lost.foldl (fun M i => M.modify i (fun p => p.fastResend now)) s.unacked := by
  unfold resendLost
  split
  · rename_i hempty
    rw [List.isEmpty_iff.mp hempty]
    rfl
  · have hjudge : (judgeLost lost s false).1.unacked = s.unacked := congrArg ConnCore.unacked (core_judgeLost lost s false)
    simp only
    rw [unacked_foldl_resend]
    split
    · rw [show (judgeLost lost s false).1.onLoss.unacked = (judgeLost lost s false).1.unacked from
        congrArg ConnCore.unacked (core_onLoss _), hjudge]
    · rw [hjudge]

theorem unacked_removeSacked [F64 F] (s : ConnState F) (ackNr : UInt16) (mask : List UInt8) (now : Nat) :
    (s.removeSacked ackNr mask now).unacked = s.unacked.filter (fun p => !isSacked ackNr mask p) :=
  congrArg ConnCore.unacked (core_sampleAll _ _ now)

end ConnState

end Risuko
