import Risuko.Lib.Lists
import Risuko.Lemmas.UtpCore

/-!
# The counters of a uTP connection

`Counted` says that `in_flight`, `resend_count` and `reorder_bytes` are the sums they stand for and that no subtraction on
them has ever saturated. Every step of a connection keeps it.
-/

namespace Risuko

/-- The payload bytes of the packets that are in flight: those not waiting to be resent. -/
def flightBytes (L : List OutPacket) : Nat := ((L.filter (fun p => !p.needResend)).map (fun p => p.payload.length)).sum

/-- The packets waiting to be resent. -/
def resendPackets (L : List OutPacket) : Nat := L.countP (fun p => p.needResend)

namespace OutPacket

/-- What a packet adds to the bytes in flight. -/
def flight (p : OutPacket) : Nat := if p.needResend then 0 else p.payload.length

end OutPacket

theorem flightBytes_eq (L : List OutPacket) : flightBytes L = (L.map OutPacket.flight).sum := by
  induction L with
  | nil => rfl
  | cons p L ih =>
    unfold flightBytes at ih ⊢
    cases hp : p.needResend with
    | false => simp [OutPacket.flight, hp, ih]
    | true => simp [OutPacket.flight, hp, ih]

theorem resendPackets_eq (L : List OutPacket) : resendPackets L = (L.map (fun p => p.needResend.toNat)).sum := by
  induction L with
  | nil => rfl
  | cons p L ih =>
    unfold resendPackets at ih ⊢
    cases hp : p.needResend with
    | false => simp [hp, ih]
    | true =>
      simp [hp, ih]
      omega

theorem flightBytes_append (L M : List OutPacket) : flightBytes (L ++ M) = flightBytes L + flightBytes M := by
  simp [flightBytes_eq]

theorem resendPackets_append (L M : List OutPacket) : resendPackets (L ++ M) = resendPackets L + resendPackets M := by
  simp [resendPackets]

theorem flightBytes_filter (q : OutPacket → Bool) (L : List OutPacket) :
    flightBytes (L.filter q) + flightBytes (L.filter (fun p => !q p)) = flightBytes L := by
  simp only [flightBytes_eq]
  exact sum_map_filter_add _ q L

theorem resendPackets_filter (q : OutPacket → Bool) (L : List OutPacket) :
    resendPackets (L.filter q) + resendPackets (L.filter (fun p => !q p)) = resendPackets L := by
  simp only [resendPackets_eq]
  exact sum_map_filter_add _ q L

theorem flightBytes_set {L : List OutPacket} {i : Nat} {p : OutPacket} (h : L[i]? = some p) (p' : OutPacket) :
    flightBytes (L.set i p') + p.flight = flightBytes L + p'.flight := by
  simp only [flightBytes_eq]
  exact sum_map_set _ h p'

theorem resendPackets_set {L : List OutPacket} {i : Nat} {p : OutPacket} (h : L[i]? = some p) (p' : OutPacket) :
    resendPackets (L.set i p') + p.needResend.toNat = resendPackets L + p'.needResend.toNat := by
  simp only [resendPackets_eq]
  exact sum_map_set _ h p'

theorem flightBytes_markLost (L : List OutPacket) : flightBytes (L.map OutPacket.markLost) = 0 := by
  simp [flightBytes_eq, OutPacket.flight, OutPacket.markLost, Function.comp_def]

theorem resendPackets_markLost (L : List OutPacket) : resendPackets (L.map OutPacket.markLost) = L.length := by
  simp [resendPackets_eq, OutPacket.markLost, Function.comp_def]

namespace ConnState

variable {F : Type}
variable {s s' : ConnState F} {p : OutPacket}

/-- The counters of a connection are exact, and no subtraction on them has saturated. -/
structure Counted (s : ConnState F) : Prop where
  inFlight : s.inFlight = flightBytes s.unacked
  resendCount : s.resendCount = resendPackets s.unacked
  reorderBytes : s.reorderBytes = s.reorder.sumOf (fun _ b => b.length)
  noUnderflow : s.underflow = false

theorem Counted.of_core (h : s.Counted) (hc : s'.core = s.core) : s'.Counted := by
  have hu : s'.unacked = s.unacked := congrArg ConnCore.unacked hc
  have hi : s'.inFlight = s.inFlight := congrArg ConnCore.inFlight hc
  have hr : s'.resendCount = s.resendCount := congrArg ConnCore.resendCount hc
  have ho : s'.reorder = s.reorder := congrArg ConnCore.reorder hc
  have hb : s'.reorderBytes = s.reorderBytes := congrArg ConnCore.reorderBytes hc
  have hf : s'.underflow = s.underflow := congrArg ConnCore.underflow hc
  exact ⟨by rw [hi, hu, h.inFlight], by rw [hr, hu, h.resendCount], by rw [hb, ho, h.reorderBytes], by rw [hf, h.noUnderflow]⟩

/-! ## Sending -/

/-- A new packet at the end of the queue, whatever else a step changes. -/
theorem Counted.push (h : s.Counted) (hp : p.needResend = false)
    (hu : s'.unacked = s.unacked ++ [p]) (hi : s'.inFlight = s.inFlight + p.payload.length)
    (hr : s'.resendCount = s.resendCount) (ho : s'.reorder = s.reorder) (hb : s'.reorderBytes = s.reorderBytes)
    (hf : s'.underflow = s.underflow) : s'.Counted := by
  refine ⟨?_, ?_, by rw [hb, ho, h.reorderBytes], by rw [hf, h.noUnderflow]⟩
  · rw [hi, hu, flightBytes_append, h.inFlight]
    simp [flightBytes, hp]
  · rw [hr, hu, resendPackets_append, h.resendCount]
    simp [resendPackets, hp]

theorem Counted.transmitProbe (h : s.Counted) (payload : List UInt8) (now : Nat) :
    (s.transmitProbe payload now).Counted :=
  h.push (p := s.freshPacket .data payload now) rfl rfl rfl rfl rfl rfl rfl

theorem Counted.transmitNew (h : s.Counted) (ty : PacketType) (payload : List UInt8) (now : Nat) :
    (s.transmitNew ty payload now).Counted :=
  h.push (p := s.freshPacket ty payload now) rfl rfl rfl rfl rfl rfl rfl

theorem Counted.markResent (h : s.Counted) {idx : Nat} (hp : s.unacked[idx]? = some p)
    (now : Nat) : (s.markResent idx p now).Counted := by
  have hflight := flightBytes_set hp { p with sentAt := now, transmissions := p.transmissions + 1, needResend := false }
  have hresend := resendPackets_set hp { p with sentAt := now, transmissions := p.transmissions + 1, needResend := false }
  unfold ConnState.markResent
  cases hn : p.needResend with
  | false =>
    simp only [OutPacket.flight, hn, Bool.toNat_false, Bool.false_eq_true, if_false] at hflight hresend
    refine ⟨?_, ?_, h.reorderBytes, h.noUnderflow⟩
    · rw [if_neg Bool.false_ne_true, h.inFlight]
      show flightBytes s.unacked = flightBytes (s.unacked.set _ _)
      omega
    · rw [if_neg Bool.false_ne_true, h.resendCount]
      show resendPackets s.unacked = resendPackets (s.unacked.set _ _)
      omega
  | true =>
    simp only [OutPacket.flight, hn, Bool.toNat_false, Bool.toNat_true, Bool.false_eq_true, if_false, if_true]
      at hflight hresend
    refine ⟨?_, ?_, h.reorderBytes, ?_⟩
    · rw [if_pos rfl]
      show s.inFlight + p.payload.length = flightBytes (s.unacked.set _ _)
      rw [h.inFlight]
      omega
    · rw [if_pos rfl]
      show s.resendCount - 1 = resendPackets (s.unacked.set _ _)
      rw [h.resendCount]
      omega
    · rw [if_pos rfl]
      show (s.underflow || decide (s.resendCount < 1)) = false
      have : 1 ≤ s.resendCount := by
        rw [h.resendCount]
        omega
      simp [h.noUnderflow]
      omega

theorem Counted.retransmit (h : s.Counted) (idx now : Nat) : (s.retransmit idx now).Counted := by
  unfold ConnState.retransmit
  split
  · exact h
  · rename_i p hp
    have hm := h.markResent hp now
    generalize s.markResent idx p now = marked at hm
    exact ⟨hm.inFlight, hm.resendCount, hm.reorderBytes, hm.noUnderflow⟩

theorem Counted.mtuProbeSendFailed (h : s.Counted) (seq : UInt16) (tooBig : Bool) (now : Nat) :
    (s.mtuProbeSendFailed seq tooBig now).Counted := by
  unfold ConnState.mtuProbeSendFailed
  simp only
  have hs : (if tooBig then (s.onMtuProbeLost seq).1
    else if s.mtuProbe.any (fun probe => probe.1 = seq) then { s with mtuProbe := none } else s).Counted := by
    split
    · exact h.of_core (core_onMtuProbeLost s seq)
    split
    · exact h.of_core rfl
    · exact h
  split
  · exact hs.retransmit _ now
  · exact hs

/-! ## Acks -/

/-- Removing the front packet from the queue and from the books. -/
theorem Counted.accountRemoved (h : s.Counted) {rest : List OutPacket}
    (hu : s.unacked = p :: rest) : ({ s with unacked := rest }.accountRemoved p).Counted := by
  have hflight : flightBytes s.unacked = p.flight + flightBytes rest := by
    rw [hu, flightBytes_eq, flightBytes_eq, List.map_cons, List.sum_cons]
  have hresend : resendPackets s.unacked = p.needResend.toNat + resendPackets rest := by
    rw [hu, resendPackets_eq, resendPackets_eq, List.map_cons, List.sum_cons]
  rw [← h.inFlight] at hflight
  rw [← h.resendCount] at hresend
  unfold ConnState.accountRemoved
  cases hn : p.needResend with
  | false =>
    simp only [OutPacket.flight, hn, Bool.toNat_false, Bool.false_eq_true, if_false] at hflight hresend
    rw [if_neg Bool.false_ne_true]
    refine ⟨?_, ?_, h.reorderBytes, ?_⟩
    · show s.inFlight - p.payload.length = flightBytes rest
      omega
    · show s.resendCount = resendPackets rest
      omega
    · show (s.underflow || decide (s.inFlight < p.payload.length)) = false
      simp [h.noUnderflow]
      omega
  | true =>
    simp only [OutPacket.flight, hn, Bool.toNat_true, if_true] at hflight hresend
    rw [if_pos rfl]
    refine ⟨?_, ?_, h.reorderBytes, ?_⟩
    · show s.inFlight = flightBytes rest
      omega
    · show s.resendCount - 1 = resendPackets rest
      omega
    · show (s.underflow || decide (s.resendCount < 1)) = false
      simp [h.noUnderflow]
      omega

theorem Counted.popAcked [F64 F] (ackNr : UInt16) (now fuel : Nat) (h : s.Counted) (bytes : Nat) (any : Bool) :
    (ConnState.popAcked ackNr now fuel s bytes any).1.Counted := by
  induction fuel generalizing s bytes any with
  | zero => exact h
  | succ fuel ih =>
    unfold ConnState.popAcked
    split
    · exact h
    rename_i p rest hu
    split
    · exact h
    have hr := h.accountRemoved hu
    refine ih ?_ _ _
    split
    · exact hr.of_core (core_sampleAcked _ _ _)
    · exact hr

theorem Counted.setFastResent (h : s.Counted) (idx : Nat) : (s.setFastResent idx).Counted := by
  refine ⟨?_, ?_, h.reorderBytes, h.noUnderflow⟩
  · show s.inFlight = flightBytes (s.unacked.modify idx _)
    rw [flightBytes_eq, map_modify_eq (f := OutPacket.markFastResent) (fun _ => rfl), ← flightBytes_eq, h.inFlight]
  · show s.resendCount = resendPackets (s.unacked.modify idx _)
    rw [resendPackets_eq, map_modify_eq (f := OutPacket.markFastResent) (fun _ => rfl), ← resendPackets_eq, h.resendCount]

theorem Counted.fastRetransmitFront (h : s.Counted) (ackNr : UInt16) (now : Nat) :
    (s.fastRetransmitFront ackNr now).Counted := by
  unfold ConnState.fastRetransmitFront
  simp only
  split
  · exact h
  split
  · apply Counted.retransmit
    have hl := (h.setFastResent 0).of_core (core_onMtuProbeLost _ (ackNr + 1))
    split
    · exact hl
    · exact hl.of_core (core_onLoss _)
  · exact h

theorem Counted.afterAck (h : s.Counted) (hd : UtpHeader) (any : Bool) (now : Nat) :
    (s.afterAck hd any now).Counted := by
  unfold ConnState.afterAck
  split
  · have he : (ConnState.endRecovery { s with dupAcks := 0 } hd.ackNr).Counted := h.of_core (core_endRecovery _ _)
    exact he.of_core rfl
  split
  · have hdup : ({ s with dupAcks := s.dupAcks + 1 } : ConnState F).Counted := h.of_core rfl
    simp only
    split
    · exact hdup.fastRetransmitFront _ now
    · exact hdup
  · exact h

theorem Counted.processAck [F64 F] (h : s.Counted) (hd : UtpHeader) (now : Nat) :
    (s.processAck hd now).1.Counted :=
  ((h.popAcked hd.ackNr now s.unacked.length 0 false).afterAck hd _ now).of_core rfl

theorem Counted.removeSacked [F64 F] (h : s.Counted) (ackNr : UInt16) (mask : List UInt8) (now : Nat) :
    (s.removeSacked ackNr mask now).Counted := by
  have hflight := flightBytes_filter (isSacked ackNr mask) s.unacked
  have hresend := resendPackets_filter (isSacked ackNr mask) s.unacked
  rw [← h.inFlight] at hflight
  rw [← h.resendCount] at hresend
  unfold ConnState.removeSacked
  simp only
  refine Counted.of_core ?_ (core_sampleAll _ _ now)
  refine ⟨?_, ?_, h.reorderBytes, ?_⟩
  · show s.inFlight - flightBytes (s.unacked.filter (isSacked ackNr mask)) = flightBytes (s.unacked.filter _)
    omega
  · show s.resendCount - resendPackets (s.unacked.filter (isSacked ackNr mask)) = resendPackets (s.unacked.filter _)
    omega
  · show ((s.underflow || decide (s.inFlight < flightBytes (s.unacked.filter (isSacked ackNr mask)))) ||
      decide (s.resendCount < resendPackets (s.unacked.filter (isSacked ackNr mask)))) = false
    simp [h.noUnderflow]
    omega

theorem Counted.foldl_resend (now : Nat) (lost : List Nat) (h : s.Counted) :
    (lost.foldl (fun s idx => (s.setFastResent idx).retransmit idx now) s).Counted := by
  induction lost generalizing s with
  | nil => exact h
  | cons idx lost ih => exact ih ((h.setFastResent idx).retransmit idx now)

theorem Counted.resendLost (h : s.Counted) (lost : List Nat) (now : Nat) : (s.resendLost lost now).Counted := by
  unfold ConnState.resendLost
  split
  · exact h
  simp only
  apply Counted.foldl_resend
  have hj : (judgeLost lost s false).1.Counted := h.of_core (core_judgeLost lost s false)
  split
  · exact hj.of_core (core_onLoss _)
  · exact hj

theorem Counted.processSelectiveAck [F64 F] (h : s.Counted) (ackNr : UInt16) (mask : List UInt8) (now : Nat) :
    (s.processSelectiveAck ackNr mask now).1.Counted := by
  unfold ConnState.processSelectiveAck
  simp only
  split
  · exact h
  · exact (h.removeSacked ackNr mask now).resendLost _ now

theorem Counted.processAcks [F64 F] (h : s.Counted) (hd : UtpHeader) (now : Nat) :
    (s.processAcks hd now).Counted := by
  unfold ConnState.processAcks
  simp only
  refine Counted.of_core ?_ (core_updateCwnd _ _ _ _)
  split
  · exact (h.processAck hd now).processSelectiveAck _ _ now
  · exact h.processAck hd now

/-! ## Filling the send window -/

theorem Counted.resendLoop (h : s.Counted) (burst now fuel sent : Nat) :
    (ConnState.resendLoop burst now fuel s sent).1.Counted := by
  induction fuel generalizing s sent with
  | zero => exact h
  | succ fuel ih =>
    unfold ConnState.resendLoop
    split
    · exact h
    split
    · exact h.of_core (core_noteCwndBlock _ _ _)
    split
    · exact h
    · exact ih (h.retransmit _ now) _

theorem Counted.takeSend (h : s.Counted) (n : Nat) : (s.takeSend n).2.Counted :=
  ⟨h.inFlight, h.resendCount, h.reorderBytes, h.noUnderflow⟩

theorem Counted.sendLoop (h : s.Counted) (burst now fuel sent : Nat) :
    (ConnState.sendLoop burst now fuel s sent).1.Counted := by
  induction fuel generalizing s sent with
  | zero => exact h
  | succ fuel ih =>
    unfold ConnState.sendLoop
    split
    · exact h
    split
    · exact ih ((h.takeSend _).transmitProbe _ now) _
    simp only
    split
    · exact h
    split
    · exact h.of_core (core_noteCwndBlock _ _ _)
    split
    · exact h
    · exact ih ((h.takeSend _).transmitNew _ _ now) _

theorem Counted.sendNew (h : s.Counted) (burst sent : Nat) (paced : Bool) (now : Nat) :
    (s.sendNew burst sent paced now).1.Counted := by
  unfold ConnState.sendNew
  split
  · simp only
    refine Counted.sendLoop ?_ burst now _ sent
    split
    · exact h
    · exact h.of_core (core_maybeReopenMtuSearch s now)
  · exact h

theorem Counted.fillSendWindow [F64 F] (h : s.Counted) (now : Nat) : (s.fillSendWindow now).Counted := by
  unfold ConnState.fillSendWindow
  split
  · exact h
  split
  · exact h
  have hp : ({ s with paceAt := none } : ConnState F).Counted := h.of_core rfl
  simp only
  refine Counted.of_core ?_ (core_armProbe _ now)
  refine Counted.of_core ?_ (core_notePaced _ _ _ now)
  exact (hp.resendLoop _ now _ 0).sendNew _ _ _ now

/-! ## Receiving -/

theorem Counted.consume (h : s.Counted) (ty : PacketType) (seq : UInt16) (payload : List UInt8) (now : Nat) :
    (s.consume ty seq payload now).Counted := by
  unfold ConnState.consume
  simp only
  split
  · exact ⟨h.inFlight, h.resendCount, h.reorderBytes, h.noUnderflow⟩
  split
  · exact ⟨h.inFlight, h.resendCount, h.reorderBytes, h.noUnderflow⟩
  · exact ⟨h.inFlight, h.resendCount, h.reorderBytes, h.noUnderflow⟩

theorem Counted.takeBuffered (h : s.Counted) {seq : UInt16} {buf : List UInt8}
    (hb : s.reorder.get? seq = some buf) : (s.takeBuffered seq buf).Counted := by
  have hsum := s.reorder.sumOf_erase (fun _ b => b.length) hb
  rw [← h.reorderBytes] at hsum
  refine ⟨h.inFlight, h.resendCount, ?_, ?_⟩
  · show s.reorderBytes - buf.length = (s.reorder.erase seq).sumOf _
    omega
  · show (s.underflow || decide (s.reorderBytes < buf.length)) = false
    simp [h.noUnderflow]
    omega

theorem Counted.drainReorder (h : s.Counted) (now fuel : Nat) : (ConnState.drainReorder now fuel s).Counted := by
  induction fuel generalizing s with
  | zero => exact h
  | succ fuel ih =>
    unfold ConnState.drainReorder
    simp only
    split
    · exact h
    · rename_i buf hbuf
      exact ih ((h.takeBuffered hbuf).consume _ _ _ now)

theorem Counted.insertBuffered (h : s.Counted) (seq : UInt16) (payload : List UInt8) :
    (s.insertBuffered seq payload).Counted := by
  have hsum := s.reorder.sumOf_insert (fun _ b => b.length) seq payload
  unfold ConnState.insertBuffered
  simp only
  split
  · rename_i old hold
    have hold' := s.reorder.sumOf_erase (fun _ b => b.length) hold
    rw [← h.reorderBytes] at hold'
    refine ⟨h.inFlight, h.resendCount, ?_, ?_⟩
    · show s.reorderBytes - old.length + payload.length = (s.reorder.insert seq payload).sumOf _
      omega
    · show (s.underflow || decide (s.reorderBytes < old.length)) = false
      simp [h.noUnderflow]
      omega
  · rename_i hold
    rw [s.reorder.erase_of_get?_none hold, ← h.reorderBytes] at hsum
    refine ⟨h.inFlight, h.resendCount, ?_, h.noUnderflow⟩
    show s.reorderBytes + payload.length = (s.reorder.insert seq payload).sumOf _
    omega

theorem Counted.bufferPacket (h : s.Counted) (hd : UtpHeader) (payload : List UInt8) :
    (s.bufferPacket hd payload).Counted := by
  have hs : (s.noteFin hd).Counted := by
    unfold ConnState.noteFin
    split
    · exact ⟨h.inFlight, h.resendCount, h.reorderBytes, h.noUnderflow⟩
    · exact h
  unfold ConnState.bufferPacket
  simp only
  split
  · exact hs.insertBuffered _ _
  · exact hs

theorem Counted.placePacket (h : s.Counted) (hd : UtpHeader) (payload : List UInt8) (now : Nat) :
    (s.placePacket hd payload now).Counted := by
  unfold ConnState.placePacket
  simp only
  split
  · exact h
  split
  · exact h
  split
  · exact h
  split
  · exact (h.consume _ _ _ now).drainReorder now _
  · exact h.bufferPacket hd payload

theorem Counted.acceptInorder (h : s.Counted) (hd : UtpHeader) (payload : List UInt8) (now : Nat) :
    (s.acceptInorder hd payload now).Counted := by
  have hn : ({ s with needsAck := true } : ConnState F).Counted := h.of_core rfl
  exact hn.placePacket hd _ now

theorem Counted.connectOn (h : s.Counted) (hd : UtpHeader) : (s.connectOn hd).Counted := by
  unfold ConnState.connectOn
  split
  · exact ⟨h.inFlight, h.resendCount, h.reorderBytes, h.noUnderflow⟩
  · exact h

theorem Counted.maybeFinish (h : s.Counted) (now : Nat) : (s.maybeFinish now).Counted := by
  unfold ConnState.maybeFinish
  split
  · split
    · exact ⟨h.inFlight, h.resendCount, h.reorderBytes, h.noUnderflow⟩
    · exact h.of_core rfl
  · exact h

theorem Counted.acceptPacket [F64 F] (h : s.Counted) (hd : UtpHeader) (payload : List UInt8) (now : Nat) :
    (s.acceptPacket hd payload now).Counted := by
  have hpeer : (s.notePeer hd now).Counted := ⟨h.inFlight, h.resendCount, h.reorderBytes, h.noUnderflow⟩
  have hacks := (hpeer.connectOn hd).processAcks hd now
  unfold ConnState.acceptPacket
  simp only
  refine Counted.maybeFinish (Counted.of_core ?_ (core_noteEof _)) now
  have hwrite : (if (((s.notePeer hd now).connectOn hd).processAcks hd now).unacked.length <
      ((s.notePeer hd now).connectOn hd).unacked.length
      then (((s.notePeer hd now).connectOn hd).processAcks hd now).notifyWrite
      else ((s.notePeer hd now).connectOn hd).processAcks hd now).Counted := by
    split
    · exact hacks.of_core (core_notifyWrite _)
    · exact hacks
  split
  · exact hwrite.acceptInorder hd payload now
  · exact hwrite.acceptInorder hd payload now
  · exact hwrite
  · exact hwrite
  · exact hwrite

/-! ## Ends, timers and the driver -/

/-- A connection whose queue is cleared. -/
theorem Counted.cleared (h : s.Counted) (hu : s'.unacked = []) (hi : s'.inFlight = 0)
    (hr : s'.resendCount = 0) (ho : s'.reorder = s.reorder) (hb : s'.reorderBytes = s.reorderBytes)
    (hf : s'.underflow = s.underflow) : s'.Counted := by
  refine ⟨?_, ?_, by rw [hb, ho, h.reorderBytes], by rw [hf, h.noUnderflow]⟩
  · rw [hi, hu]
    rfl
  · rw [hr, hu]
    rfl

theorem Counted.fail (h : s.Counted) (kind : ErrorKind) : (s.fail kind).Counted :=
  h.cleared rfl rfl rfl rfl rfl rfl

theorem Counted.forceClose (h : s.Counted) : s.forceClose.Counted :=
  h.cleared rfl rfl rfl rfl rfl rfl

theorem Counted.abort (h : s.Counted) (now : Nat) : (s.abort now).Counted := by
  unfold ConnState.abort
  split
  · exact h
  · exact h.cleared rfl rfl rfl rfl rfl rfl

theorem Counted.handlePacket [F64 F] (h : s.Counted) (hd : UtpHeader) (payload : List UInt8) (now : Nat) :
    (s.handlePacket hd payload now).Counted := by
  unfold ConnState.handlePacket
  split
  · exact h
  split
  · split
    · exact h.fail _
    · exact h
  split
  · split
    · exact h.of_core rfl
    · exact h
  split
  · exact h
  split
  · exact h
  split
  · exact h
  · exact h.acceptPacket hd payload now

theorem Counted.onTimeout (h : s.Counted) (now : Nat) : (s.onTimeout now).Counted := by
  unfold ConnState.onTimeout
  apply Counted.retransmit
  exact ⟨(flightBytes_markLost s.unacked).symm, (resendPackets_markLost s.unacked).symm, h.reorderBytes, h.noUnderflow⟩

theorem Counted.checkRto (h : s.Counted) (now : Nat) : (s.checkRto now).Counted := by
  unfold ConnState.checkRto
  split
  · exact h
  split
  · exact h.of_core rfl
  split
  · exact h
  unfold ConnState.rtoExpired
  split
  · exact h.fail _
  split
  · simp only
    apply Counted.retransmit
    exact (h.of_core (core_onMtuProbeLost s _)).of_core rfl
  · exact h.onTimeout now

theorem Counted.checkTimers (h : s.Counted) (now : Nat) : (s.checkTimers now).Counted := by
  unfold ConnState.checkTimers
  split
  · exact h.abort now
  have hp := h.of_core (core_checkProbe s now)
  simp only
  split
  · exact ⟨hp.inFlight, hp.resendCount, hp.reorderBytes, hp.noUnderflow⟩
  · exact hp.checkRto now

theorem Counted.maybeSendFin (h : s.Counted) (now : Nat) : (s.maybeSendFin now).Counted := by
  unfold ConnState.maybeSendFin
  split
  · have ht := h.transmitNew .fin [] now
    exact ⟨ht.inFlight, ht.resendCount, ht.reorderBytes, ht.noUnderflow⟩
  · exact h

theorem Counted.handOff (h : s.Counted) (waiting : Bool) (now : Nat) : (s.handOff waiting now).1.Counted := by
  unfold ConnState.handOff
  split
  · exact h
  split
  · exact h
  split
  · exact h.of_core rfl
  simp only
  split
  · exact h.abort now
  · exact h

/-- A step that only queues datagrams. -/
theorem Counted.outbox (h : s.Counted) (outbox : List (List UInt8)) :
    ({ s with outbox := outbox } : ConnState F).Counted :=
  ⟨h.inFlight, h.resendCount, h.reorderBytes, h.noUnderflow⟩

theorem Counted.sendOwedAck (h : s.Counted) (now : Nat) : (s.sendOwedAck now).Counted := by
  unfold ConnState.sendOwedAck
  split
  · exact ⟨h.inFlight, h.resendCount, h.reorderBytes, h.noUnderflow⟩
  · exact h

theorem Counted.driveTail [F64 F] (h : s.Counted) (waiting : Bool) (now : Nat) :
    (s.driveTail waiting now).1.Counted :=
  (((((h.fillSendWindow now).maybeSendFin now).fillSendWindow now).handOff waiting now).sendOwedAck now).maybeFinish now

theorem Counted.dropReader (h : s.Counted) (now : Nat) : (s.dropReader now).Counted := by
  refine ⟨h.inFlight, h.resendCount, ?_, h.noUnderflow⟩
  show 0 = (s.reorder.mapVal (fun _ _ => [])).sumOf (fun _ b => b.length)
  rw [OrdMap.sumOf_mapVal]
  simp [OrdMap.sumOf]

theorem Counted.dropStream (h : s.Counted) (now : Nat) : (s.dropStream now).Counted := by
  unfold ConnState.dropStream
  apply Counted.dropReader
  split
  · exact h.abort now
  · exact h

theorem Counted.retryFailedDatagrams (h : s.Counted) (datagrams : List (List UInt8)) (now : Nat) :
    (s.retryFailedDatagrams datagrams now).1.Counted := by
  unfold ConnState.retryFailedDatagrams ConnState.scheduleSendRetry
  by_cases hr : s.sendRetryCount ≥ maxSendRetries
  · simp only [if_pos hr, Bool.false_eq_true, if_false]
    exact h
  · simp only [if_neg hr, if_true]
    exact ⟨h.inFlight, h.resendCount, h.reorderBytes, h.noUnderflow⟩

theorem Counted.sendFailed (h : s.Counted) (recoverable : Bool) (kind : ErrorKind)
    (pending : List (List UInt8)) (now : Nat) : (s.sendFailed recoverable kind pending now).Counted := by
  have hr := h.retryFailedDatagrams pending now
  unfold ConnState.sendFailed
  split
  · simp only
    split
    · exact hr
    · exact hr.fail kind
  · exact h.fail kind

theorem counted_new [F64 F] (remote : SocketAddr) (id : UInt16) (kind : RoleKind) (random : UInt16) (now : Nat) :
    (ConnState.new remote id kind random now : ConnState F).Counted :=
  ⟨rfl, rfl, rfl, rfl⟩

/-- Every step keeps the counters exact. -/
theorem Counted.apply [F64 F] (h : s.Counted) (now : Nat) (op : ConnOp) : (op.apply s now).Counted := by
  cases op with
  | seedResponder syn | startResponder pmtud => exact ⟨h.inFlight, h.resendCount, h.reorderBytes, h.noUnderflow⟩
  | startInitiator pmtud isn => exact h.push (p := synPacket isn now) rfl rfl rfl rfl rfl rfl rfl
  | pollRead n =>
    unfold ConnOp.apply ConnState.pollRead
    simp only
    split
    · have hr : ({ s with recvReady := s.recvReady.drop n } : ConnState F).Counted :=
        ⟨h.inFlight, h.resendCount, h.reorderBytes, h.noUnderflow⟩
      exact hr.of_core (core_noteWindowUpdate _)
    split
    · exact h
    split
    · exact h
    · exact h.of_core rfl
  | pollWrite data =>
    unfold ConnOp.apply ConnState.pollWrite
    simp only
    split
    · exact h
    split
    · exact h
    split
    · exact h.of_core rfl
    · exact ⟨h.inFlight, h.resendCount, h.reorderBytes, h.noUnderflow⟩
  | pollFlush =>
    unfold ConnOp.apply ConnState.pollFlush
    simp only
    split
    · exact h
    split
    · exact h
    · exact h.of_core rfl
  | pollShutdown =>
    unfold ConnOp.apply ConnState.pollShutdown
    simp only
    split
    · exact h
    split
    · exact h
    split
    · exact ⟨h.inFlight, h.resendCount, h.reorderBytes, h.noUnderflow⟩
    · exact ⟨h.inFlight, h.resendCount, h.reorderBytes, h.noUnderflow⟩
  | armAbortOnDrop armed => exact h.of_core rfl
  | dropStream => exact h.dropStream now
  | handlePacket hd payload => exact h.handlePacket hd payload now
  | nudge => exact h.of_core (core_noteWindowUpdate s)
  | checkTimers => exact h.checkTimers now
  | fillSendWindow => exact h.fillSendWindow now
  | maybeSendFin => exact h.maybeSendFin now
  | handOff waiting => exact h.handOff waiting now
  | sendOwedAck => exact h.sendOwedAck now
  | driveTail waiting => exact h.driveTail waiting now
  | maybeFinish => exact h.maybeFinish now
  | transmitProbe payload => exact h.transmitProbe payload now
  | retransmit idx => exact h.retransmit idx now
  | takeProbe =>
    unfold ConnOp.apply ConnState.takeProbe
    simp only
    split
    · exact h
    · exact ⟨h.inFlight, h.resendCount, h.reorderBytes, h.noUnderflow⟩
  | mtuProbeSendFailed seq tooBig => exact h.mtuProbeSendFailed seq tooBig now
  | takeOutbox => exact h.outbox []
  | sendFailed recoverable kind pending => exact h.sendFailed recoverable kind pending now
  | recordSendSuccess => exact h.of_core rfl
  | fail kind => exact h.fail kind
  | abort => exact h.abort now
  | forceClose => exact h.forceClose

end ConnState

end Risuko
