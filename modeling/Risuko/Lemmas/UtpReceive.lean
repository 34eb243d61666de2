import Risuko.Lemmas.UtpCounters

/-!
# What a uTP receiver holds

The bytes that a connection holds for its reader are those ready to be read and those buffered out of order. Moving a buffered packet
to the ready ones, and reading, never add to them; a packet from the peer adds its payload only while the window is open. The
control functions leave all of it alone, and without an MTU probe in flight the packet size too.
-/

namespace Risuko

namespace ConnState

variable {F : Type}
variable {s : ConnState F} {M : Nat} {payload : List UInt8}

/-- The bytes held for the reader. -/
def held (s : ConnState F) : Nat := s.recvReady.length + s.reorderBytes

/-- The data held for the reader, and what the room for it depends on. -/
def inbox (s : ConnState F) : List UInt8 × OrdMap UInt16 (List UInt8) × Nat × Nat × Option (UInt16 × Nat) × Option Nat :=
  (s.recvReady, s.reorder, s.reorderBytes, s.packetSize, s.mtuProbe, s.pendingDeadline)

theorem mtuProbe_of_inbox {s' : ConnState F} (h : s'.inbox = s.inbox) (hs : s.mtuProbe = none) : s'.mtuProbe = none := by
  simp only [inbox, Prod.mk.injEq] at h
  rw [h.2.2.2.2.1, hs]

/-! ## Functions that leave the data alone -/

theorem inbox_onMtuProbeAcked (hs : s.mtuProbe = none) (seq : UInt16) : (s.onMtuProbeAcked seq).inbox = s.inbox := by
  unfold onMtuProbeAcked
  rw [hs]

theorem inbox_onMtuProbeLost (hs : s.mtuProbe = none) (seq : UInt16) : (s.onMtuProbeLost seq).1.inbox = s.inbox := by
  unfold onMtuProbeLost
  rw [hs]

theorem inbox_onLoss (s : ConnState F) : s.onLoss.inbox = s.inbox := by
  unfold onLoss
  split
  · rfl
  · rfl

theorem inbox_sampleAcked [F64 F] (hs : s.mtuProbe = none) (seq : UInt16) (elapsed : Nat) :
    (s.sampleAcked seq elapsed).inbox = s.inbox := inbox_onMtuProbeAcked (s := s.updateRtt elapsed) hs seq

theorem inbox_foldl_sampleAcked [F64 F] (now : Nat) (L : List OutPacket) (hs : s.mtuProbe = none) :
    (L.foldl (fun s p => s.sampleAcked p.seqNr (now - p.sentAt)) s).inbox = s.inbox := by
  induction L generalizing s with
  | nil => rfl
  | cons p L ih =>
    have hp := inbox_sampleAcked hs p.seqNr (now - p.sentAt)
    rw [List.foldl_cons, ih (mtuProbe_of_inbox hp hs), hp]

theorem inbox_accountRemoved (s : ConnState F) (p : OutPacket) : (s.accountRemoved p).inbox = s.inbox := by
  unfold accountRemoved
  split
  · rfl
  · rfl

theorem inbox_retransmit (s : ConnState F) (idx now : Nat) : (s.retransmit idx now).inbox = s.inbox := by
  unfold retransmit markResent
  split
  · rfl
  simp only
  split
  · rfl
  · rfl

theorem inbox_popAcked [F64 F] (ackNr : UInt16) (now fuel : Nat) (hs : s.mtuProbe = none) (bytes : Nat) (any : Bool) :
    (popAcked ackNr now fuel s bytes any).1.inbox = s.inbox := by
  induction fuel generalizing s bytes any with
  | zero => rfl
  | succ fuel ih =>
    unfold popAcked
    split
    · rfl
    rename_i p rest hun
    split
    · rfl
    have hremoved : (({ s with unacked := rest } : ConnState F).accountRemoved p).inbox = s.inbox := inbox_accountRemoved _ p
    have hnone := mtuProbe_of_inbox hremoved hs
    simp only
    split
    · have hsample := inbox_sampleAcked hnone p.seqNr (now - p.sentAt)
      rw [ih (mtuProbe_of_inbox hsample hnone), hsample, hremoved]
    · rw [ih hnone, hremoved]

theorem inbox_fastRetransmitFront (hs : s.mtuProbe = none) (ackNr : UInt16) (now : Nat) :
    (s.fastRetransmitFront ackNr now).inbox = s.inbox := by
  have hjudge := inbox_onMtuProbeLost (s := s.setFastResent 0) hs (ackNr + 1)
  unfold fastRetransmitFront
  simp only
  split
  · rfl
  split
  · rw [inbox_retransmit]
    split
    · exact hjudge
    · exact (inbox_onLoss _).trans hjudge
  · rfl

theorem inbox_afterAck (hs : s.mtuProbe = none) (h : UtpHeader) (any : Bool) (now : Nat) :
    (s.afterAck h any now).inbox = s.inbox := by
  unfold afterAck endRecovery
  split
  · simp only
    split
    · split
      · rfl
      · rfl
    · rfl
  split
  · simp only
    split
    · exact inbox_fastRetransmitFront (s := { s with dupAcks := s.dupAcks + 1 }) hs h.ackNr now
    · rfl
  · rfl

theorem inbox_processAck [F64 F] (hs : s.mtuProbe = none) (h : UtpHeader) (now : Nat) :
    (s.processAck h now).1.inbox = s.inbox := by
  have hpop := inbox_popAcked h.ackNr now s.unacked.length hs 0 false
  exact (inbox_afterAck (mtuProbe_of_inbox hpop hs) h _ now).trans hpop

theorem inbox_judgeLost (lost : List Nat) (hs : s.mtuProbe = none) (congestion : Bool) :
    (judgeLost lost s congestion).1.inbox = s.inbox := by
  induction lost generalizing s congestion with
  | nil => rfl
  | cons idx rest ih =>
    unfold judgeLost
    split
    · exact ih hs congestion
    · rename_i p _
      have hjudge := inbox_onMtuProbeLost hs p.seqNr
      simp only [ih (mtuProbe_of_inbox hjudge hs), hjudge]

theorem inbox_foldl_resend (now : Nat) (lost : List Nat) (s : ConnState F) :
    (lost.foldl (fun s idx => (s.setFastResent idx).retransmit idx now) s).inbox = s.inbox := by
  induction lost generalizing s with
  | nil => rfl
  | cons idx rest ih => exact (ih _).trans (inbox_retransmit (s.setFastResent idx) idx now)

theorem inbox_processSelectiveAck [F64 F] (hs : s.mtuProbe = none) (ackNr : UInt16) (mask : List UInt8) (now : Nat) :
    (s.processSelectiveAck ackNr mask now).1.inbox = s.inbox := by
  unfold processSelectiveAck
  simp only
  split
  · rfl
  have hremove : (s.removeSacked ackNr mask now).inbox = s.inbox := by
    unfold removeSacked sampleAll
    exact inbox_foldl_sampleAcked now _ hs
  have hnone := mtuProbe_of_inbox hremove hs
  generalize s.removeSacked ackNr mask now = t at hremove hnone
  unfold resendLost
  split
  · exact hremove
  simp only
  rw [inbox_foldl_resend]
  split
  · rw [inbox_onLoss, inbox_judgeLost _ hnone, hremove]
  · rw [inbox_judgeLost _ hnone, hremove]

theorem inbox_updateCwnd [F64 F] (s : ConnState F) (theirDelay : UInt32) (ackedBytes now : Nat) :
    (s.updateCwnd theirDelay ackedBytes now).inbox = s.inbox := by
  unfold updateCwnd delayFactor
  split
  · rfl
  simp only
  split
  · rfl
  · rfl

theorem inbox_processAcks [F64 F] (hs : s.mtuProbe = none) (h : UtpHeader) (now : Nat) :
    (s.processAcks h now).inbox = s.inbox := by
  have hack := inbox_processAck hs h now
  unfold processAcks
  cases h.selectiveAck with
  | none => exact (inbox_updateCwnd ..).trans hack
  | some mask => exact (inbox_updateCwnd ..).trans ((inbox_processSelectiveAck (mtuProbe_of_inbox hack hs) ..).trans hack)

theorem inbox_connectOn (s : ConnState F) (h : UtpHeader) : (s.connectOn h).inbox = s.inbox := by
  unfold connectOn
  split
  · rfl
  · rfl

theorem inbox_noteEof (s : ConnState F) : s.noteEof.inbox = s.inbox := by
  unfold noteEof
  split
  · split
    · rfl
    · rfl
  · rfl

theorem inbox_maybeFinish (s : ConnState F) (now : Nat) : (s.maybeFinish now).inbox = s.inbox := by
  unfold maybeFinish
  split
  · split
    · rfl
    · rfl
  · rfl

theorem inbox_noteWindowUpdate (s : ConnState F) : s.noteWindowUpdate.inbox = s.inbox := by
  unfold noteWindowUpdate
  simp only
  split
  · rfl
  · rfl

/-! ## Receiving -/

/-- The state is within its bounds: it holds less than the buffer and one payload of at most `M` bytes, and buffers no more packets
than allowed; no MTU probe is in flight. -/
structure Bounded (M : Nat) (s : ConnState F) : Prop where
  counted : s.Counted
  noProbe : s.mtuProbe = none
  packetSize : 0 < s.packetSize ∧ s.packetSize ≤ maxDatagramV4
  held : s.held < recvBufMax + M
  size : s.reorder.size ≤ s.reorderLimit

theorem Bounded.of_inbox {s' : ConnState F} (h : s.Bounded M) (hc : s'.Counted) (hi : s'.inbox = s.inbox) : s'.Bounded M := by
  simp only [inbox, Prod.mk.injEq] at hi
  obtain ⟨hready, hreorder, hbytes, hsize, hprobe, hpending⟩ := hi
  refine ⟨hc, hprobe ▸ h.noProbe, hsize ▸ h.packetSize, ?_, ?_⟩
  · show s'.recvReady.length + s'.reorderBytes < recvBufMax + M
    rw [hready, hbytes]
    exact h.held
  · unfold reorderLimit
    rw [hreorder, hpending, hsize]
    exact h.size

/-- Consuming a packet adds at most its payload to the ready bytes. -/
theorem held_consume_le (s : ConnState F) (ty : PacketType) (seq : UInt16) (payload : List UInt8) (now : Nat) :
    (s.consume ty seq payload now).held ≤ s.held + payload.length := by
  unfold consume
  simp only
  split
  · exact Nat.le_add_right ..
  split
  · show (s.recvReady ++ payload).length + s.reorderBytes ≤ s.recvReady.length + s.reorderBytes + payload.length
    rw [List.length_append]
    omega
  · exact Nat.le_add_right ..

theorem Bounded.consume (h : s.Bounded M)
    (hroom : s.held + payload.length < recvBufMax + M) (ty : PacketType) (seq : UInt16) (now : Nat) :
    (s.consume ty seq payload now).Bounded M := by
  have hheld := held_consume_le s ty seq payload now
  have hsame : (s.consume ty seq payload now).mtuProbe = s.mtuProbe ∧ (s.consume ty seq payload now).packetSize = s.packetSize ∧
      (s.consume ty seq payload now).reorder = s.reorder ∧ (s.consume ty seq payload now).pendingDeadline = s.pendingDeadline := by
    unfold ConnState.consume
    simp only
    split
    · exact ⟨rfl, rfl, rfl, rfl⟩
    split
    · exact ⟨rfl, rfl, rfl, rfl⟩
    · exact ⟨rfl, rfl, rfl, rfl⟩
  obtain ⟨hprobe, hsize, hreorder, hpending⟩ := hsame
  refine ⟨h.counted.consume ty seq payload now, hprobe ▸ h.noProbe, hsize ▸ h.packetSize, by omega, ?_⟩
  unfold reorderLimit
  rw [hreorder, hpending, hsize]
  exact h.size

/-- A buffered packet that is taken out leaves room for its payload. -/
theorem Bounded.takeBuffered (h : s.Bounded M) {seq : UInt16} {buf : List UInt8}
    (hbuf : s.reorder.get? seq = some buf) :
    (s.takeBuffered seq buf).Bounded M ∧ (s.takeBuffered seq buf).held + buf.length < recvBufMax + M := by
  have hsum := s.reorder.sumOf_erase (fun _ b => b.length) hbuf
  rw [← h.counted.reorderBytes] at hsum
  have hheld := h.held
  unfold ConnState.held at hheld
  have hroom : s.recvReady.length + (s.reorderBytes - buf.length) + buf.length < recvBufMax + M := by omega
  refine ⟨⟨h.counted.takeBuffered hbuf, h.noProbe, h.packetSize, ?_, ?_⟩, hroom⟩
  · show s.recvReady.length + (s.reorderBytes - buf.length) < recvBufMax + M
    omega
  · exact (s.reorder.size_erase_le seq).trans h.size

theorem Bounded.drainReorder (h : s.Bounded M) (now fuel : Nat) : (ConnState.drainReorder now fuel s).Bounded M := by
  induction fuel generalizing s with
  | zero => exact h
  | succ fuel ih =>
    unfold ConnState.drainReorder
    simp only
    split
    · exact h
    · rename_i buf hbuf
      obtain ⟨htaken, hroom⟩ := h.takeBuffered hbuf
      exact ih (htaken.consume hroom _ _ now)

theorem Bounded.insertBuffered (h : s.Bounded M)
    (hroom : s.held + payload.length < recvBufMax + M) (hfree : s.reorder.size < s.reorderLimit) (seq : UInt16) :
    (s.insertBuffered seq payload).Bounded M := by
  have hcounted := h.counted.insertBuffered seq payload
  have hsize := s.reorder.size_insert_le seq payload
  unfold ConnState.held at hroom
  unfold ConnState.insertBuffered at hcounted ⊢
  simp only at hcounted ⊢
  split at hcounted
  · rename_i old hold
    refine ⟨hcounted, h.noProbe, h.packetSize, ?_, ?_⟩
    · show s.recvReady.length + (s.reorderBytes - old.length + payload.length) < recvBufMax + M
      omega
    · show (s.reorder.insert seq payload).size ≤ s.reorderLimit
      omega
  · refine ⟨hcounted, h.noProbe, h.packetSize, ?_, ?_⟩
    · show s.recvReady.length + (s.reorderBytes + payload.length) < recvBufMax + M
      omega
    · show (s.reorder.insert seq payload).size ≤ s.reorderLimit
      omega

theorem Bounded.bufferPacket (h : s.Bounded M)
    (hroom : s.held + payload.length < recvBufMax + M) (hd : UtpHeader) : (s.bufferPacket hd payload).Bounded M := by
  have hfin : (s.noteFin hd).Bounded M ∧ (s.noteFin hd).held = s.held := by
    unfold ConnState.noteFin
    split
    · exact ⟨⟨⟨h.counted.inFlight, h.counted.resendCount, h.counted.reorderBytes, h.counted.noUnderflow⟩, h.noProbe, h.packetSize,
        h.held, h.size⟩, rfl⟩
    · exact ⟨h, rfl⟩
  unfold ConnState.bufferPacket
  simp only
  split
  · rename_i hfree
    exact hfin.1.insertBuffered (by rw [hfin.2]; exact hroom) hfree _
  · exact hfin.1

/-- While the window is open there is room for one payload more. -/
theorem held_lt_of_window (h : s.advertisedWindow ≠ 0) : s.held < recvBufMax := by
  by_contra hge
  apply h
  unfold advertisedWindow
  unfold held at hge
  rw [Nat.sub_eq_zero_of_le (by omega)]
  rfl

theorem Bounded.placePacket (h : s.Bounded M) (hd : UtpHeader)
    (hM : payload.length ≤ M) (now : Nat) : (s.placePacket hd payload now).Bounded M := by
  unfold ConnState.placePacket
  simp only
  split
  · exact h
  split
  · exact h
  split
  · exact h
  rename_i hclosed
  have hroom : s.held + payload.length < recvBufMax + M := by
    cases hpay : payload.isEmpty with
    | true =>
      rw [List.isEmpty_iff.mp hpay]
      exact h.held
    | false =>
      have := held_lt_of_window (s := s) (fun hw => hclosed ⟨hw, by rw [hpay]; rfl⟩)
      omega
  split
  · exact (h.consume hroom _ _ now).drainReorder now _
  · exact h.bufferPacket hroom hd

theorem Bounded.acceptInorder (h : s.Bounded M) (hd : UtpHeader)
    (hM : payload.length ≤ M) (now : Nat) : (s.acceptInorder hd payload now).Bounded M := by
  have hack : ({ s with needsAck := true } : ConnState F).Bounded M := h.of_inbox (h.counted.of_core rfl) rfl
  refine hack.placePacket hd ?_ now
  split
  · exact Nat.zero_le _
  · exact hM

theorem Bounded.acceptPacket [F64 F] (h : s.Bounded M) (hd : UtpHeader)
    (hM : payload.length ≤ M) (now : Nat) : (s.acceptPacket hd payload now).Bounded M := by
  have hpeer : (s.notePeer hd now).Counted :=
    ⟨h.counted.inFlight, h.counted.resendCount, h.counted.reorderBytes, h.counted.noUnderflow⟩
  have hconnect : ((s.notePeer hd now).connectOn hd).Bounded M :=
    h.of_inbox (hpeer.connectOn hd) (inbox_connectOn (s.notePeer hd now) hd)
  have hacks := hconnect.of_inbox (hconnect.counted.processAcks hd now) (inbox_processAcks hconnect.noProbe hd now)
  unfold ConnState.acceptPacket
  simp only
  generalize ((s.notePeer hd now).connectOn hd).processAcks hd now = s₁ at hacks ⊢
  generalize ((s.notePeer hd now).connectOn hd).unacked.length = before
  have hnotify : (if s₁.unacked.length < before then s₁.notifyWrite else s₁).Bounded M := by
    split
    · exact hacks.of_inbox (hacks.counted.of_core rfl) rfl
    · exact hacks
  generalize (if s₁.unacked.length < before then s₁.notifyWrite else s₁) = s₂ at hnotify ⊢
  have hfinish : ∀ t : ConnState F, t.Bounded M → (t.noteEof.maybeFinish now).Bounded M := by
    intro t ht
    have heof := ht.of_inbox (ht.counted.of_core (core_noteEof t)) (inbox_noteEof t)
    exact heof.of_inbox (heof.counted.maybeFinish now) (inbox_maybeFinish _ now)
  cases hd.packetType with
  | data | fin => exact hfinish _ (hnotify.acceptInorder hd hM now)
  | state => exact hfinish _ hnotify
  | reset => exact hfinish _ hnotify
  | syn => exact hfinish _ hnotify

theorem Bounded.handlePacket [F64 F] (h : s.Bounded M) (hd : UtpHeader)
    (hM : payload.length ≤ M) (now : Nat) : (s.handlePacket hd payload now).Bounded M := by
  unfold ConnState.handlePacket
  split
  · exact h
  split
  · split
    · exact h.of_inbox (h.counted.fail _) rfl
    · exact h
  split
  · split
    · exact h.of_inbox (h.counted.of_core rfl) rfl
    · exact h
  split
  · exact h
  split
  · exact h
  split
  · exact h
  · exact h.acceptPacket hd hM now

/-- A read takes from the ready bytes. -/
theorem Bounded.pollRead [F64 F] (h : s.Bounded M) (n : Nat) : (s.pollRead n).1.Bounded M := by
  have hcounted : (s.pollRead n).1.Counted := h.counted.apply 0 (.pollRead n)
  unfold ConnState.pollRead at hcounted ⊢
  split
  · rename_i hready
    rw [if_pos hready] at hcounted
    have hinbox := inbox_noteWindowUpdate { s with recvReady := s.recvReady.drop n }
    have hdropped : ({ s with recvReady := s.recvReady.drop n } : ConnState F).Bounded M := by
      refine ⟨⟨h.counted.inFlight, h.counted.resendCount, h.counted.reorderBytes, h.counted.noUnderflow⟩, h.noProbe, h.packetSize, ?_,
        h.size⟩
      show (s.recvReady.drop n).length + s.reorderBytes < recvBufMax + M
      have hheld := h.held
      unfold ConnState.held at hheld
      rw [List.length_drop]
      omega
    exact hdropped.of_inbox hcounted hinbox
  · split
    · exact h
    split
    · exact h
    · exact h.of_inbox (h.counted.of_core rfl) rfl

/-- The hand-off to `accept` lifts the lower limit of a pending connection. -/
theorem Bounded.handOff [F64 F] (h : s.Bounded M) (waiting : Bool) (now : Nat) :
    (s.handOff waiting now).1.Bounded M := by
  have hcounted : (s.handOff waiting now).1.Counted := h.counted.apply now (.handOff waiting)
  have hlimit : s.reorder.size ≤ recvBufMax / s.packetSize := by
    have hsize := h.size
    unfold reorderLimit at hsize
    split at hsize
    · have hpending : pendingReorderPackets ≤ recvBufMax / s.packetSize := by
        rw [Nat.le_div_iff_mul_le h.packetSize.1]
        have := h.packetSize.2
        unfold pendingReorderPackets recvBufMax
        unfold maxDatagramV4 at this
        omega
      exact hsize.trans hpending
    · exact hsize
  have hlift : ∀ s' : ConnState F, s'.Counted → s'.inbox = { s with pendingDeadline := none }.inbox → s'.Bounded M := by
    intro s' hc hi
    simp only [inbox, Prod.mk.injEq] at hi
    obtain ⟨hready, hreorder, hbytes, hsize, hprobe, hpending⟩ := hi
    refine ⟨hc, hprobe ▸ h.noProbe, hsize ▸ h.packetSize, ?_, ?_⟩
    · show s'.recvReady.length + s'.reorderBytes < recvBufMax + M
      rw [hready, hbytes]
      exact h.held
    · unfold reorderLimit
      rw [hreorder, hpending, hsize]
      exact hlimit
  unfold ConnState.handOff at hcounted ⊢
  split
  · exact h
  split
  · exact h
  split
  · exact hlift _ (h.counted.of_core rfl) rfl
  rename_i hwaiting hopen hready
  rw [if_neg hwaiting, if_neg hopen, if_neg hready] at hcounted
  simp only at hcounted ⊢
  split
  · rename_i heof
    rw [if_pos heof] at hcounted
    unfold ConnState.abort at hcounted ⊢
    rw [if_neg hopen] at hcounted ⊢
    exact hlift _ hcounted rfl
  · exact h

end ConnState

end Risuko
