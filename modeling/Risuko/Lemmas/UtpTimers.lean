import Risuko.Lemmas.UtpCounters
import Risuko.Lemmas.UtpMtu

/-!
# The timers of a uTP sender

`Live` says that a connection with unacked packets has its retransmission timer set, that a dialing one has its SYN unacked, and
that nothing is left to send once the FIN is sent. Every step of a started connection keeps it. After `fill_send_window` a
connection that has bytes to send and nothing unacked waits for a zero-window probe or for its pacing.
-/

namespace Risuko

namespace ConnState

variable {F : Type}
variable {s : ConnState F} {burst : Nat}

/-- The timers of a connection cover what it has to do. -/
structure Live (s : ConnState F) : Prop where
  armed : s.unacked ≠ [] → s.rtoBase.isSome = true
  dialing : s.state = .synSent → s.unacked ≠ []
  finished : s.state = .finSent → s.sendBuf = []

/-- What `Live` reads. -/
def liveView (s : ConnState F) : Bool × Option Nat × UtpState × List UInt8 :=
  (s.unacked.isEmpty, s.rtoBase, s.state, s.sendBuf)

theorem Live.of_view {s' : ConnState F} (h : s.Live) (hv : s'.liveView = s.liveView) : s'.Live := by
  simp only [liveView, Prod.mk.injEq] at hv
  obtain ⟨hu, hr, hs, hb⟩ := hv
  have hempty : s'.unacked = [] ↔ s.unacked = [] := by
    rw [← List.isEmpty_iff, ← List.isEmpty_iff, hu]
  refine ⟨fun hne => ?_, fun hst => ?_, fun hst => ?_⟩
  · rw [hr]
    exact h.armed (fun he => hne (hempty.mpr he))
  · intro he
    exact h.dialing (hs ▸ hst) (hempty.mp he)
  · rw [hb]
    exact h.finished (hs ▸ hst)

/-- A closed connection has nothing left in its queue. -/
theorem live_closed (hs : s.state = .closed) (hu : s.unacked = []) : s.Live := by
  refine ⟨fun hne => absurd hu hne, fun he => ?_, fun he => ?_⟩
  · rw [hs] at he
    cases he
  · rw [hs] at he
    cases he

/-! ## Control functions -/

theorem liveView_onMtuProbeAcked (s : ConnState F) (seq : UInt16) : (s.onMtuProbeAcked seq).liveView = s.liveView := by
  unfold onMtuProbeAcked updateMtuLimits raiseMtuCeiling
  split
  · split
    · split
      · rfl
      · rfl
    · rfl
  · rfl

theorem liveView_onMtuProbeLost (s : ConnState F) (seq : UInt16) : (s.onMtuProbeLost seq).1.liveView = s.liveView := by
  unfold onMtuProbeLost updateMtuLimits raiseMtuCeiling
  split
  · split
    · rfl
    split
    · split
      · rfl
      · rfl
    · rfl
  · rfl

theorem liveView_onLoss (s : ConnState F) : s.onLoss.liveView = s.liveView := by
  unfold onLoss
  split
  · rfl
  · rfl

theorem liveView_sampleAcked [F64 F] (s : ConnState F) (seq : UInt16) (elapsed : Nat) :
    (s.sampleAcked seq elapsed).liveView = s.liveView := by
  rw [sampleAcked, liveView_onMtuProbeAcked]
  rfl

theorem liveView_foldl_sampleAcked [F64 F] (now : Nat) (L : List OutPacket) (s : ConnState F) :
    (L.foldl (fun s p => s.sampleAcked p.seqNr (now - p.sentAt)) s).liveView = s.liveView := by
  induction L generalizing s with
  | nil => rfl
  | cons p L ih => rw [List.foldl_cons, ih, liveView_sampleAcked]

theorem liveView_judgeLost (lost : List Nat) (s : ConnState F) (congestion : Bool) :
    (judgeLost lost s congestion).1.liveView = s.liveView := by
  induction lost generalizing s congestion with
  | nil => rfl
  | cons idx rest ih =>
    unfold judgeLost
    split
    · exact ih s congestion
    · simp only [ih, liveView_onMtuProbeLost]

theorem liveView_updateCwnd [F64 F] (s : ConnState F) (theirDelay : UInt32) (acked now : Nat) :
    (s.updateCwnd theirDelay acked now).liveView = s.liveView := by
  unfold updateCwnd delayFactor
  split
  · rfl
  simp only
  split
  · rfl
  · rfl

theorem liveView_setFastResent (s : ConnState F) (idx : Nat) : (s.setFastResent idx).liveView = s.liveView := by
  have : (s.unacked.modify idx OutPacket.markFastResent).isEmpty = s.unacked.isEmpty := by
    rw [Bool.eq_iff_iff, List.isEmpty_iff_length_eq_zero, List.isEmpty_iff_length_eq_zero, List.length_modify]
  simp only [liveView, setFastResent, this]

theorem liveView_maybeReopenMtuSearch (s : ConnState F) (now : Nat) : (s.maybeReopenMtuSearch now).liveView = s.liveView := by
  unfold maybeReopenMtuSearch
  split
  · rfl
  split
  · rfl
  · rfl

theorem liveView_noteCwndBlock (s : ConnState F) (len now : Nat) : (s.noteCwndBlock len now).liveView = s.liveView := by
  unfold noteCwndBlock
  split
  · rfl
  · rfl

theorem liveView_notePaced [F64 F] (s : ConnState F) (burst : Nat) (paced : Bool) (now : Nat) :
    (s.notePaced burst paced now).liveView = s.liveView := by
  unfold notePaced
  split
  · rfl
  · rfl

theorem liveView_armProbe (s : ConnState F) (now : Nat) : (s.armProbe now).liveView = s.liveView := by
  unfold armProbe
  simp only
  split
  · rfl
  · rfl

theorem liveView_noteWindowUpdate (s : ConnState F) : s.noteWindowUpdate.liveView = s.liveView := by
  unfold noteWindowUpdate
  simp only
  split
  · rfl
  · rfl

theorem liveView_noteEof (s : ConnState F) : s.noteEof.liveView = s.liveView := by
  unfold noteEof
  split
  · split
    · rfl
    · rfl
  · rfl

theorem liveView_checkProbe (s : ConnState F) (now : Nat) : (s.checkProbe now).liveView = s.liveView := by
  unfold checkProbe
  split
  · rfl
  · rfl

/-! ## Sending -/

/-- A retransmission sets the timer, and changes neither the queue's length nor the state. -/
theorem retransmit_spec (s : ConnState F) (idx now : Nat) :
    (s.retransmit idx now).unacked.isEmpty = s.unacked.isEmpty ∧ (s.retransmit idx now).state = s.state ∧
      (s.retransmit idx now).sendBuf = s.sendBuf ∧
      (s.rtoBase.isSome = true ∨ idx < s.unacked.length → (s.retransmit idx now).rtoBase.isSome = true) := by
  have hlen : ∀ p, (s.unacked.set idx p).isEmpty = s.unacked.isEmpty := by
    intro p
    rw [Bool.eq_iff_iff, List.isEmpty_iff_length_eq_zero, List.isEmpty_iff_length_eq_zero, List.length_set]
  unfold retransmit markResent
  split
  · rename_i hnone
    refine ⟨rfl, rfl, rfl, fun h => ?_⟩
    rcases h with h | h
    · exact h
    · rw [List.getElem?_eq_none_iff] at hnone
      omega
  · simp only
    split
    · exact ⟨hlen _, rfl, rfl, fun _ => rfl⟩
    · exact ⟨hlen _, rfl, rfl, fun _ => rfl⟩

/-- A retransmission keeps the timers, also when the timer was just cleared and the first packet is resent. -/
theorem Live.retransmit_of {idx : Nat} (harm : s.unacked ≠ [] → s.rtoBase.isSome = true ∨ idx < s.unacked.length)
    (hdial : s.state = .synSent → s.unacked ≠ []) (hfin : s.state = .finSent → s.sendBuf = []) (now : Nat) :
    (s.retransmit idx now).Live := by
  obtain ⟨hu, hs, hb, hr⟩ := retransmit_spec s idx now
  have hempty : (s.retransmit idx now).unacked = [] ↔ s.unacked = [] := by
    rw [← List.isEmpty_iff, ← List.isEmpty_iff, hu]
  refine ⟨fun hne => hr (harm (fun he => hne (hempty.mpr he))), fun hst he => ?_, fun hst => ?_⟩
  · exact hdial (hs ▸ hst) (hempty.mp he)
  · rw [hb]
    exact hfin (hs ▸ hst)

theorem Live.retransmit (h : s.Live) (idx now : Nat) : (s.retransmit idx now).Live :=
  Live.retransmit_of (fun hne => .inl (h.armed hne)) h.dialing h.finished now

theorem Live.sendProbe (h : s.Live) (n now : Nat) : (s.sendProbe n now).Live := by
  refine ⟨fun _ => rfl, fun _ he => ?_, fun hst => ?_⟩
  · have : s.unacked ++ [(s.takeSend n).2.freshPacket .data (s.takeSend n).1 now] = [] := he
    simp at this
  · show s.sendBuf.drop n = []
    rw [h.finished hst, List.drop_nil]

theorem Live.sendData (h : s.Live) (n now : Nat) : (s.sendData n now).Live := by
  refine ⟨fun _ => rfl, fun _ he => ?_, fun hst => ?_⟩
  · have : s.unacked ++ [(s.takeSend n).2.freshPacket .data (s.takeSend n).1 now] = [] := he
    simp at this
  · show s.sendBuf.drop n = []
    rw [h.finished hst, List.drop_nil]

theorem Live.mtuProbeSendFailed (h : s.Live) (seq : UInt16) (tooBig : Bool) (now : Nat) :
    (s.mtuProbeSendFailed seq tooBig now).Live := by
  have hs : (if tooBig then (s.onMtuProbeLost seq).1
    else if s.mtuProbe.any (fun probe => probe.1 = seq) then { s with mtuProbe := none } else s).Live := by
    split
    · exact h.of_view (liveView_onMtuProbeLost s seq)
    split
    · exact h.of_view rfl
    · exact h
  unfold ConnState.mtuProbeSendFailed
  simp only
  split
  · exact hs.retransmit _ now
  · exact hs

theorem Live.resendLoop (h : s.Live) (burst now fuel sent : Nat) :
    (ConnState.resendLoop burst now fuel s sent).1.Live := by
  induction fuel generalizing s sent with
  | zero => exact h
  | succ fuel ih =>
    unfold ConnState.resendLoop
    split
    · exact h
    split
    · exact h.of_view (liveView_noteCwndBlock s _ now)
    split
    · exact h
    · exact ih (h.retransmit _ now) _

theorem Live.sendLoop (h : s.Live) (burst now fuel sent : Nat) :
    (ConnState.sendLoop burst now fuel s sent).1.Live := by
  induction fuel generalizing s sent with
  | zero => exact h
  | succ fuel ih =>
    unfold ConnState.sendLoop
    split
    · exact h
    split
    · exact ih (h.sendProbe _ now) _
    simp only
    split
    · exact h
    split
    · exact h.of_view (liveView_noteCwndBlock s _ now)
    split
    · exact h
    · exact ih (h.sendData _ now) _

theorem Live.sendNew (h : s.Live) (burst sent : Nat) (paced : Bool) (now : Nat) :
    (s.sendNew burst sent paced now).1.Live := by
  unfold ConnState.sendNew
  split
  · simp only
    refine Live.sendLoop ?_ burst now _ sent
    split
    · exact h
    · exact h.of_view (liveView_maybeReopenMtuSearch s now)
  · exact h

theorem Live.fillSendWindow [F64 F] (h : s.Live) (now : Nat) : (s.fillSendWindow now).Live := by
  unfold ConnState.fillSendWindow
  split
  · exact h
  split
  · exact h
  have hp : ({ s with paceAt := none } : ConnState F).Live := h.of_view rfl
  simp only
  refine Live.of_view ?_ (liveView_armProbe _ now)
  refine Live.of_view ?_ (liveView_notePaced _ _ _ now)
  exact (hp.resendLoop _ now _ 0).sendNew _ _ _ now

theorem Live.maybeSendFin (h : s.Live) (now : Nat) : (s.maybeSendFin now).Live := by
  unfold ConnState.maybeSendFin
  split
  · rename_i hfin
    refine ⟨fun _ => rfl, fun he => (by cases he), fun _ => ?_⟩
    exact List.isEmpty_iff.mp hfin.2.2
  · exact h

/-! ## Acks -/

theorem Live.popAcked [F64 F] (ackNr : UInt16) (now fuel : Nat) (h : s.Live) (hs : s.state ≠ .synSent)
    (bytes : Nat) (any : Bool) : (ConnState.popAcked ackNr now fuel s bytes any).1.Live := by
  induction fuel generalizing s bytes any with
  | zero => exact h
  | succ fuel ih =>
    unfold ConnState.popAcked
    split
    · exact h
    rename_i p rest hu
    split
    · exact h
    -- the timer stays as it is while packets leave the queue
    have hrem : ({ s with unacked := rest }.accountRemoved p).Live ∧
        ({ s with unacked := rest }.accountRemoved p).state ≠ .synSent := by
      have harm : s.rtoBase.isSome = true := h.armed (by rw [hu]; exact List.cons_ne_nil _ _)
      unfold ConnState.accountRemoved
      split
      · exact ⟨⟨fun _ => harm, fun he => absurd he hs, h.finished⟩, hs⟩
      · exact ⟨⟨fun _ => harm, fun he => absurd he hs, h.finished⟩, hs⟩
    split
    · have hv := liveView_sampleAcked ({ s with unacked := rest }.accountRemoved p) p.seqNr (now - p.sentAt)
      refine ih (hrem.1.of_view hv) ?_ _ _
      have hst := congrArg (fun v => v.2.2.1) hv
      exact fun he => hrem.2 (hst.symm.trans he)
    · exact ih hrem.1 hrem.2 _ _

theorem Live.fastRetransmitFront (h : s.Live) (ackNr : UInt16) (now : Nat) :
    (s.fastRetransmitFront ackNr now).Live := by
  unfold ConnState.fastRetransmitFront
  simp only
  split
  · exact h
  split
  · apply Live.retransmit
    have hl := (h.of_view (liveView_setFastResent s 0)).of_view (liveView_onMtuProbeLost (s.setFastResent 0) (ackNr + 1))
    split
    · exact hl
    · exact hl.of_view (liveView_onLoss _)
  · exact h

theorem Live.afterAck (h : s.Live) (hd : UtpHeader) (any : Bool) (now : Nat) : (s.afterAck hd any now).Live := by
  unfold ConnState.afterAck
  split
  · have hv : (ConnState.endRecovery { s with dupAcks := 0 } hd.ackNr).liveView = s.liveView := by
      unfold ConnState.endRecovery
      split
      · split
        · rfl
        · rfl
      · rfl
    have he := h.of_view hv
    refine ⟨fun hne => ?_, he.dialing, he.finished⟩
    simp only
    split
    · rename_i hempty
      exact absurd (List.isEmpty_iff.mp hempty) hne
    · rfl
  split
  · have hdup : ({ s with dupAcks := s.dupAcks + 1 } : ConnState F).Live := h.of_view rfl
    simp only
    split
    · exact hdup.fastRetransmitFront _ now
    · exact hdup
  · exact h

theorem Live.foldl_resend (now : Nat) (lost : List Nat) (h : s.Live) :
    (lost.foldl (fun s idx => (s.setFastResent idx).retransmit idx now) s).Live := by
  induction lost generalizing s with
  | nil => exact h
  | cons idx lost ih => exact ih ((h.of_view (liveView_setFastResent s idx)).retransmit idx now)

theorem Live.resendLost (h : s.Live) (lost : List Nat) (now : Nat) : (s.resendLost lost now).Live := by
  unfold ConnState.resendLost
  split
  · exact h
  simp only
  apply Live.foldl_resend
  have hj : (judgeLost lost s false).1.Live := h.of_view (liveView_judgeLost lost s false)
  split
  · exact hj.of_view (liveView_onLoss _)
  · exact hj

theorem Live.removeSacked [F64 F] (h : s.Live) (hs : s.state ≠ .synSent) (ackNr : UInt16) (mask : List UInt8)
    (now : Nat) : (s.removeSacked ackNr mask now).Live := by
  unfold ConnState.removeSacked
  simp only
  refine Live.of_view ?_ (liveView_foldl_sampleAcked now _ _)
  refine ⟨fun hne => ?_, fun he => absurd he hs, h.finished⟩
  have hall : s.unacked ≠ [] := by
    intro he
    apply hne
    show s.unacked.filter _ = []
    rw [he]
    rfl
  exact h.armed hall

theorem Live.processSelectiveAck [F64 F] (h : s.Live) (hs : s.state ≠ .synSent) (ackNr : UInt16)
    (mask : List UInt8) (now : Nat) : (s.processSelectiveAck ackNr mask now).1.Live := by
  unfold ConnState.processSelectiveAck
  simp only
  split
  · exact h
  · exact (h.removeSacked hs ackNr mask now).resendLost _ now

theorem state_accountRemoved (s : ConnState F) (p : OutPacket) : (s.accountRemoved p).state = s.state := by
  unfold accountRemoved
  split
  · rfl
  · rfl

theorem state_popAcked [F64 F] (ackNr : UInt16) (now fuel : Nat) (s : ConnState F) (bytes : Nat) (any : Bool) :
    (ConnState.popAcked ackNr now fuel s bytes any).1.state = s.state := by
  induction fuel generalizing s bytes any with
  | zero => rfl
  | succ fuel ih =>
    unfold ConnState.popAcked
    split
    · rfl
    rename_i p rest _
    split
    · rfl
    rw [ih]
    split
    · rw [show ∀ t : ConnState F, (t.sampleAcked p.seqNr (now - p.sentAt)).state = t.state from
        fun t => congrArg ConnCore.state (core_sampleAcked t _ _), state_accountRemoved]
    · rw [state_accountRemoved]

theorem state_retransmit (s : ConnState F) (idx now : Nat) : (s.retransmit idx now).state = s.state := (retransmit_spec s idx now).2.1

theorem state_fastRetransmitFront (s : ConnState F) (ackNr : UInt16) (now : Nat) :
    (s.fastRetransmitFront ackNr now).state = s.state := by
  unfold fastRetransmitFront
  simp only
  split
  · rfl
  split
  · rw [state_retransmit]
    have hl : ((s.setFastResent 0).onMtuProbeLost (ackNr + 1)).1.state = s.state :=
      congrArg ConnCore.state (core_onMtuProbeLost (s.setFastResent 0) (ackNr + 1))
    split
    · exact hl
    · rw [show ∀ t : ConnState F, t.onLoss.state = t.state from fun t => congrArg ConnCore.state (core_onLoss t)]
      exact hl
  · rfl

theorem state_processAck [F64 F] (s : ConnState F) (h : UtpHeader) (now : Nat) : (s.processAck h now).1.state = s.state := by
  unfold processAck
  simp only
  have hafter : ∀ (t : ConnState F) (any : Bool), (t.afterAck h any now).state = t.state := by
    intro t any
    unfold afterAck
    split
    · exact congrArg ConnCore.state (core_endRecovery { t with dupAcks := 0 } h.ackNr)
    split
    · simp only
      split
      · exact state_fastRetransmitFront _ _ now
      · rfl
    · rfl
  rw [hafter, state_popAcked]

theorem Live.processAcks [F64 F] (h : s.Live) (hs : s.state ≠ .synSent) (hd : UtpHeader) (now : Nat) :
    (s.processAcks hd now).Live := by
  have hack : (s.processAck hd now).1.Live :=
    ((h.popAcked hd.ackNr now s.unacked.length hs 0 false).afterAck hd _ now).of_view rfl
  unfold ConnState.processAcks
  simp only
  refine Live.of_view ?_ (liveView_updateCwnd _ _ _ now)
  split
  · refine hack.processSelectiveAck ?_ _ _ now
    rw [state_processAck]
    exact hs
  · exact hack

/-! ## Packets, timers and the driver -/

theorem liveView_consume (s : ConnState F) (ty : PacketType) (seq : UInt16) (payload : List UInt8) (now : Nat) :
    (s.consume ty seq payload now).liveView = s.liveView := by
  unfold consume
  simp only
  split
  · rfl
  split
  · rfl
  · rfl

theorem liveView_drainReorder (now fuel : Nat) (s : ConnState F) : (drainReorder now fuel s).liveView = s.liveView := by
  induction fuel generalizing s with
  | zero => rfl
  | succ fuel ih =>
    unfold drainReorder
    simp only
    split
    · rfl
    · rw [ih, liveView_consume]
      rfl

theorem liveView_placePacket (s : ConnState F) (h : UtpHeader) (payload : List UInt8) (now : Nat) :
    (s.placePacket h payload now).liveView = s.liveView := by
  unfold placePacket
  simp only
  split
  · rfl
  split
  · rfl
  split
  · rfl
  split
  · rw [liveView_drainReorder, liveView_consume]
  · have hfin : (s.noteFin h).liveView = s.liveView := by
      unfold noteFin
      split
      · rfl
      · rfl
    unfold bufferPacket insertBuffered
    simp only
    split
    · split
      · exact hfin
      · exact hfin
    · exact hfin

theorem Live.maybeFinish (h : s.Live) (now : Nat) : (s.maybeFinish now).Live := by
  unfold ConnState.maybeFinish
  split
  · rename_i hfin
    split
    · exact live_closed rfl (List.isEmpty_iff.mp hfin.2)
    · exact h.of_view rfl
  · exact h

theorem Live.acceptPacket [F64 F] (h : s.Live) (hd : UtpHeader) (hs : s.state = .synSent → hd.packetType = .state)
    (payload : List UInt8) (now : Nat) : (s.acceptPacket hd payload now).Live := by
  have hpeer : (s.notePeer hd now).Live := h.of_view rfl
  have hconn : ((s.notePeer hd now).connectOn hd).Live ∧ ((s.notePeer hd now).connectOn hd).state ≠ .synSent := by
    unfold ConnState.connectOn
    split
    · exact ⟨⟨hpeer.armed, fun he => (by cases he), fun he => (by cases he)⟩, fun he => (by cases he)⟩
    · rename_i hnot
      exact ⟨hpeer, fun he => hnot ⟨he, hs he⟩⟩
  have hacks := hconn.1.processAcks hconn.2 hd now
  unfold ConnState.acceptPacket
  simp only
  refine Live.maybeFinish (Live.of_view ?_ (liveView_noteEof _)) now
  have hwrite : (if (((s.notePeer hd now).connectOn hd).processAcks hd now).unacked.length <
      ((s.notePeer hd now).connectOn hd).unacked.length
      then (((s.notePeer hd now).connectOn hd).processAcks hd now).notifyWrite
      else ((s.notePeer hd now).connectOn hd).processAcks hd now).Live := by
    split
    · exact hacks.of_view rfl
    · exact hacks
  split
  · exact hwrite.of_view (liveView_placePacket _ hd _ now)
  · exact hwrite.of_view (liveView_placePacket _ hd _ now)
  · exact hwrite
  · exact hwrite
  · exact hwrite

theorem Live.handlePacket [F64 F] (h : s.Live) (hd : UtpHeader) (payload : List UInt8) (now : Nat) :
    (s.handlePacket hd payload now).Live := by
  unfold ConnState.handlePacket
  split
  · exact h
  split
  · split
    · exact live_closed rfl rfl
    · exact h
  split
  · split
    · exact h.of_view rfl
    · exact h
  split
  · exact h
  rename_i hsyn
  split
  · exact h
  split
  · exact h
  · refine h.acceptPacket hd (fun he => ?_) payload now
    by_contra hne
    exact hsyn ⟨he, hne⟩

theorem Live.abort (h : s.Live) (now : Nat) : (s.abort now).Live := by
  unfold ConnState.abort
  split
  · exact h
  · exact live_closed rfl rfl

theorem Live.checkRto (h : s.Live) (now : Nat) : (s.checkRto now).Live := by
  unfold ConnState.checkRto
  split
  · exact h
  split
  · rename_i hu
    exact ⟨fun hne => absurd hu hne, h.dialing, h.finished⟩
  split
  · exact h
  rename_i front rest hu _
  unfold ConnState.rtoExpired
  split
  · exact live_closed rfl rfl
  have hpos : 0 < s.unacked.length := by
    rw [hu]
    exact Nat.succ_pos _
  split
  · simp only
    have hl := h.of_view (liveView_onMtuProbeLost s front.seqNr)
    have hlen : (s.onMtuProbeLost front.seqNr).1.unacked = s.unacked :=
      congrArg ConnCore.unacked (core_onMtuProbeLost s front.seqNr)
    refine Live.retransmit_of (fun _ => Or.inr ?_) ?_ ?_ now
    · show 0 < (s.onMtuProbeLost front.seqNr).1.unacked.length
      rw [hlen]
      exact hpos
    · exact hl.dialing
    · exact hl.finished
  · unfold ConnState.onTimeout
    refine Live.retransmit_of (fun _ => Or.inr ?_) ?_ ?_ now
    · show 0 < (s.unacked.map OutPacket.markLost).length
      rw [List.length_map]
      exact hpos
    · intro he hnil
      exact h.dialing he (List.map_eq_nil_iff.mp hnil)
    · exact h.finished

theorem Live.checkTimers (h : s.Live) (now : Nat) : (s.checkTimers now).Live := by
  unfold ConnState.checkTimers
  split
  · exact h.abort now
  have hp := h.of_view (liveView_checkProbe s now)
  simp only
  split
  · exact ⟨hp.armed, fun he => (by cases he), fun he => (by cases he)⟩
  · exact hp.checkRto now

theorem Live.handOff (h : s.Live) (waiting : Bool) (now : Nat) : (s.handOff waiting now).1.Live := by
  unfold ConnState.handOff
  split
  · exact h
  split
  · exact h
  split
  · exact h.of_view rfl
  simp only
  split
  · exact h.abort now
  · exact h

theorem Live.sendOwedAck (h : s.Live) (now : Nat) : (s.sendOwedAck now).Live := by
  unfold ConnState.sendOwedAck
  split
  · exact h.of_view rfl
  · exact h

theorem Live.driveTail [F64 F] (h : s.Live) (waiting : Bool) (now : Nat) : (s.driveTail waiting now).1.Live :=
  (((((h.fillSendWindow now).maybeSendFin now).fillSendWindow now).handOff waiting now).sendOwedAck now).maybeFinish now

theorem Live.pollRead (h : s.Live) (n : Nat) : (s.pollRead n).1.Live := by
  unfold ConnState.pollRead
  split
  · have hr : ({ s with recvReady := s.recvReady.drop n } : ConnState F).Live := h.of_view rfl
    exact hr.of_view (liveView_noteWindowUpdate _)
  split
  · exact h
  split
  · exact h
  · exact h.of_view rfl

theorem Live.pollWrite (h : s.Live) (data : List UInt8) : (s.pollWrite data).1.Live := by
  unfold ConnState.pollWrite
  split
  · exact h
  split
  · exact h
  rename_i hopen
  simp only
  split
  · exact h.of_view rfl
  · exact ⟨h.armed, h.dialing, fun he => absurd (.inl he) hopen⟩

theorem Live.pollFlush (h : s.Live) : s.pollFlush.1.Live := by
  unfold ConnState.pollFlush
  split
  · exact h
  split
  · exact h
  · exact h.of_view rfl

theorem Live.pollShutdown (h : s.Live) : s.pollShutdown.1.Live := by
  unfold ConnState.pollShutdown
  split
  · exact h
  split
  · exact h
  simp only
  split
  · exact h.of_view rfl
  · exact h.of_view rfl

theorem Live.dropStream (h : s.Live) (now : Nat) : (s.dropStream now).Live := by
  have hd : ∀ t : ConnState F, t.Live → (t.dropReader now).Live := fun t ht => ht.of_view rfl
  unfold ConnState.dropStream
  apply hd
  split
  · exact h.abort now
  · exact h

theorem Live.sendFailed (h : s.Live) (recoverable : Bool) (kind : ErrorKind) (pending : List (List UInt8))
    (now : Nat) : (s.sendFailed recoverable kind pending now).Live := by
  have hretry : (s.retryFailedDatagrams pending now).1.Live := by
    unfold ConnState.retryFailedDatagrams ConnState.scheduleSendRetry
    by_cases hr : s.sendRetryCount ≥ maxSendRetries
    · simp only [if_pos hr, Bool.false_eq_true, if_false]
      exact h
    · simp only [if_neg hr, if_true]
      exact h.of_view rfl
  unfold ConnState.sendFailed
  split
  · simp only
    split
    · exact hretry
    · exact live_closed rfl rfl
  · exact live_closed rfl rfl

theorem Live.takeProbe (h : s.Live) (now : Nat) : (s.takeProbe now).1.Live := by
  unfold ConnState.takeProbe
  split
  · exact h
  · exact h.of_view rfl

/-- Every step keeps the timers set. -/
theorem Live.apply [F64 F] (h : s.Live) (now : Nat) {op : ConnOp} (hop : op.Driven) : (op.apply s now).Live := by
  cases op with
  | seedResponder syn => exact h.of_view rfl
  | startInitiator pmtud isn =>
    refine ⟨fun _ => rfl, fun _ he => ?_, h.finished⟩
    have : s.unacked ++ [synPacket isn now] = [] := he
    simp at this
  | startResponder pmtud => exact h.of_view rfl
  | pollRead n => exact h.pollRead n
  | pollWrite data => exact h.pollWrite data
  | pollFlush => exact h.pollFlush
  | pollShutdown => exact h.pollShutdown
  | armAbortOnDrop armed => exact h.of_view rfl
  | dropStream => exact h.dropStream now
  | handlePacket hd payload => exact h.handlePacket hd payload now
  | nudge => exact h.of_view (liveView_noteWindowUpdate s)
  | checkTimers => exact h.checkTimers now
  | fillSendWindow => exact h.fillSendWindow now
  | maybeSendFin => exact h.maybeSendFin now
  | handOff waiting => exact h.handOff waiting now
  | sendOwedAck => exact h.sendOwedAck now
  | driveTail waiting => exact h.driveTail waiting now
  | maybeFinish => exact h.maybeFinish now
  | transmitProbe payload => exact hop.elim
  | retransmit idx => exact h.retransmit idx now
  | takeProbe => exact h.takeProbe now
  | mtuProbeSendFailed seq tooBig => exact h.mtuProbeSendFailed seq tooBig now
  | takeOutbox => exact h.of_view rfl
  | sendFailed recoverable kind pending => exact h.sendFailed recoverable kind pending now
  | recordSendSuccess => exact h.of_view rfl
  | fail kind => exact live_closed rfl rfl
  | abort => exact h.abort now
  | forceClose => exact live_closed rfl rfl

/-! ## What stops the sender -/

theorem sendBuf_maybeReopenMtuSearch (s : ConnState F) (now : Nat) : (s.maybeReopenMtuSearch now).sendBuf = s.sendBuf :=
  congrArg (fun v => v.2.2.2) (liveView_maybeReopenMtuSearch s now)

theorem inFlight_maybeReopenMtuSearch (s : ConnState F) (now : Nat) : (s.maybeReopenMtuSearch now).inFlight = s.inFlight :=
  congrArg ConnCore.inFlight (core_maybeReopenMtuSearch s now)

theorem probeDue_maybeReopenMtuSearch (s : ConnState F) (now : Nat) : (s.maybeReopenMtuSearch now).probeDue = s.probeDue := by
  unfold maybeReopenMtuSearch
  split
  · rfl
  split
  · rfl
  · rfl

theorem unacked_sendLoop (burst now fuel : Nat) (s : ConnState F) (sent : Nat) :
    s.unacked <+: (sendLoop burst now fuel s sent).1.unacked := by
  induction fuel generalizing s sent with
  | zero => exact List.prefix_rfl
  | succ fuel ih =>
    unfold sendLoop
    split
    · exact List.prefix_rfl
    split
    · exact (List.prefix_append _ _).trans (ih (s.sendProbe s.probePayload now) (sent + 1))
    simp only
    split
    · exact List.prefix_rfl
    split
    · rw [show (s.noteCwndBlock _ now).unacked = s.unacked from congrArg ConnCore.unacked (core_noteCwndBlock s _ now)]
    split
    · exact List.prefix_rfl
    · exact (List.prefix_append _ _).trans (ih (s.sendData (min s.sendBuf.length s.packetSize) now) (sent + 1))

theorem sendLoop_takes (burst now fuel : Nat) (s : ConnState F) (sent : Nat) :
    (sendLoop burst now fuel s sent).1.state = s.state ∧ (sendLoop burst now fuel s sent).1.sendBuf <:+ s.sendBuf := by
  induction fuel generalizing s sent with
  | zero => exact ⟨rfl, List.suffix_rfl⟩
  | succ fuel ih =>
    unfold sendLoop
    split
    · exact ⟨rfl, List.suffix_rfl⟩
    split
    · obtain ⟨hst, hbuf⟩ := ih (s.sendProbe s.probePayload now) (sent + 1)
      exact ⟨hst, hbuf.trans (List.drop_suffix s.probePayload s.sendBuf)⟩
    simp only
    split
    · exact ⟨rfl, List.suffix_rfl⟩
    split
    · have hv := liveView_noteCwndBlock s (min s.sendBuf.length s.packetSize) now
      have hbuf : (s.noteCwndBlock (min s.sendBuf.length s.packetSize) now).sendBuf = s.sendBuf := congrArg (fun v => v.2.2.2) hv
      refine ⟨congrArg (fun v => v.2.2.1) hv, ?_⟩
      rw [hbuf]
    split
    · exact ⟨rfl, List.suffix_rfl⟩
    · obtain ⟨hst, hbuf⟩ := ih (s.sendData (min s.sendBuf.length s.packetSize) now) (sent + 1)
      exact ⟨hst, hbuf.trans (List.drop_suffix (min s.sendBuf.length s.packetSize) s.sendBuf)⟩

theorem sendNew_takes (s : ConnState F) (burst sent : Nat) (paced : Bool) (now : Nat) :
    (s.sendNew burst sent paced now).1.state = s.state ∧ (s.sendNew burst sent paced now).1.sendBuf <:+ s.sendBuf := by
  unfold sendNew
  split
  · simp only
    split
    · exact sendLoop_takes burst now _ s sent
    · obtain ⟨hst, hbuf⟩ := sendLoop_takes burst now (s.maybeReopenMtuSearch now).sendBuf.length (s.maybeReopenMtuSearch now) sent
      have hv := liveView_maybeReopenMtuSearch s now
      exact ⟨hst.trans (congrArg (fun v => v.2.2.1) hv), sendBuf_maybeReopenMtuSearch s now ▸ hbuf⟩
  · exact ⟨rfl, List.suffix_rfl⟩

theorem resendLoop_takes (burst now fuel : Nat) (s : ConnState F) (sent : Nat) :
    (resendLoop burst now fuel s sent).1.state = s.state ∧ (resendLoop burst now fuel s sent).1.sendBuf = s.sendBuf := by
  induction fuel generalizing s sent with
  | zero => exact ⟨rfl, rfl⟩
  | succ fuel ih =>
    unfold resendLoop
    split
    · exact ⟨rfl, rfl⟩
    split
    · rename_i idx _ _
      have hv := liveView_noteCwndBlock s (s.queuedLen idx) now
      exact ⟨congrArg (fun v => v.2.2.1) hv, congrArg (fun v => v.2.2.2) hv⟩
    split
    · exact ⟨rfl, rfl⟩
    · rename_i idx _ _ _
      obtain ⟨hst, hbuf⟩ := ih (s.retransmit idx now) (sent + 1)
      obtain ⟨_, hst', hbuf', _⟩ := retransmit_spec s idx now
      exact ⟨hst.trans hst', hbuf.trans hbuf'⟩

theorem unacked_sendNew (s : ConnState F) (burst sent : Nat) (paced : Bool) (now : Nat) :
    s.unacked <+: (s.sendNew burst sent paced now).1.unacked := by
  unfold sendNew
  split
  · simp only
    split
    · exact unacked_sendLoop burst now _ s sent
    · have hpre := unacked_sendLoop burst now (s.maybeReopenMtuSearch now).sendBuf.length (s.maybeReopenMtuSearch now) sent
      rwa [show (s.maybeReopenMtuSearch now).unacked = s.unacked from
        congrArg ConnCore.unacked (core_maybeReopenMtuSearch s now)] at hpre
  · exact List.prefix_rfl

/-- A loop that sends nothing although there are bytes to send, with nothing in flight and room in the burst, was stopped by
the peer's window. -/
theorem sendLoop_blocked (hflight : s.inFlight = 0) (hburst : 0 < burst) (now fuel : Nat)
    (hbuf : s.sendBuf ≠ []) (hun : (sendLoop burst now (fuel + 1) s 0).1.unacked = []) :
    s.probeDue = false ∧ sendLoop burst now (fuel + 1) s 0 = (s, false) := by
  have hpush : ∀ (s' : ConnState F) (p : OutPacket) (sent : Nat), s'.unacked = s.unacked ++ [p] →
      (sendLoop burst now fuel s' sent).1.unacked ≠ [] := by
    intro s' p sent hs' he
    have hpre := unacked_sendLoop burst now fuel s' sent
    rw [he, hs', List.prefix_nil] at hpre
    simp at hpre
  unfold sendLoop at hun ⊢
  rw [if_neg (by simpa using hbuf)] at hun ⊢
  split at hun
  · exact absurd hun (hpush _ _ _ rfl)
  rename_i hprobe
  rw [if_neg hprobe]
  simp only at hun ⊢
  rw [if_neg (by simp [bytesInFlight, hflight])] at hun ⊢
  split at hun
  · rename_i hmay
    rw [if_pos hmay]
    have hdue : s.probeDue = false := by
      cases hd : s.probeDue with
      | false => rfl
      | true => simp [maySend, bytesInFlight, hflight, hd] at hmay
    refine ⟨hdue, ?_⟩
    unfold noteCwndBlock
    rw [if_neg (by omega)]
  · rename_i hmay
    rw [if_neg (by omega)] at hun
    exact absurd hun (hpush _ _ _ rfl)

theorem burstLimit_pos [F64 F] (s : ConnState F) : 0 < s.burstLimit := by
  unfold burstLimit
  split
  · decide
  · exact lt_of_lt_of_le (by decide) (le_max_right _ _)

theorem length_resendLoop (burst now fuel : Nat) (s : ConnState F) (sent : Nat) :
    (resendLoop burst now fuel s sent).1.unacked.length = s.unacked.length := by
  induction fuel generalizing s sent with
  | zero => rfl
  | succ fuel ih =>
    unfold resendLoop
    split
    · rfl
    split
    · exact congrArg (fun c => c.unacked.length) (core_noteCwndBlock s _ now)
    split
    · rfl
    rw [ih]
    unfold retransmit markResent
    split
    · rfl
    simp only
    split
    · exact List.length_set
    · exact List.length_set

/-- With nothing unacked there is nothing to resend. -/
theorem resendLoop_nil (burst now fuel : Nat) (hun : s.unacked = []) (sent : Nat) :
    resendLoop burst now fuel s sent = (s, sent, false) := by
  cases fuel with
  | zero => rfl
  | succ fuel =>
    unfold resendLoop
    rw [hun]
    rfl

theorem unacked_notePaced [F64 F] (s : ConnState F) (burst : Nat) (paced : Bool) (now : Nat) :
    (s.notePaced burst paced now).unacked = s.unacked := by
  unfold notePaced
  split
  · rfl
  · rfl

theorem unacked_armProbe (s : ConnState F) (now : Nat) : (s.armProbe now).unacked = s.unacked := by
  unfold armProbe
  simp only
  split
  · rfl
  · rfl

/-- When there is something to send, nothing in flight and no probe due, a probe is armed. -/
theorem armProbe_armed (hbuf : s.sendBuf ≠ []) (hflight : s.inFlight = 0) (hdue : s.probeDue = false)
    (now : Nat) : (s.armProbe now).probeAt.isSome = true := by
  have hblocked : (!s.sendBuf.isEmpty) = true := by simpa using hbuf
  unfold armProbe
  cases hp : s.probeAt with
  | none => simp [hblocked, bytesInFlight, hflight, hdue]
  | some at_ => simp [hp]

/-- New packets are stopped by the peer's window only, when nothing is in flight or waits to be resent. -/
theorem sendNew_blocked (hst : s.state = .connected) (hflight : s.inFlight = 0) (hburst : 0 < burst)
    (now : Nat) (hbuf : s.sendBuf ≠ []) (hun : (s.sendNew burst 0 false now).1.unacked = []) :
    s.probeDue = false ∧ s.sendNew burst 0 false now = (s.maybeReopenMtuSearch now, false) := by
  have hempty : s.sendBuf.isEmpty = false := by simpa using hbuf
  have hlen : ∃ n, (s.maybeReopenMtuSearch now).sendBuf.length = n + 1 := by
    rw [sendBuf_maybeReopenMtuSearch]
    exact ⟨s.sendBuf.length - 1, by have := List.length_pos_iff.mpr hbuf; omega⟩
  obtain ⟨n, hn⟩ := hlen
  have hrun : s.sendNew burst 0 false now = sendLoop burst now (n + 1) (s.maybeReopenMtuSearch now) 0 := by
    unfold sendNew
    simp [hst, hempty, hn]
  rw [hrun] at hun ⊢
  have hbuf' : (s.maybeReopenMtuSearch now).sendBuf ≠ [] := by
    intro he
    rw [he] at hn
    cases hn
  obtain ⟨hdue, hsame⟩ := sendLoop_blocked ((inFlight_maybeReopenMtuSearch s now).trans hflight) hburst now n hbuf' hun
  exact ⟨(probeDue_maybeReopenMtuSearch s now).symm.trans hdue, hsame⟩

/-- What `fill_send_window` does when it is not waiting for its pacing. -/
def fillBurst [F64 F] (s : ConnState F) (burst now : Nat) : ConnState F :=
  let (s, sent, paced) := resendLoop burst now s.resendCount s 0
  let (s, paced) := s.sendNew burst sent paced now
  (s.notePaced burst paced now).armProbe now

theorem fillSendWindow_eq [F64 F] (s : ConnState F) (now : Nat) :
    s.fillSendWindow now =
      if s.state = .synSent ∨ s.state = .closed then s
      else if s.paceAt.any (fun at_ => now < at_) then s
      else { s with paceAt := none }.fillBurst { s with paceAt := none }.burstLimit now :=
  rfl

/-- The state of a connection that has nothing unacked after a burst: the burst changed nothing but the probe timer. -/
theorem fillBurst_nil [F64 F] (hc : s.Counted) (hburst : 0 < burst) (now : Nat)
    (hst : s.state = .connected) (hbuf : s.sendBuf ≠ []) (hun : (s.fillBurst burst now).unacked = []) :
    (s.fillBurst burst now).probeAt.isSome = true := by
  unfold fillBurst at hun ⊢
  simp only at hun ⊢
  rw [unacked_armProbe, unacked_notePaced] at hun
  -- the queue was empty from the start, so that nothing is in flight and nothing waits to be resent
  have hpre := unacked_sendNew (resendLoop burst now s.resendCount s 0).1 burst (resendLoop burst now s.resendCount s 0).2.1
    (resendLoop burst now s.resendCount s 0).2.2 now
  rw [hun, List.prefix_nil, ← List.length_eq_zero_iff, length_resendLoop, List.length_eq_zero_iff] at hpre
  have hflight : s.inFlight = 0 := by
    rw [hc.inFlight, hpre]
    rfl
  rw [resendLoop_nil _ _ _ hpre] at hun ⊢
  obtain ⟨hdue, hsame⟩ := sendNew_blocked hst hflight hburst now hbuf hun
  rw [hsame]
  have hbuf' : (s.maybeReopenMtuSearch now).sendBuf ≠ [] := by
    rw [sendBuf_maybeReopenMtuSearch]
    exact hbuf
  exact armProbe_armed hbuf' ((inFlight_maybeReopenMtuSearch s now).trans hflight)
    ((probeDue_maybeReopenMtuSearch s now).trans hdue) now

/-- A burst keeps the state and only takes from the send buffer. -/
theorem fillBurst_takes [F64 F] (s : ConnState F) (burst now : Nat) :
    (s.fillBurst burst now).state = s.state ∧ (s.fillBurst burst now).sendBuf <:+ s.sendBuf := by
  unfold fillBurst
  simp only
  have hprobe : ∀ t : ConnState F, (t.armProbe now).state = t.state ∧ (t.armProbe now).sendBuf = t.sendBuf := by
    intro t
    have hv := liveView_armProbe t now
    exact ⟨congrArg (fun v => v.2.2.1) hv, congrArg (fun v => v.2.2.2) hv⟩
  have hpaced : ∀ (t : ConnState F) paced, (t.notePaced burst paced now).state = t.state ∧
      (t.notePaced burst paced now).sendBuf = t.sendBuf := by
    intro t paced
    have hv := liveView_notePaced t burst paced now
    exact ⟨congrArg (fun v => v.2.2.1) hv, congrArg (fun v => v.2.2.2) hv⟩
  rw [(hprobe _).1, (hprobe _).2, (hpaced _ _).1, (hpaced _ _).2]
  obtain ⟨hst, hbuf⟩ := resendLoop_takes burst now s.resendCount s 0
  obtain ⟨hst', hbuf'⟩ := sendNew_takes (resendLoop burst now s.resendCount s 0).1 burst
    (resendLoop burst now s.resendCount s 0).2.1 (resendLoop burst now s.resendCount s 0).2.2 now
  exact ⟨hst'.trans hst, hbuf ▸ hbuf'⟩

/-- After `fill_send_window` an open connection with bytes to send and nothing unacked waits for its zero-window probe or for
its pacing. -/
theorem fillSendWindow_waits [F64 F] (hc : s.Counted) (hl : s.Live) (now : Nat)
    (hst : (s.fillSendWindow now).state ≠ .closed) (hbuf : (s.fillSendWindow now).sendBuf ≠ [])
    (hun : (s.fillSendWindow now).unacked = []) :
    (s.fillSendWindow now).state = .connected ∧
      ((s.fillSendWindow now).probeAt.isSome = true ∨ (s.fillSendWindow now).paceAt.isSome = true) := by
  have hl' := hl.fillSendWindow now
  have hconn : (s.fillSendWindow now).state = .connected := by
    cases hs : (s.fillSendWindow now).state with
    | synSent => exact absurd hun (hl'.dialing hs)
    | connected => rfl
    | finSent => exact absurd (hl'.finished hs) hbuf
    | closed => exact absurd hs hst
  refine ⟨hconn, ?_⟩
  rw [fillSendWindow_eq] at hconn hbuf hun ⊢
  split at hun
  · rename_i hs
    rw [if_pos hs] at hconn
    rcases hs with hs | hs
    · rw [hs] at hconn
      cases hconn
    · rw [hs] at hconn
      cases hconn
  rename_i hs
  rw [if_neg hs] at hconn hbuf ⊢
  split at hun
  · rename_i hpace
    rw [if_pos hpace]
    right
    cases hp : s.paceAt with
    | none =>
      rw [hp] at hpace
      cases hpace
    | some at_ => rfl
  rename_i hpace
  rw [if_neg hpace] at hconn hbuf ⊢
  left
  obtain ⟨hkeep, hbuf'⟩ := fillBurst_takes { s with paceAt := none } { s with paceAt := none }.burstLimit now
  have hc' : ({ s with paceAt := none } : ConnState F).Counted := hc.of_core rfl
  refine fillBurst_nil hc' (burstLimit_pos _) now (hkeep.symm.trans hconn) (fun he => ?_) hun
  exact hbuf (List.suffix_nil.mp (hbuf'.trans (List.suffix_nil.mpr he)))

end ConnState

end Risuko
