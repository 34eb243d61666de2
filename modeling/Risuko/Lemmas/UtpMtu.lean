import Risuko.Lemmas.UtpCore
import Risuko.Lemmas.UtpPacket
import Risuko.Lib.Lists

/-!
# The path MTU search

`MtuOk` says that the bounds of the search are in order, that packets are sized by the lower one and that a probe in flight
lies between them. Every function keeps it, and between two reopenings every resolved probe brings the bounds closer
(`Searches`).
-/

namespace Risuko

namespace ConnState

variable {F : Type}

/-- The datagram sizes of both address families. -/
theorem datagram_bounds (remote : SocketAddr) :
    548 ≤ remote.minDatagram ∧ remote.minDatagram ≤ remote.initialDatagram ∧ remote.initialDatagram ≤ remote.maxDatagram := by
  unfold SocketAddr.minDatagram SocketAddr.initialDatagram SocketAddr.maxDatagram
  cases remote.isIpv6 with
  | false => decide
  | true => decide

/-- The bounds of the MTU search are in order, packets are sized by the lower one, and a probe lies between them. -/
structure MtuOk (s : ConnState F) : Prop where
  floor : s.remote.minDatagram ≤ s.mtuFloor
  order : s.mtuFloor ≤ s.mtuCeiling
  ceiling : s.mtuCeiling ≤ s.remote.maxDatagram
  packetSize : s.packetSize = s.mtuFloor - utpOverhead
  probe : ∀ seq size, s.mtuProbe = some (seq, size) → s.mtuFloor < size ∧ size ≤ s.mtuCeiling

/-- How far apart the bounds are. -/
def mtuGap (s : ConnState F) : Nat := s.mtuCeiling - s.mtuFloor

/-- What a function does to the search: the bounds stay in order, and unless the search is reopened every resolved probe
narrows them. -/
structure Searches (s s' : ConnState F) : Prop where
  ok : s.MtuOk → s'.MtuOk
  remote : s'.remote = s.remote
  reopened : s.searchesReopened ≤ s'.searchesReopened
  narrows : s.MtuOk → s'.searchesReopened = s.searchesReopened →
    s'.probesResolved + s'.mtuGap ≤ s.probesResolved + s.mtuGap

theorem Searches.refl (s : ConnState F) : Searches s s := ⟨id, rfl, le_refl _, fun _ _ => le_refl _⟩

theorem Searches.trans {s s' s'' : ConnState F} (h : Searches s s') (h' : Searches s' s'') : Searches s s'' := by
  refine ⟨fun hs => h'.ok (h.ok hs), h'.remote.trans h.remote, h.reopened.trans h'.reopened, fun hs he => ?_⟩
  have h1 := h.reopened
  have h2 := h'.reopened
  exact (h'.narrows (h.ok hs) (by omega)).trans (h.narrows hs (by omega))

/-- The fields of the search. -/
def mtuView (s : ConnState F) : SocketAddr × Nat × Nat × Nat × Option (UInt16 × Nat) × Nat × Nat :=
  (s.remote, s.packetSize, s.mtuFloor, s.mtuCeiling, s.mtuProbe, s.probesResolved, s.searchesReopened)

/-- A function that leaves the fields of the search alone. -/
theorem Searches.of_view {s s' : ConnState F} (h : s'.mtuView = s.mtuView) : Searches s s' := by
  simp only [mtuView, Prod.mk.injEq] at h
  obtain ⟨hr, hp, hf, hc, hm, hres, hreo⟩ := h
  refine ⟨fun hs => ⟨?_, ?_, ?_, ?_, ?_⟩, hr, hreo.ge, fun _ _ => ?_⟩
  · rw [hr, hf]
    exact hs.floor
  · rw [hf, hc]
    exact hs.order
  · rw [hr, hc]
    exact hs.ceiling
  · rw [hp, hf]
    exact hs.packetSize
  · rw [hm, hf, hc]
    exact hs.probe
  · rw [hres, mtuGap, mtuGap, hf, hc]

/-- A function that comes after one that leaves the fields of the search alone. -/
theorem Searches.after {s s' s'' : ConnState F} (h : Searches s' s'') (hv : s'.mtuView = s.mtuView) : Searches s s'' :=
  (Searches.of_view hv).trans h

/-- Forgetting the probe. -/
theorem Searches.of_forget {s s' : ConnState F} (h : s'.mtuView = { s with mtuProbe := none }.mtuView) : Searches s s' := by
  simp only [mtuView, Prod.mk.injEq] at h
  obtain ⟨hr, hp, hf, hc, hm, hres, hreo⟩ := h
  refine ⟨fun hs => ⟨?_, ?_, ?_, ?_, ?_⟩, hr, hreo.ge, fun _ _ => ?_⟩
  · rw [hr, hf]
    exact hs.floor
  · rw [hf, hc]
    exact hs.order
  · rw [hr, hc]
    exact hs.ceiling
  · rw [hp, hf]
    exact hs.packetSize
  · intro seq size he
    rw [hm] at he
    cases he
  · rw [hres, mtuGap, mtuGap, hf, hc]

/-! ## Probes -/

theorem searches_onMtuProbeAcked (s : ConnState F) (seq : UInt16) : Searches s (s.onMtuProbeAcked seq) := by
  unfold onMtuProbeAcked
  split
  · rename_i probe size hprobe
    split
    · unfold updateMtuLimits raiseMtuCeiling setMtuFloor
      simp only
      by_cases hgt : max s.mtuFloor size > s.mtuCeiling
      · -- an acked probe above the ceiling cannot happen while the bounds are in order
        rw [if_pos hgt]
        refine ⟨fun hs => ?_, rfl, le_refl _, fun hs _ => ?_⟩
        · have := hs.probe probe size hprobe
          have := hs.order
          omega
        · have := hs.probe probe size hprobe
          have := hs.order
          omega
      · rw [if_neg hgt]
        refine ⟨fun hs => ⟨?_, ?_, hs.ceiling, rfl, fun _ _ he => (by cases he)⟩, rfl, le_refl _, fun hs _ => ?_⟩
        · exact hs.floor.trans (le_max_left _ _)
        · exact not_lt.mp hgt
        · have := hs.probe probe size hprobe
          show s.probesResolved + 1 + (s.mtuCeiling - max s.mtuFloor size) ≤ s.probesResolved + (s.mtuCeiling - s.mtuFloor)
          omega
    · exact Searches.refl s
  · exact Searches.refl s

theorem searches_onMtuProbeLost (s : ConnState F) (seq : UInt16) : Searches s (s.onMtuProbeLost seq).1 := by
  unfold onMtuProbeLost
  split
  · rename_i probe size hprobe
    split
    · exact Searches.of_forget rfl
    split
    · unfold updateMtuLimits raiseMtuCeiling setMtuFloor
      simp only
      by_cases hgt : s.mtuFloor > size - 1
      · rw [if_pos hgt]
        refine ⟨fun hs => ?_, rfl, le_refl _, fun hs _ => ?_⟩
        · have := hs.probe probe size hprobe
          omega
        · have := hs.probe probe size hprobe
          omega
      · rw [if_neg hgt]
        refine ⟨fun hs => ⟨hs.floor, not_lt.mp hgt, ?_, hs.packetSize, fun _ _ he => (by cases he)⟩, rfl, le_refl _, fun hs _ => ?_⟩
        · have := hs.probe probe size hprobe
          have := hs.ceiling
          show size - 1 ≤ s.remote.maxDatagram
          omega
        · have := hs.probe probe size hprobe
          show s.probesResolved + 1 + (size - 1 - s.mtuFloor) ≤ s.probesResolved + (s.mtuCeiling - s.mtuFloor)
          omega
    · exact Searches.refl s
  · exact Searches.refl s

theorem searches_maybeReopenMtuSearch (s : ConnState F) (now : Nat) : Searches s (s.maybeReopenMtuSearch now) := by
  unfold maybeReopenMtuSearch
  split
  · exact Searches.refl s
  split
  · refine ⟨fun hs => ⟨hs.floor, hs.order.trans (le_max_left _ _), ?_, hs.packetSize, fun seq size he => ?_⟩, rfl, ?_,
      fun _ he => ?_⟩
    · exact max_le hs.ceiling (le_refl _)
    · have := hs.probe seq size he
      exact ⟨this.1, this.2.trans (le_max_left _ _)⟩
    · exact Nat.le_succ _
    · have : s.searchesReopened + 1 = s.searchesReopened := he
      omega
  · exact Searches.refl s

/-- The datagram size that the next probe tests. -/
theorem probePayload_add {s : ConnState F} (h : s.MtuOk) (hp : s.shouldProbe = true) :
    headerLen + s.sackBytes + s.probePayload = (s.mtuFloor + s.mtuCeiling) / 2 ∧ s.mtuFloor < (s.mtuFloor + s.mtuCeiling) / 2 := by
  have hsack := s.sackBytes_le
  have hfloor := h.floor
  have hmin := (datagram_bounds s.remote).1
  unfold shouldProbe at hp
  simp only [Bool.and_eq_true, decide_eq_true_eq] at hp
  have hgap := hp.1.2
  have hpay : s.probePayload = (s.mtuFloor + s.mtuCeiling) / 2 - headerLen - s.sackBytes := rfl
  unfold mtuSearchGranularity at hgap
  unfold maxSackBytes at hsack
  rw [hpay]
  unfold headerLen
  omega

theorem mtuView_takeSend (s : ConnState F) (n : Nat) : (s.takeSend n).2.mtuView = s.mtuView := rfl

theorem searches_transmitProbe {s : ConnState F} {payload : List UInt8}
    (h : s.MtuOk → s.mtuFloor < headerLen + s.sackBytes + payload.length ∧ headerLen + s.sackBytes + payload.length ≤ s.mtuCeiling) (now : Nat) :
    Searches s (s.transmitProbe payload now) := by
  refine ⟨fun hs => ⟨hs.floor, hs.order, hs.ceiling, hs.packetSize, fun seq size he => ?_⟩, rfl, le_refl _, fun _ _ => le_refl _⟩
  have hsome : some (s.seqNr, (s.encode (s.freshPacket .data payload now) now).length) = some (seq, size) := he
  rw [length_encode] at hsome
  cases hsome
  exact h hs

/-- A probe tests a size between the bounds. -/
theorem searches_sendProbe {s : ConnState F} (hp : s.shouldProbe = true) (hlen : s.probePayload ≤ s.sendBuf.length) (now : Nat) :
    Searches s (s.sendProbe s.probePayload now) := by
  refine Searches.after (searches_transmitProbe (fun htaken => ?_) now) (mtuView_takeSend s s.probePayload)
  have hs : s.MtuOk := ⟨htaken.floor, htaken.order, htaken.ceiling, htaken.packetSize, htaken.probe⟩
  have hlen' : ((s.takeSend s.probePayload).1).length = s.probePayload := by
    rw [takeSend, List.length_take]
    omega
  obtain ⟨hsize, hlt⟩ := probePayload_add hs hp
  rw [hlen']
  show s.mtuFloor < headerLen + s.sackBytes + s.probePayload ∧ headerLen + s.sackBytes + s.probePayload ≤ s.mtuCeiling
  have := hs.order
  omega

/-! ## Sending and acks -/

theorem mtuView_markResent (s : ConnState F) (idx : Nat) (p : OutPacket) (now : Nat) :
    (s.markResent idx p now).mtuView = s.mtuView := by
  unfold markResent
  simp only
  split
  · rfl
  · rfl

theorem mtuView_retransmit (s : ConnState F) (idx now : Nat) : (s.retransmit idx now).mtuView = s.mtuView := by
  unfold retransmit
  split
  · rfl
  · rename_i p hp
    rw [← mtuView_markResent s idx p now]
    generalize s.markResent idx p now = marked
    rfl

theorem mtuView_onLoss (s : ConnState F) : s.onLoss.mtuView = s.mtuView := by
  unfold onLoss
  split
  · rfl
  · rfl

theorem mtuView_accountRemoved (s : ConnState F) (p : OutPacket) : (s.accountRemoved p).mtuView = s.mtuView := by
  unfold accountRemoved
  split
  · rfl
  · rfl

theorem searches_sampleAcked [F64 F] (s : ConnState F) (seq : UInt16) (elapsed : Nat) :
    Searches s (s.sampleAcked seq elapsed) :=
  (searches_onMtuProbeAcked (s.updateRtt elapsed) seq).after rfl

theorem searches_popAcked [F64 F] (ackNr : UInt16) (now fuel : Nat) (s : ConnState F) (bytes : Nat) (any : Bool) :
    Searches s (popAcked ackNr now fuel s bytes any).1 := by
  induction fuel generalizing s bytes any with
  | zero => exact Searches.refl s
  | succ fuel ih =>
    unfold popAcked
    split
    · exact Searches.refl s
    rename_i p rest _
    split
    · exact Searches.refl s
    have hrem : Searches s ({ s with unacked := rest }.accountRemoved p) :=
      .of_view (mtuView_accountRemoved { s with unacked := rest } p)
    refine Searches.trans ?_ (ih _ _ _)
    split
    · exact hrem.trans (searches_sampleAcked _ _ _)
    · exact hrem

theorem searches_fastRetransmitFront (s : ConnState F) (ackNr : UInt16) (now : Nat) :
    Searches s (s.fastRetransmitFront ackNr now) := by
  unfold fastRetransmitFront
  simp only
  split
  · exact Searches.refl s
  split
  · have hlost : Searches s ((s.setFastResent 0).onMtuProbeLost (ackNr + 1)).1 :=
      (searches_onMtuProbeLost (s.setFastResent 0) (ackNr + 1)).after rfl
    refine Searches.trans ?_ (.of_view (mtuView_retransmit _ 0 now))
    split
    · exact hlost
    · exact hlost.trans (.of_view (mtuView_onLoss _))
  · exact Searches.refl s

theorem searches_afterAck (s : ConnState F) (h : UtpHeader) (any : Bool) (now : Nat) : Searches s (s.afterAck h any now) := by
  unfold afterAck
  split
  · refine Searches.of_view ?_
    simp only [endRecovery]
    split
    · split
      · rfl
      · rfl
    · rfl
  split
  · simp only
    split
    · exact (searches_fastRetransmitFront { s with dupAcks := s.dupAcks + 1 } h.ackNr now).after rfl
    · exact Searches.of_view rfl
  · exact Searches.refl s

theorem searches_processAck [F64 F] (s : ConnState F) (h : UtpHeader) (now : Nat) : Searches s (s.processAck h now).1 :=
  ((searches_popAcked h.ackNr now s.unacked.length s 0 false).trans (searches_afterAck _ h _ now)).trans (.of_view rfl)

theorem searches_foldl_sampleAcked [F64 F] (now : Nat) (L : List OutPacket) (s : ConnState F) :
    Searches s (L.foldl (fun s p => s.sampleAcked p.seqNr (now - p.sentAt)) s) := by
  induction L generalizing s with
  | nil => exact Searches.refl s
  | cons p L ih => exact (searches_sampleAcked s p.seqNr _).trans (ih _)

theorem searches_removeSacked [F64 F] (s : ConnState F) (ackNr : UInt16) (mask : List UInt8) (now : Nat) :
    Searches s (s.removeSacked ackNr mask now) := by
  unfold removeSacked
  simp only
  refine Searches.trans ?_ (searches_foldl_sampleAcked now _ _)
  exact Searches.of_view rfl

theorem searches_judgeLost (lost : List Nat) (s : ConnState F) (congestion : Bool) :
    Searches s (judgeLost lost s congestion).1 := by
  induction lost generalizing s congestion with
  | nil => exact Searches.refl s
  | cons idx rest ih =>
    unfold judgeLost
    split
    · exact ih s congestion
    · rename_i p _
      exact (searches_onMtuProbeLost s p.seqNr).trans (ih _ _)

theorem searches_foldl_resend (now : Nat) (lost : List Nat) (s : ConnState F) :
    Searches s (lost.foldl (fun s idx => (s.setFastResent idx).retransmit idx now) s) := by
  induction lost generalizing s with
  | nil => exact Searches.refl s
  | cons idx lost ih =>
    have hone : Searches s ((s.setFastResent idx).retransmit idx now) :=
      (Searches.of_view (mtuView_retransmit (s.setFastResent idx) idx now)).after rfl
    exact hone.trans (ih _)

theorem searches_resendLost (s : ConnState F) (lost : List Nat) (now : Nat) : Searches s (s.resendLost lost now) := by
  unfold resendLost
  split
  · exact Searches.refl s
  simp only
  refine Searches.trans ?_ (searches_foldl_resend now lost _)
  split
  · exact (searches_judgeLost lost s false).trans (.of_view (mtuView_onLoss _))
  · exact searches_judgeLost lost s false

theorem searches_processSelectiveAck [F64 F] (s : ConnState F) (ackNr : UInt16) (mask : List UInt8) (now : Nat) :
    Searches s (s.processSelectiveAck ackNr mask now).1 := by
  unfold processSelectiveAck
  simp only
  split
  · exact Searches.refl s
  · exact (searches_removeSacked s ackNr mask now).trans (searches_resendLost _ _ now)

theorem mtuView_updateCwnd [F64 F] (s : ConnState F) (theirDelay : UInt32) (acked now : Nat) :
    (s.updateCwnd theirDelay acked now).mtuView = s.mtuView := by
  unfold updateCwnd delayFactor
  split
  · rfl
  simp only
  split
  · rfl
  · rfl

theorem searches_processAcks [F64 F] (s : ConnState F) (h : UtpHeader) (now : Nat) : Searches s (s.processAcks h now) := by
  unfold processAcks
  simp only
  refine Searches.trans ?_ (.of_view (mtuView_updateCwnd _ _ _ now))
  split
  · exact (searches_processAck s h now).trans (searches_processSelectiveAck _ _ _ now)
  · exact searches_processAck s h now

/-! ## Filling the send window -/

theorem mtuView_noteCwndBlock (s : ConnState F) (len now : Nat) : (s.noteCwndBlock len now).mtuView = s.mtuView := by
  unfold noteCwndBlock
  split
  · rfl
  · rfl

theorem searches_resendLoop (burst now fuel : Nat) (s : ConnState F) (sent : Nat) :
    Searches s (resendLoop burst now fuel s sent).1 := by
  induction fuel generalizing s sent with
  | zero => exact Searches.refl s
  | succ fuel ih =>
    unfold resendLoop
    split
    · exact Searches.refl s
    split
    · exact .of_view (mtuView_noteCwndBlock s _ now)
    split
    · exact Searches.refl s
    · exact (Searches.of_view (mtuView_retransmit s _ now)).trans (ih _ _)

theorem mtuView_transmitNew (s : ConnState F) (packetType : PacketType) (payload : List UInt8) (now : Nat) :
    (s.transmitNew packetType payload now).mtuView = s.mtuView := rfl

theorem searches_sendLoop (burst now fuel : Nat) (s : ConnState F) (sent : Nat) :
    Searches s (sendLoop burst now fuel s sent).1 := by
  induction fuel generalizing s sent with
  | zero => exact Searches.refl s
  | succ fuel ih =>
    unfold sendLoop
    split
    · exact Searches.refl s
    split
    · rename_i hprobe
      simp only [Bool.and_eq_true, decide_eq_true_eq] at hprobe
      exact (searches_sendProbe hprobe.1.1 hprobe.1.2 now).trans (ih _ _)
    simp only
    split
    · exact Searches.refl s
    split
    · exact .of_view (mtuView_noteCwndBlock s _ now)
    split
    · exact Searches.refl s
    · exact ((Searches.of_view (mtuView_transmitNew ..)).after (mtuView_takeSend ..)).trans (ih _ _)

theorem searches_sendNew (s : ConnState F) (burst sent : Nat) (paced : Bool) (now : Nat) :
    Searches s (s.sendNew burst sent paced now).1 := by
  unfold sendNew
  split
  · simp only
    refine Searches.trans ?_ (searches_sendLoop burst now _ _ sent)
    split
    · exact Searches.refl s
    · exact searches_maybeReopenMtuSearch s now
  · exact Searches.refl s

theorem mtuView_armProbe (s : ConnState F) (now : Nat) : (s.armProbe now).mtuView = s.mtuView := by
  unfold armProbe
  simp only
  split
  · rfl
  · rfl

theorem mtuView_notePaced [F64 F] (s : ConnState F) (burst : Nat) (paced : Bool) (now : Nat) :
    (s.notePaced burst paced now).mtuView = s.mtuView := by
  unfold notePaced
  split
  · rfl
  · rfl

theorem searches_fillSendWindow [F64 F] (s : ConnState F) (now : Nat) : Searches s (s.fillSendWindow now) := by
  unfold fillSendWindow
  split
  · exact Searches.refl s
  split
  · exact Searches.refl s
  simp only
  refine Searches.trans ?_ (.of_view (mtuView_armProbe _ now))
  refine Searches.trans ?_ (.of_view (mtuView_notePaced _ _ _ now))
  refine Searches.trans ?_ (searches_sendNew _ _ _ _ now)
  exact (searches_resendLoop _ now _ { s with paceAt := none } 0).after rfl

/-! ## Packets, timers and the driver -/

theorem mtuView_consume (s : ConnState F) (ty : PacketType) (seq : UInt16) (payload : List UInt8) (now : Nat) :
    (s.consume ty seq payload now).mtuView = s.mtuView := by
  unfold consume
  simp only
  split
  · rfl
  split
  · rfl
  · rfl

theorem mtuView_drainReorder (now fuel : Nat) (s : ConnState F) : (drainReorder now fuel s).mtuView = s.mtuView := by
  induction fuel generalizing s with
  | zero => rfl
  | succ fuel ih =>
    unfold drainReorder
    simp only
    split
    · rfl
    · rw [ih, mtuView_consume]
      rfl

theorem mtuView_placePacket (s : ConnState F) (h : UtpHeader) (payload : List UInt8) (now : Nat) :
    (s.placePacket h payload now).mtuView = s.mtuView := by
  unfold placePacket
  simp only
  split
  · rfl
  split
  · rfl
  split
  · rfl
  split
  · rw [mtuView_drainReorder, mtuView_consume]
  · have hfin : (s.noteFin h).mtuView = s.mtuView := by
      unfold noteFin
      split
      · rfl
      · rfl
    unfold bufferPacket insertBuffered
    simp only
    split
    · split
      · exact hfin
      · exact hfin
    · exact hfin

theorem mtuView_maybeFinish (s : ConnState F) (now : Nat) : (s.maybeFinish now).mtuView = s.mtuView := by
  unfold maybeFinish
  split
  · split
    · rfl
    · rfl
  · rfl

theorem mtuView_noteEof (s : ConnState F) : s.noteEof.mtuView = s.mtuView := by
  unfold noteEof
  split
  · split
    · rfl
    · rfl
  · rfl

theorem mtuView_connectOn (s : ConnState F) (h : UtpHeader) : (s.connectOn h).mtuView = s.mtuView := by
  unfold connectOn
  split
  · rfl
  · rfl

theorem searches_acceptPacket [F64 F] (s : ConnState F) (h : UtpHeader) (payload : List UInt8) (now : Nat) :
    Searches s (s.acceptPacket h payload now) := by
  have hacks : Searches s (((s.notePeer h now).connectOn h).processAcks h now) :=
    ((searches_processAcks _ h now).after (mtuView_connectOn (s.notePeer h now) h)).after rfl
  unfold acceptPacket
  simp only
  refine Searches.trans ?_ (.of_view (mtuView_maybeFinish _ now))
  refine Searches.trans ?_ (.of_view (mtuView_noteEof _))
  generalize ((s.notePeer h now).connectOn h).processAcks h now = acked at hacks ⊢
  have hwrite : Searches s (if acked.unacked.length < ((s.notePeer h now).connectOn h).unacked.length then acked.notifyWrite else acked) := by
    split
    · exact hacks.trans (.of_view rfl)
    · exact hacks
  split
  · exact hwrite.trans (.of_view (mtuView_placePacket _ h _ now))
  · exact hwrite.trans (.of_view (mtuView_placePacket _ h _ now))
  · exact hwrite
  · exact hwrite
  · exact hwrite

theorem searches_handlePacket [F64 F] (s : ConnState F) (h : UtpHeader) (payload : List UInt8) (now : Nat) :
    Searches s (s.handlePacket h payload now) := by
  unfold handlePacket
  split
  · exact Searches.refl s
  split
  · split
    · exact .of_view rfl
    · exact Searches.refl s
  split
  · split
    · exact .of_view rfl
    · exact Searches.refl s
  split
  · exact Searches.refl s
  split
  · exact Searches.refl s
  split
  · exact Searches.refl s
  · exact searches_acceptPacket s h payload now

theorem mtuView_abort (s : ConnState F) (now : Nat) : (s.abort now).mtuView = s.mtuView := by
  unfold abort
  split
  · rfl
  · rfl

theorem searches_rtoExpired (s : ConnState F) (front : OutPacket) (now : Nat) : Searches s (s.rtoExpired front now) := by
  unfold rtoExpired
  split
  · exact .of_view rfl
  split
  · simp only
    refine Searches.trans ?_ (.of_view (mtuView_retransmit _ 0 now))
    exact (searches_onMtuProbeLost s front.seqNr).trans (.of_view rfl)
  · unfold onTimeout
    exact Searches.of_forget (mtuView_retransmit _ 0 now)

theorem searches_checkRto (s : ConnState F) (now : Nat) : Searches s (s.checkRto now) := by
  unfold checkRto
  split
  · exact Searches.refl s
  split
  · exact .of_view rfl
  split
  · exact Searches.refl s
  · exact searches_rtoExpired s _ now

theorem searches_checkTimers (s : ConnState F) (now : Nat) : Searches s (s.checkTimers now) := by
  have hprobe : Searches s (s.checkProbe now) := by
    refine .of_view ?_
    unfold checkProbe
    split
    · rfl
    · rfl
  unfold checkTimers
  split
  · exact .of_view (mtuView_abort s now)
  simp only
  split
  · exact hprobe.trans (.of_view rfl)
  · exact hprobe.trans (searches_checkRto _ now)

theorem searches_mtuProbeSendFailed (s : ConnState F) (seq : UInt16) (tooBig : Bool) (now : Nat) :
    Searches s (s.mtuProbeSendFailed seq tooBig now) := by
  have hs : Searches s (if tooBig then (s.onMtuProbeLost seq).1
    else if s.mtuProbe.any (fun probe => probe.1 = seq) then { s with mtuProbe := none } else s) := by
    split
    · exact searches_onMtuProbeLost s seq
    split
    · exact Searches.of_forget rfl
    · exact Searches.refl s
  unfold mtuProbeSendFailed
  simp only
  split
  · exact hs.trans (.of_view (mtuView_retransmit _ _ now))
  · exact hs

theorem mtuView_maybeSendFin (s : ConnState F) (now : Nat) : (s.maybeSendFin now).mtuView = s.mtuView := by
  unfold maybeSendFin
  split
  · rfl
  · rfl

theorem mtuView_handOff (s : ConnState F) (waiting : Bool) (now : Nat) : (s.handOff waiting now).1.mtuView = s.mtuView := by
  unfold handOff
  split
  · rfl
  split
  · rfl
  split
  · rfl
  simp only
  split
  · exact mtuView_abort s now
  · rfl

theorem mtuView_sendOwedAck (s : ConnState F) (now : Nat) : (s.sendOwedAck now).mtuView = s.mtuView := by
  unfold sendOwedAck
  split
  · rfl
  · rfl

theorem searches_driveTail [F64 F] (s : ConnState F) (waiting : Bool) (now : Nat) : Searches s (s.driveTail waiting now).1 := by
  unfold driveTail
  simp only
  refine Searches.trans ?_ (.of_view (mtuView_maybeFinish _ now))
  refine Searches.trans ?_ (.of_view (mtuView_sendOwedAck _ now))
  refine Searches.trans ?_ (.of_view (mtuView_handOff _ waiting now))
  refine Searches.trans ?_ (searches_fillSendWindow _ now)
  exact (searches_fillSendWindow s now).trans (.of_view (mtuView_maybeSendFin _ now))

theorem mtuView_noteWindowUpdate (s : ConnState F) : s.noteWindowUpdate.mtuView = s.mtuView := by
  unfold noteWindowUpdate
  simp only
  split
  · rfl
  · rfl

theorem mtuView_pollRead (s : ConnState F) (n : Nat) : (s.pollRead n).1.mtuView = s.mtuView := by
  unfold pollRead
  split
  · exact mtuView_noteWindowUpdate _
  split
  · rfl
  split
  · rfl
  · rfl

theorem mtuView_pollWrite (s : ConnState F) (data : List UInt8) : (s.pollWrite data).1.mtuView = s.mtuView := by
  unfold pollWrite
  split
  · rfl
  split
  · rfl
  simp only
  split
  · rfl
  · rfl

theorem mtuView_pollFlush (s : ConnState F) : s.pollFlush.1.mtuView = s.mtuView := by
  unfold pollFlush
  split
  · rfl
  split
  · rfl
  · rfl

theorem mtuView_pollShutdown (s : ConnState F) : s.pollShutdown.1.mtuView = s.mtuView := by
  unfold pollShutdown
  split
  · rfl
  split
  · rfl
  simp only
  split
  · rfl
  · rfl

theorem mtuView_dropStream (s : ConnState F) (now : Nat) : (s.dropStream now).mtuView = s.mtuView := by
  unfold dropStream
  simp only
  split
  · exact mtuView_abort s now
  · rfl

theorem mtuView_sendFailed (s : ConnState F) (recoverable : Bool) (kind : ErrorKind) (pending : List (List UInt8)) (now : Nat) :
    (s.sendFailed recoverable kind pending now).mtuView = s.mtuView := by
  have hretry : (s.retryFailedDatagrams pending now).1.mtuView = s.mtuView := by
    unfold retryFailedDatagrams scheduleSendRetry
    by_cases hr : s.sendRetryCount ≥ maxSendRetries
    · simp only [if_pos hr, Bool.false_eq_true, if_false]
    · simp only [if_neg hr, if_true]
      rfl
  unfold sendFailed
  split
  · simp only
    split
    · exact hretry
    · exact hretry
  · rfl

theorem mtuView_takeProbe (s : ConnState F) (now : Nat) : (s.takeProbe now).1.mtuView = s.mtuView := by
  unfold takeProbe
  split
  · rfl
  · rfl

end ConnState

/-- The steps other than a bare call of `transmit_probe`, which only `fill_send_window` makes, with a payload it has sized. -/
def ConnOp.Driven : ConnOp → Prop
  | transmitProbe _ => False
  | _ => True

namespace ConnState

variable {F : Type}

/-- Every step keeps the search in order. -/
theorem searches_apply [F64 F] (s : ConnState F) (now : Nat) {op : ConnOp} (h : op.Driven) : Searches s (op.apply s now) := by
  cases op with
  | seedResponder syn => exact .of_view rfl
  | startInitiator pmtud isn => exact .of_view rfl
  | startResponder pmtud => exact .of_view rfl
  | pollRead n => exact .of_view (mtuView_pollRead s n)
  | pollWrite data => exact .of_view (mtuView_pollWrite s data)
  | pollFlush => exact .of_view (mtuView_pollFlush s)
  | pollShutdown => exact .of_view (mtuView_pollShutdown s)
  | armAbortOnDrop armed => exact .of_view rfl
  | dropStream => exact .of_view (mtuView_dropStream s now)
  | handlePacket hd payload => exact searches_handlePacket s hd payload now
  | nudge => exact .of_view (mtuView_noteWindowUpdate s)
  | checkTimers => exact searches_checkTimers s now
  | fillSendWindow => exact searches_fillSendWindow s now
  | maybeSendFin => exact .of_view (mtuView_maybeSendFin s now)
  | handOff waiting => exact .of_view (mtuView_handOff s waiting now)
  | sendOwedAck => exact .of_view (mtuView_sendOwedAck s now)
  | driveTail waiting => exact searches_driveTail s waiting now
  | maybeFinish => exact .of_view (mtuView_maybeFinish s now)
  | transmitProbe payload => exact h.elim
  | retransmit idx => exact .of_view (mtuView_retransmit s idx now)
  | takeProbe => exact .of_view (mtuView_takeProbe s now)
  | mtuProbeSendFailed seq tooBig => exact searches_mtuProbeSendFailed s seq tooBig now
  | takeOutbox => exact .of_view rfl
  | sendFailed recoverable kind pending => exact .of_view (mtuView_sendFailed s recoverable kind pending now)
  | recordSendSuccess => exact .of_view rfl
  | fail kind => exact .of_view rfl
  | abort => exact .of_view (mtuView_abort s now)
  | forceClose => exact .of_view rfl

theorem mtuOk_new [F64 F] (remote : SocketAddr) (id : UInt16) (kind : RoleKind) (random : UInt16) (now : Nat) :
    (ConnState.new remote id kind random now : ConnState F).MtuOk := by
  obtain ⟨_, hmin, hmax⟩ := datagram_bounds remote
  exact ⟨hmin, hmax, le_refl _, rfl, fun _ _ he => (by cases he)⟩

end ConnState

end Risuko
