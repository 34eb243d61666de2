import Risuko.Lemmas.UtpCore

/-!
# What the sending half leaves to the reader

The data that a connection has received changes by packets and reads only: every other step of the driver and of the owner of the
stream is `Quiet`, and so is all that a packet does before its payload is placed.
-/

namespace Risuko

namespace ConnState

variable {F : Type}

/-- The data received: the last number in order, the bytes for the reader, the early packets and the number of the FIN. -/
def received (s : ConnState F) : UInt16 × List UInt8 × OrdMap UInt16 (List UInt8) × Option UInt16 × Bool :=
  (s.ackNr, s.recvReady, s.reorder, s.peerFin, s.readerGone)

/-- A step that leaves the received data alone, and does not dial anew. -/
structure Quiet (s s' : ConnState F) : Prop where
  data : s'.received = s.received
  state : s.state ≠ .synSent → s'.state ≠ .synSent

namespace Quiet

theorem refl (s : ConnState F) : Quiet s s := ⟨rfl, id⟩

theorem trans {s t u : ConnState F} (h : Quiet s t) (h' : Quiet t u) : Quiet s u :=
  ⟨h'.data.trans h.data, fun hs => h'.state (h.state hs)⟩

/-- A change of other fields may come first. -/
theorem after {s s' t : ConnState F} (h : Quiet s' t) (hdata : s'.received = s.received) (hstate : s'.state = s.state) : Quiet s t :=
  trans ⟨hdata, fun hs => hstate ▸ hs⟩ h

theorem of_core {s s' : ConnState F} (h : s'.core = s.core) : Quiet s s' := by
  simp only [core, ConnCore.mk.injEq] at h
  refine ⟨?_, fun hs => h.1 ▸ hs⟩
  unfold received
  rw [h.2.2.2.2.1, h.2.2.2.2.2.2.2.2.2.1, h.2.2.2.2.2.2.2.2.2.2.1, h.2.2.2.2.2.2.2.2.2.2.2.2.2.2.1,
    h.2.2.2.2.2.2.2.2.2.2.2.2.2.2.2.1]

/-! ## Acks -/

theorem accountRemoved (s : ConnState F) (p : OutPacket) : Quiet s (s.accountRemoved p) := by
  unfold ConnState.accountRemoved
  split <;> exact ⟨rfl, id⟩

theorem retransmit (s : ConnState F) (idx now : Nat) : Quiet s (s.retransmit idx now) := by
  unfold ConnState.retransmit markResent
  split
  · exact refl s
  · simp only
    split <;> exact ⟨rfl, id⟩

theorem popAcked [F64 F] (ackNr : UInt16) (now fuel : Nat) (s : ConnState F) (bytes : Nat) (any : Bool) :
    Quiet s (ConnState.popAcked ackNr now fuel s bytes any).1 := by
  induction fuel generalizing s bytes any with
  | zero => exact refl s
  | succ fuel ih =>
    unfold ConnState.popAcked
    split
    · exact refl s
    split
    · exact refl s
    rename_i p rest _ _
    have hremoved : Quiet s ({ s with unacked := rest }.accountRemoved p) :=
      (accountRemoved _ p).after rfl rfl
    refine trans (hremoved.trans ?_) (ih _ _ _)
    split
    · exact of_core (core_sampleAcked ..)
    · exact refl _

theorem fastRetransmitFront (s : ConnState F) (ackNr : UInt16) (now : Nat) : Quiet s (s.fastRetransmitFront ackNr now) := by
  unfold ConnState.fastRetransmitFront
  simp only
  split
  · exact refl s
  split
  · refine trans ?_ (retransmit _ 0 now)
    have hlost : Quiet s ((s.setFastResent 0).onMtuProbeLost (ackNr + 1)).1 :=
      (of_core (core_onMtuProbeLost ..)).after rfl rfl
    split
    · exact hlost
    · exact hlost.trans (of_core (core_onLoss _))
  · exact refl s

theorem afterAck (s : ConnState F) (h : UtpHeader) (any : Bool) (now : Nat) : Quiet s (s.afterAck h any now) := by
  unfold ConnState.afterAck
  split
  · have hended : Quiet s ({ s with dupAcks := 0 }.endRecovery h.ackNr) := (of_core (core_endRecovery _ h.ackNr)).after rfl rfl
    exact hended.trans ⟨rfl, id⟩
  split
  · simp only
    split
    · exact (fastRetransmitFront _ h.ackNr now).after rfl rfl
    · exact ⟨rfl, id⟩
  · exact refl s

theorem processAck [F64 F] (s : ConnState F) (h : UtpHeader) (now : Nat) : Quiet s (s.processAck h now).1 :=
  (popAcked h.ackNr now s.unacked.length s 0 false).trans ((afterAck _ h _ now).trans ⟨rfl, id⟩)

theorem resendLost (s : ConnState F) (lost : List Nat) (now : Nat) : Quiet s (s.resendLost lost now) := by
  have hfold : ∀ s : ConnState F, Quiet s (lost.foldl (fun s idx => (s.setFastResent idx).retransmit idx now) s) := by
    intro s
    induction lost generalizing s with
    | nil => exact refl s
    | cons idx lost ih => exact ((retransmit (s.setFastResent idx) idx now).trans (ih _)).after rfl rfl
  unfold ConnState.resendLost
  split
  · exact refl s
  refine trans ?_ (hfold _)
  split
  · exact of_core ((core_onLoss _).trans (core_judgeLost ..))
  · exact of_core (core_judgeLost ..)

theorem processSelectiveAck [F64 F] (s : ConnState F) (ackNr : UInt16) (mask : List UInt8) (now : Nat) :
    Quiet s (s.processSelectiveAck ackNr mask now).1 := by
  unfold ConnState.processSelectiveAck
  simp only
  split
  · exact refl s
  · have hremove : Quiet s (s.removeSacked ackNr mask now) := (of_core (core_sampleAll _ _ now)).after rfl rfl
    exact hremove.trans (resendLost _ _ now)

theorem processAcks [F64 F] (s : ConnState F) (h : UtpHeader) (now : Nat) : Quiet s (s.processAcks h now) := by
  unfold ConnState.processAcks
  cases h.selectiveAck with
  | none => exact (processAck s h now).trans (of_core (core_updateCwnd ..))
  | some mask => exact (processAck s h now).trans ((processSelectiveAck _ h.ackNr mask now).trans (of_core (core_updateCwnd ..)))

/-! ## The driver and the owner of the stream -/

theorem takeSend (s : ConnState F) (n : Nat) : Quiet s (s.takeSend n).2 := ⟨rfl, id⟩

theorem transmitProbe (s : ConnState F) (payload : List UInt8) (now : Nat) : Quiet s (s.transmitProbe payload now) := ⟨rfl, id⟩

theorem transmitNew (s : ConnState F) (packetType : PacketType) (payload : List UInt8) (now : Nat) :
    Quiet s (s.transmitNew packetType payload now) := ⟨rfl, id⟩

theorem sendLoop (burst now fuel : Nat) (s : ConnState F) (sent : Nat) : Quiet s (ConnState.sendLoop burst now fuel s sent).1 := by
  induction fuel generalizing s sent with
  | zero => exact refl s
  | succ fuel ih =>
    unfold ConnState.sendLoop
    simp only
    split
    · exact refl s
    split
    · exact ((takeSend ..).trans (transmitProbe ..)).trans (ih _ _)
    split
    · exact refl s
    split
    · exact of_core (core_noteCwndBlock ..)
    split
    · exact refl s
    · exact ((takeSend ..).trans (transmitNew ..)).trans (ih _ _)

theorem resendLoop (burst now fuel : Nat) (s : ConnState F) (sent : Nat) :
    Quiet s (ConnState.resendLoop burst now fuel s sent).1 := by
  induction fuel generalizing s sent with
  | zero => exact refl s
  | succ fuel ih =>
    unfold ConnState.resendLoop
    split
    · exact refl s
    split
    · exact of_core (core_noteCwndBlock ..)
    split
    · exact refl s
    · exact (retransmit s _ now).trans (ih _ _)

theorem fillSendWindow [F64 F] (s : ConnState F) (now : Nat) : Quiet s (s.fillSendWindow now) := by
  unfold ConnState.fillSendWindow
  split
  · exact refl s
  split
  · exact refl s
  simp only
  refine trans ?_ (of_core ((core_armProbe ..).trans (core_notePaced ..)))
  refine trans ((resendLoop s.burstLimit now s.resendCount { s with paceAt := none } 0).after rfl rfl) ?_
  unfold sendNew
  split
  · refine trans ?_ (sendLoop _ now _ _ _)
    split
    · exact refl _
    · exact of_core (core_maybeReopenMtuSearch ..)
  · exact refl _

theorem maybeSendFin (s : ConnState F) (now : Nat) : Quiet s (s.maybeSendFin now) := by
  unfold ConnState.maybeSendFin
  split
  · exact ⟨rfl, fun _ => by simp⟩
  · exact refl s

theorem maybeFinish (s : ConnState F) (now : Nat) : Quiet s (s.maybeFinish now) := by
  unfold ConnState.maybeFinish
  split
  · split
    · exact ⟨rfl, fun _ => by simp⟩
    · exact ⟨rfl, id⟩
  · exact refl s

theorem fail (s : ConnState F) (kind : ErrorKind) : Quiet s (s.fail kind) := ⟨rfl, fun _ => nofun⟩

theorem abort (s : ConnState F) (now : Nat) : Quiet s (s.abort now) := by
  unfold ConnState.abort
  split
  · exact refl s
  · exact ⟨rfl, fun _ => nofun⟩

theorem handOff (s : ConnState F) (waiting : Bool) (now : Nat) : Quiet s (s.handOff waiting now).1 := by
  unfold ConnState.handOff
  split
  · exact refl s
  split
  · exact refl s
  split
  · exact ⟨rfl, id⟩
  simp only
  split
  · exact abort s now
  · exact refl s

theorem sendOwedAck (s : ConnState F) (now : Nat) : Quiet s (s.sendOwedAck now) := by
  unfold ConnState.sendOwedAck
  split <;> exact ⟨rfl, id⟩

theorem driveTail [F64 F] (s : ConnState F) (waiting : Bool) (now : Nat) : Quiet s (s.driveTail waiting now).1 :=
  (((fillSendWindow s now).trans (maybeSendFin _ now)).trans ((fillSendWindow _ now).trans (handOff _ waiting now))).trans
    ((sendOwedAck _ now).trans (maybeFinish _ now))

theorem checkTimers (s : ConnState F) (now : Nat) : Quiet s (s.checkTimers now) := by
  unfold ConnState.checkTimers
  split
  · exact abort s now
  have hprobe : Quiet s (s.checkProbe now) := of_core (core_checkProbe s now)
  refine hprobe.trans ?_
  generalize s.checkProbe now = s
  simp only
  split
  · exact ⟨rfl, fun _ => nofun⟩
  unfold checkRto
  split
  · exact refl s
  split
  · exact ⟨rfl, id⟩
  split
  · exact refl s
  unfold rtoExpired
  split
  · exact fail s _
  split
  · exact (of_core (core_onMtuProbeLost ..)).trans ((retransmit _ 0 now).after rfl rfl)
  · exact (retransmit _ 0 now).after rfl rfl

theorem pollWrite (s : ConnState F) (data : List UInt8) : Quiet s (s.pollWrite data).1 := by
  unfold ConnState.pollWrite
  split
  · exact refl s
  split
  · exact refl s
  · simp only
    split <;> exact ⟨rfl, id⟩

theorem pollFlush (s : ConnState F) : Quiet s s.pollFlush.1 := by
  unfold ConnState.pollFlush
  split
  · exact refl s
  · split <;> exact ⟨rfl, id⟩

theorem pollShutdown (s : ConnState F) : Quiet s s.pollShutdown.1 := by
  unfold ConnState.pollShutdown
  split
  · exact refl s
  split
  · exact refl s
  · simp only
    split <;> exact ⟨rfl, id⟩

/-! ## Flushes -/

theorem takeProbe (s : ConnState F) (now : Nat) : Quiet s (s.takeProbe now).1 := by
  unfold ConnState.takeProbe
  split <;> exact ⟨rfl, id⟩

theorem mtuProbeSendFailed (s : ConnState F) (seq : UInt16) (tooBig : Bool) (now : Nat) : Quiet s (s.mtuProbeSendFailed seq tooBig now) := by
  have hjudged : Quiet s (if tooBig then (s.onMtuProbeLost seq).1
      else if s.mtuProbe.any (fun probe => probe.1 = seq) then { s with mtuProbe := none } else s) := by
    split
    · exact of_core (core_onMtuProbeLost ..)
    · split <;> exact ⟨rfl, id⟩
  unfold ConnState.mtuProbeSendFailed
  simp only
  split
  · exact hjudged.trans (retransmit ..)
  · exact hjudged

theorem sendFailed (s : ConnState F) (recoverable : Bool) (kind : ErrorKind) (pending : List (List UInt8)) (now : Nat) :
    Quiet s (s.sendFailed recoverable kind pending now) := by
  unfold ConnState.sendFailed retryFailedDatagrams scheduleSendRetry
  split
  · by_cases hcount : maxSendRetries ≤ s.sendRetryCount
    · simp only [ge_iff_le, if_pos hcount]
      exact fail s kind
    · simp only [ge_iff_le, if_neg hcount]
      exact ⟨rfl, id⟩
  · exact fail s kind

end Quiet

end ConnState

/-- What the driver and its flushes do besides taking packets, and what the owner does besides reading and dropping the stream. -/
def ConnOp.Driving : ConnOp → Prop
  | .seedResponder _ | .pollRead _ | .dropStream | .handlePacket .. => False
  | _ => True

theorem ConnOp.Driving.quiet {F : Type} [F64 F] {op : ConnOp} (h : op.Driving) (s : ConnState F) (now : Nat) :
    s.Quiet (op.apply s now) := by
  cases op with
  | checkTimers => exact .checkTimers s now
  | nudge => exact .of_core (ConnState.core_noteWindowUpdate s)
  | fillSendWindow => exact .fillSendWindow s now
  | maybeSendFin => exact .maybeSendFin s now
  | handOff waiting => exact .handOff s waiting now
  | sendOwedAck => exact .sendOwedAck s now
  | driveTail waiting => exact .driveTail s waiting now
  | maybeFinish => exact .maybeFinish s now
  | pollWrite data => exact .pollWrite s data
  | pollFlush => exact .pollFlush s
  | pollShutdown => exact .pollShutdown s
  | retransmit idx => exact .retransmit s idx now
  | takeProbe => exact .takeProbe s now
  | mtuProbeSendFailed seq tooBig => exact .mtuProbeSendFailed s seq tooBig now
  | sendFailed recoverable kind pending => exact .sendFailed s recoverable kind pending now
  | abort => exact .abort s now
  | fail | forceClose => exact ⟨rfl, fun _ => nofun⟩
  | startInitiator | startResponder | armAbortOnDrop | transmitProbe | takeOutbox | recordSendSuccess => exact ⟨rfl, id⟩
  | seedResponder | pollRead | dropStream | handlePacket => exact h.elim

/-!
## The stream of the peer

The packets of the peer are counted from one, and the FIN that may end them is one of them. `Delivers` says that the first `k` have been
taken, and that every packet buffered is a later one of them.
-/

/-- What the peer sends behind the number `base`. -/
structure Incoming where
  base : UInt16
  payload : Nat → List UInt8
  fin : Option Nat

namespace Incoming

variable (I : Incoming)

def number (i : Nat) : UInt16 := I.base + UInt16.ofNat i

/-- The bytes of a packet: a FIN has none. -/
def data (i : Nat) : List UInt8 := if I.fin = some i then [] else I.payload i

/-- The bytes of the first `k` packets. -/
def stream (k : Nat) : List UInt8 := (List.range k).flatMap fun i => I.data (i + 1)

/-- The packet is the one at `i`, which is not behind the FIN. -/
structure Sends (h : UtpHeader) (payload : List UInt8) (i : Nat) : Prop where
  seqNr : h.seqNr = I.number i
  type : h.packetType = if I.fin = some i then .fin else .data
  payload : payload = I.data i
  le_fin : ∀ f, I.fin = some f → i ≤ f

/-- After `k` packets a packet without a place in the stream arrives, or one of the stream that is less than half of the numbers behind. -/
def Arrives (h : UtpHeader) (payload : List UInt8) (k : Nat) : Prop :=
  (h.packetType ≠ .data ∧ h.packetType ≠ .fin) ∨ ∃ i, I.Sends h payload i ∧ k ≤ i + 2 ^ 15 ∧ i < k + 2 ^ 16

theorem toNat_number_sub (i k : Nat) : (I.number i - I.number k).toNat = (i + (2 ^ 16 - k % 2 ^ 16)) % 2 ^ 16 := by
  have hb := I.base.toNat_lt
  unfold number
  simp only [UInt16.toNat_sub, UInt16.toNat_add, UInt16.toNat_ofNat']
  omega

/-- Numbers tell packets apart that are less than half of the numbers away. -/
theorem eq_of_number {i j : Nat} (h : I.number i = I.number j) (hi : i ≤ j + 2 ^ 15) (hj : j ≤ i + 2 ^ 15) : i = j := by
  have hsub := I.toNat_number_sub i j
  rw [h, UInt16.sub_self] at hsub
  have hzero : (0 : UInt16).toNat = 0 := rfl
  omega

end Incoming

namespace ConnState

variable {F : Type} {I : Incoming} {out : List UInt8} {top k : Nat} {s s' : ConnState F}

/-- The first `k` packets are taken, and those buffered come after them and are at most at `top`. -/
structure Delivers (I : Incoming) (out : List UInt8) (top k : Nat) (s : ConnState F) : Prop where
  dialled : s.state ≠ .synSent
  reader : s.readerGone = false
  ackNr : s.ackNr = I.number k
  ready : out ++ s.recvReady = I.stream k
  early : ∀ n buf, s.reorder.get? n = some buf →
    ∃ i, k < i ∧ i ≤ top ∧ n = I.number i ∧ buf = I.data i ∧ ∀ f, I.fin = some f → i ≤ f
  fin : ∀ n, s.peerFin = some n → ∃ f, I.fin = some f ∧ n = I.number f ∧ f ≤ top
  le_fin : ∀ f, I.fin = some f → k ≤ f

theorem Delivers.quiet (h : s.Delivers I out top k) (hq : s.Quiet s') : s'.Delivers I out top k := by
  have hdata := hq.data
  simp only [received, Prod.mk.injEq] at hdata
  obtain ⟨hack, hready, hreorder, hfin, hreader⟩ := hdata
  exact ⟨hq.state h.dialled, hreader ▸ h.reader, hack ▸ h.ackNr, hready ▸ h.ready, hreorder ▸ h.early, hfin ▸ h.fin, h.le_fin⟩

theorem Delivers.mono {top' : Nat} (h : s.Delivers I out top k) (hle : top ≤ top') : s.Delivers I out top' k where
  __ := h
  early n buf hbuf :=
    let ⟨i, hk, hi, hrest⟩ := h.early n buf hbuf
    ⟨i, hk, hi.trans hle, hrest⟩
  fin n hn :=
    let ⟨f, hf, hnum, hi⟩ := h.fin n hn
    ⟨f, hf, hnum, hi.trans hle⟩

theorem reorder_consume (s : ConnState F) (ty : PacketType) (seq : UInt16) (payload : List UInt8) (now : Nat) :
    (s.consume ty seq payload now).reorder = s.reorder := by
  unfold ConnState.consume
  simp only
  split
  · rfl
  · split <;> rfl

/-- Taking the next packet, which is not buffered. -/
theorem Delivers.consume (h : s.Delivers I out top k) (hnone : s.reorder.get? (I.number (k + 1)) = none) (htop : k + 1 ≤ top)
    (ty : PacketType) (hty : ty = .fin → I.fin = some (k + 1)) (hle : ∀ f, I.fin = some f → k + 1 ≤ f) (now : Nat) :
    (s.consume ty (I.number (k + 1)) (I.data (k + 1)) now).Delivers I out top (k + 1) := by
  have hnext : I.stream (k + 1) = out ++ s.recvReady ++ I.data (k + 1) := by
    rw [h.ready]
    unfold Incoming.stream
    rw [List.range_succ, List.flatMap_append, List.flatMap_singleton]
  have hearly : ∀ n buf, s.reorder.get? n = some buf →
      ∃ i, k + 1 < i ∧ i ≤ top ∧ n = I.number i ∧ buf = I.data i ∧ ∀ f, I.fin = some f → i ≤ f := by
    intro n buf hbuf
    obtain ⟨i, hk, hrest⟩ := h.early n buf hbuf
    refine ⟨i, Nat.lt_of_le_of_ne hk fun heq => ?_, hrest⟩
    rw [hrest.2.1, ← heq, hnone] at hbuf
    nomatch hbuf
  unfold ConnState.consume
  simp only
  split
  · rename_i hfin
    have hf := hty hfin
    have hdata : I.data (k + 1) = [] := if_pos hf
    exact ⟨h.dialled, h.reader, rfl, by rw [hnext, hdata, List.append_nil], hearly,
      fun n hn => ⟨k + 1, hf, (Option.some.inj hn).symm, htop⟩, hle⟩
  split
  · exact ⟨h.dialled, h.reader, rfl, by rw [hnext, List.append_assoc]; rfl, hearly, h.fin, hle⟩
  · rename_i hempty
    have hdata : I.data (k + 1) = [] := by simpa [h.reader] using hempty
    exact ⟨h.dialled, h.reader, rfl, by rw [hnext, hdata, List.append_nil], hearly, h.fin, hle⟩

/-- The buffered packets that come next are taken, and no more. -/
theorem Delivers.drainReorder (now : Nat) {fuel : Nat} (hfuel : s.reorder.size ≤ fuel) (h : s.Delivers I out top k)
    (hk : k ≤ top) (htop : top ≤ k + 2 ^ 15) :
    ∃ k', k ≤ k' ∧ k' ≤ top ∧ (ConnState.drainReorder now fuel s).Delivers I out top k' ∧
      (ConnState.drainReorder now fuel s).reorder.get? (I.number (k' + 1)) = none := by
  induction fuel generalizing s k with
  | zero =>
    refine ⟨k, Nat.le_refl k, hk, h, OrdMap.get?_eq_none_iff.mpr fun v hv => ?_⟩
    have hnil : s.reorder.entries = [] := List.length_eq_zero_iff.mp (Nat.le_zero.mp hfuel)
    rw [show (ConnState.drainReorder now 0 s).reorder = s.reorder from rfl, hnil] at hv
    nomatch hv
  | succ fuel ih =>
    have hnum : s.ackNr + 1 = I.number (k + 1) := by
      rw [h.ackNr]
      simp [Incoming.number, UInt16.add_assoc]
    unfold ConnState.drainReorder
    simp only [hnum]
    split
    · rename_i hnone
      exact ⟨k, Nat.le_refl k, hk, h, hnone⟩
    · rename_i buf hbuf
      obtain ⟨i, hki, hit, hnumber, rfl, hif⟩ := h.early _ _ hbuf
      obtain rfl : i = k + 1 := (I.eq_of_number hnumber (by omega) (by omega)).symm
      have htaken : (s.takeBuffered (I.number (k + 1)) (I.data (k + 1))).Delivers I out top k := by
        refine ⟨h.dialled, h.reader, h.ackNr, h.ready, fun n buf hn => ?_, h.fin, h.le_fin⟩
        rw [show (s.takeBuffered _ _).reorder = s.reorder.erase (I.number (k + 1)) from rfl, OrdMap.get?_erase] at hn
        split at hn
        · nomatch hn
        · exact h.early n buf hn
      have hnext := htaken.consume (s.reorder.get?_erase_self _) hit
        (if s.peerFin = some (I.number (k + 1)) then .fin else .data) (fun hty => ?_) hif now
      · have hsize : s.reorder.size = (s.reorder.erase (I.number (k + 1))).size + 1 := (s.reorder.erase_perm hbuf).length_eq
        have hfuel' : ((s.takeBuffered (I.number (k + 1)) (I.data (k + 1))).consume
            (if s.peerFin = some (I.number (k + 1)) then .fin else .data) (I.number (k + 1)) (I.data (k + 1)) now).reorder.size ≤ fuel := by
          rw [reorder_consume]
          show (s.reorder.erase (I.number (k + 1))).size ≤ fuel
          omega
        obtain ⟨k', hle, hrest⟩ := ih hfuel' hnext hit (by omega)
        exact ⟨k', by omega, hrest⟩
      · obtain ⟨f, hf, hfn, hft⟩ := h.fin _ (by simpa using hty)
        have hkf := hif f hf
        rwa [← I.eq_of_number hfn (by omega) (by omega)] at hf

/-- Between two steps the next packet is not among those buffered, and none of these is too far ahead. -/
def CaughtUp (I : Incoming) (out : List UInt8) (k : Nat) (s : ConnState F) : Prop :=
  s.Delivers I out (k + maxReorderDistance) k ∧ s.reorder.get? (I.number (k + 1)) = none

/-- The same after some packets more. -/
def Advanced (I : Incoming) (out : List UInt8) (k : Nat) (s : ConnState F) : Prop :=
  ∃ k', k ≤ k' ∧ k' ≤ k + maxReorderDistance ∧ s.CaughtUp I out k'

theorem CaughtUp.advanced (h : s.CaughtUp I out k) : s.Advanced I out k := ⟨k, Nat.le_refl k, Nat.le_add_right .., h⟩

theorem CaughtUp.quiet (h : s.CaughtUp I out k) (hq : s.Quiet s') : s'.CaughtUp I out k := by
  refine ⟨h.1.quiet hq, ?_⟩
  have hdata := hq.data
  simp only [received, Prod.mk.injEq] at hdata
  rw [hdata.2.2.1]
  exact h.2

theorem CaughtUp.bufferPacket (h : s.CaughtUp I out k) {hd : UtpHeader} {payload : List UInt8} {i : Nat} (hsent : I.Sends hd payload i)
    (hk : k + 1 < i) (hi : i ≤ k + maxReorderDistance) : (s.bufferPacket hd payload).CaughtUp I out k := by
  have hnoted : (s.noteFin hd).Delivers I out (k + maxReorderDistance) k ∧ (s.noteFin hd).reorder = s.reorder := by
    unfold noteFin
    split
    · rename_i hty
      refine ⟨{ h.1 with fin := fun n hn => ⟨i, ?_, (Option.some.inj hn).symm.trans hsent.seqNr, hi⟩ }, rfl⟩
      by_contra hne
      rw [hsent.type, if_neg hne] at hty
      nomatch hty
    · exact ⟨h.1, rfl⟩
  obtain ⟨hnoted, hreorder⟩ := hnoted
  unfold ConnState.bufferPacket
  simp only
  split
  · have hinsert : ((s.noteFin hd).insertBuffered hd.seqNr payload).reorder = (s.noteFin hd).reorder.insert hd.seqNr payload := by
      unfold insertBuffered
      simp only
      split <;> rfl
    have hquiet : ((s.noteFin hd).insertBuffered hd.seqNr payload).Delivers I out (k + maxReorderDistance) k := by
      have hearly : ∀ n buf, ((s.noteFin hd).insertBuffered hd.seqNr payload).reorder.get? n = some buf → ∃ j, k < j ∧
          j ≤ k + maxReorderDistance ∧ n = I.number j ∧ buf = I.data j ∧ ∀ f, I.fin = some f → j ≤ f := by
        intro n buf hbuf
        rw [hinsert] at hbuf
        by_cases hn : n = hd.seqNr
        · rw [hn, OrdMap.get?_insert_self] at hbuf
          exact ⟨i, by omega, hi, hn.trans hsent.seqNr, (Option.some.inj hbuf).symm.trans hsent.payload, hsent.le_fin⟩
        · rw [OrdMap.get?_insert_of_ne _ _ hn] at hbuf
          exact hnoted.early n buf hbuf
      revert hearly
      unfold insertBuffered
      simp only
      intro hearly
      split at hearly
      · exact { hnoted with early := hearly }
      · exact { hnoted with early := hearly }
    refine ⟨hquiet, ?_⟩
    have hne : I.number (k + 1) ≠ hd.seqNr := by
      intro heq
      have := I.eq_of_number (heq.trans hsent.seqNr) (by omega) (by unfold maxReorderDistance at hi; omega)
      omega
    rw [hinsert, OrdMap.get?_insert_of_ne _ _ hne, hreorder]
    exact h.2
  · exact ⟨hnoted, hreorder ▸ h.2⟩

/-- A packet less than half of the numbers away is taken with those that follow it, or buffered, or dropped. -/
theorem CaughtUp.placePacket (h : s.CaughtUp I out k) {hd : UtpHeader} {payload : List UInt8} {i : Nat} (hsent : I.Sends hd payload i)
    (hold : k ≤ i + 2 ^ 15) (hnew : i < k + 2 ^ 16) (now : Nat) : (s.placePacket hd payload now).Advanced I out k := by
  have hdist := I.toNat_number_sub i k
  unfold ConnState.placePacket
  simp only [hsent.seqNr, h.1.ackNr]
  generalize (I.number i - I.number k).toNat = d at hdist ⊢
  split
  · exact h.advanced
  split
  · exact h.advanced
  split
  · exact h.advanced
  split
  · rename_i hnear _ hone
    obtain rfl : i = k + 1 := by omega
    have hfin : hd.packetType = .fin → I.fin = some (k + 1) := by
      rw [hsent.type]
      split
      · exact fun _ => ‹_›
      · nofun
    have hnext := h.1.consume h.2 (by unfold maxReorderDistance; omega) _ hfin hsent.le_fin now
    rw [← hsent.payload] at hnext
    obtain ⟨k', hk, hk', hdrained⟩ := hnext.drainReorder now (Nat.le_refl _) (by unfold maxReorderDistance; omega)
      (by unfold maxReorderDistance; omega)
    exact ⟨k', by omega, hk', hdrained.1.mono (by omega), hdrained.2⟩
  · exact (h.bufferPacket hsent (by omega) (by omega)).advanced

theorem CaughtUp.acceptPacket [F64 F] (h : s.CaughtUp I out k) {hd : UtpHeader} {payload : List UInt8} (now : Nat)
    (hpacket : I.Arrives hd payload k) : (s.acceptPacket hd payload now).Advanced I out k := by
  have hpeer : s.Quiet ((s.notePeer hd now).connectOn hd) := by
    unfold connectOn
    rw [if_neg (fun hsyn => h.1.dialled hsyn.1)]
    exact ⟨rfl, id⟩
  have hacks := (h.quiet hpeer).quiet (.processAcks _ hd now)
  unfold ConnState.acceptPacket
  simp only
  generalize ((s.notePeer hd now).connectOn hd).processAcks hd now = t at hacks ⊢
  generalize ((s.notePeer hd now).connectOn hd).unacked.length = before
  have hnotified : (if t.unacked.length < before then t.notifyWrite else t).CaughtUp I out k := by
    split
    · exact hacks.quiet ⟨rfl, id⟩
    · exact hacks
  generalize (if t.unacked.length < before then t.notifyWrite else t) = u at hnotified ⊢
  have hend : ∀ {k' : Nat} {t : ConnState F}, t.CaughtUp I out k' → (t.noteEof.maybeFinish now).CaughtUp I out k' :=
    fun ht => (ht.quiet (.of_core (core_noteEof _))).quiet (.maybeFinish _ now)
  have hplaced : (∃ i, I.Sends hd payload i ∧ k ≤ i + 2 ^ 15 ∧ i < k + 2 ^ 16) →
      ((u.acceptInorder hd payload now).noteEof.maybeFinish now).Advanced I out k := by
    rintro ⟨i, hsent, hold, hnew⟩
    have hack : ({ u with needsAck := true } : ConnState F).CaughtUp I out k := hnotified.quiet ⟨rfl, id⟩
    obtain ⟨k', hk, hk', hcaught⟩ := hack.placePacket hsent hold hnew now
    refine ⟨k', hk, hk', hend ?_⟩
    unfold acceptInorder
    rwa [if_neg (by simp [hnotified.1.reader])]
  have hstay := (hend hnotified).advanced
  rcases hpacket with ⟨hdata, hfin⟩ | hsent
  · cases hty : hd.packetType with
    | data => exact absurd hty hdata
    | fin => exact absurd hty hfin
    | state | syn | reset => exact hstay
  · cases hd.packetType with
    | data | fin => exact hplaced hsent
    | state | syn | reset => exact hstay

theorem CaughtUp.handlePacket [F64 F] (h : s.CaughtUp I out k) {hd : UtpHeader} (payload : List UInt8) (now : Nat)
    (hpacket : I.Arrives hd payload k) : (s.handlePacket hd payload now).Advanced I out k := by
  have hstay : ∀ {t : ConnState F}, s.Quiet t → t.Advanced I out k := fun hq => (h.quiet hq).advanced
  unfold ConnState.handlePacket
  split
  · exact hstay (.refl s)
  split
  · split
    · exact hstay (.fail s _)
    · exact hstay (.refl s)
  split
  · split
    · exact hstay ⟨rfl, id⟩
    · exact hstay (.refl s)
  split
  · exact hstay (.refl s)
  split
  · exact hstay (.refl s)
  split
  · exact hstay (.refl s)
  · exact h.acceptPacket now hpacket

/-- The bytes that an answer of `poll_read` hands over. -/
def bytesRead : Option (Except ErrorKind (List UInt8)) → List UInt8
  | some (.ok bytes) => bytes
  | _ => []

theorem CaughtUp.pollRead (h : s.CaughtUp I out k) (n : Nat) : (s.pollRead n).1.CaughtUp I (out ++ bytesRead (s.pollRead n).2) k := by
  have hnothing : s.CaughtUp I (out ++ []) k := (List.append_nil out).symm ▸ h
  unfold ConnState.pollRead
  split
  · have hread : ({ s with recvReady := s.recvReady.drop n } : ConnState F).CaughtUp I (out ++ s.recvReady.take n) k := by
      refine ⟨{ h.1 with ready := ?_ }, h.2⟩
      show out ++ s.recvReady.take n ++ s.recvReady.drop n = I.stream k
      rw [List.append_assoc, List.take_append_drop, h.1.ready]
    exact hread.quiet (.of_core (core_noteWindowUpdate _))
  · split
    · exact hnothing
    split
    · exact hnothing
    · exact hnothing.quiet ⟨rfl, id⟩

end ConnState

end Risuko
