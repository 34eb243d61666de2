import Risuko.Utp.ConnState

/-!
# The sending half of a uTP connection

The search for the path MTU, new packets, retransmissions, cumulative and selective acks, the congestion window, and
`fill_send_window`, which sends what the windows allow.
-/

namespace Risuko

namespace ConnState

variable {F : Type}

/-! ## Path MTU search -/

def setMtuFloor (s : ConnState F) (floor : Nat) : ConnState F :=
  { s with
    mtuFloor := floor
    packetSize := floor - utpOverhead }

/-- The limits of the search when an acked probe was above the ceiling. -/
def raiseMtuCeiling (s : ConnState F) : ConnState F :=
  if s.mtuFloor > s.mtuCeiling then
    { s with mtuCeiling := s.mtuFloor }.setMtuFloor ((s.remote.minDatagram + s.mtuFloor) / 2)
  else s

def updateMtuLimits (s : ConnState F) : ConnState F := { s.raiseMtuCeiling with mtuProbe := none }

/-- Count a probe that is resolved. -/
def noteResolved (s : ConnState F) : ConnState F := { s with probesResolved := s.probesResolved + 1 }

def maybeReopenMtuSearch (s : ConnState F) (now : Nat) : ConnState F :=
  if !s.pmtud then s
  else if now ≥ s.mtuReprobeAt then
    { s with
      mtuReprobeAt := now + mtuReprobeInterval
      mtuCeiling := max s.mtuCeiling s.remote.maxDatagram
      searchesReopened := s.searchesReopened + 1 }
  else s

def shouldProbe (s : ConnState F) : Bool :=
  s.pmtud && s.state = .connected && s.mtuProbe.isNone && s.probeOut.isNone &&
    decide (s.mtuCeiling ≥ s.mtuFloor + mtuSearchGranularity) && decide (s.maxWindow > 3 * s.mtuFloor)

def probePayload (s : ConnState F) : Nat :=
  let sack := match s.buildSelectiveAck with
    | none => 0
    | some mask => 2 + mask.length
  (s.mtuFloor + s.mtuCeiling) / 2 - headerLen - sack

def onMtuProbeAcked (s : ConnState F) (seq : UInt16) : ConnState F :=
  match s.mtuProbe with
  | some (probe, size) => if probe = seq then (s.setMtuFloor (max s.mtuFloor size)).updateMtuLimits.noteResolved else s
  | none => s

/-- The answer is whether the loss is put down to the size of the probe. -/
def onMtuProbeLost (s : ConnState F) (seq : UInt16) : ConnState F × Bool :=
  match s.mtuProbe with
  | some (probe, size) =>
    if probe = seq && size ≤ s.mtuFloor then ({ s with mtuProbe := none }, false)
    else if probe = seq then ({ s with mtuCeiling := size - 1 }.updateMtuLimits.noteResolved, true)
    else (s, false)
  | none => (s, false)

/-! ## Packets -/

/-- The packet that takes the next sequence number. -/
def freshPacket (s : ConnState F) (packetType : PacketType) (payload : List UInt8) (now : Nat) : OutPacket where
  packetType := packetType
  seqNr := s.seqNr
  payload := payload
  sentAt := now
  transmissions := 1
  needResend := false
  fastResent := false
  number := s.numbered

def transmitProbe (s : ConnState F) (payload : List UInt8) (now : Nat) : ConnState F :=
  let p := s.freshPacket .data payload now
  let bytes := s.encode p now
  let s := s.advertise
  { s with
    seqNr := s.seqNr + 1
    inFlight := s.inFlight + payload.length
    mtuProbe := some (p.seqNr, bytes.length)
    probeOut := some (p.seqNr, bytes)
    unacked := s.unacked ++ [p]
    probeDue := false
    needsAck := false
    numbered := s.numbered + 1 }.armRto now

def transmitNew (s : ConnState F) (packetType : PacketType) (payload : List UInt8) (now : Nat) : ConnState F :=
  let p := s.freshPacket packetType payload now
  let bytes := s.encode p now
  let s := s.advertise
  { s with
    seqNr := s.seqNr + 1
    inFlight := s.inFlight + payload.length
    outbox := s.outbox ++ [bytes]
    unacked := s.unacked ++ [p]
    probeDue := false
    needsAck := false
    numbered := s.numbered + 1 }.armRto now

/-- The books when the packet at `idx` goes out again: it is in flight, and no longer waiting to be resent. -/
def markResent (s : ConnState F) (idx : Nat) (p : OutPacket) (now : Nat) : ConnState F :=
  let p' := { p with sentAt := now, transmissions := p.transmissions + 1, needResend := false }
  let s := { s with unacked := s.unacked.set idx p' }
  if p.needResend then
    let s := s.subResendCount 1
    { s with inFlight := s.inFlight + p.payload.length }
  else s

def retransmit (s : ConnState F) (idx : Nat) (now : Nat) : ConnState F :=
  match s.unacked[idx]? with
  | none => s
  | some p =>
    let s := s.markResent idx p now
    let bytes := s.encode p now
    let s := s.advertise
    { s with
      outbox := s.outbox ++ [bytes]
      probeDue := false
      needsAck := false }.armRto now

def mtuProbeSendFailed (s : ConnState F) (seq : UInt16) (tooBig : Bool) (now : Nat) : ConnState F :=
  let s :=
    if tooBig then (s.onMtuProbeLost seq).1
    else if s.mtuProbe.any (fun probe => probe.1 = seq) then { s with mtuProbe := none }
    else s
  match s.unacked.findIdx? (fun p => p.seqNr = seq) with
  | some idx => s.retransmit idx now
  | none => s

def onLoss (s : ConnState F) : ConnState F :=
  if s.recoverySeq.isNone then
    let maxWindow := max (s.maxWindow / 2) minWindow
    { s with
      recoverySeq := some (s.seqNr - 1)
      maxWindow := maxWindow
      ssThresh := maxWindow
      slowStart := false }
  else s

/-! ## Acks -/

def updateRtt [F64 F] (s : ConnState F) (sample : Nat) : ConnState F :=
  let x : F := F64.asSecs sample
  let (rtt, rttVar) :=
    if F64.eq s.rtt 0.0 then (x, x / 2.0)
    else (0.875 * s.rtt + 0.125 * x, 0.75 * s.rttVar + 0.25 * F64.abs (s.rtt - x))
  { s with
    rtt := rtt
    rttVar := rttVar
    rto := max minRto (min maxRto (F64.fromSecs (rtt + 4.0 * rttVar))) }

/-- A packet sent once gives a sample of the round trip, and may be the outstanding probe. -/
def sampleAcked [F64 F] (s : ConnState F) (seq : UInt16) (elapsed : Nat) : ConnState F :=
  (s.updateRtt elapsed).onMtuProbeAcked seq

/-- The loop of `process_ack`: the packets up to `ackNr` leave the queue. The fuel is the length of the queue. The answer is
the state, the bytes acked and whether any packet was. -/
def popAcked [F64 F] (ackNr : UInt16) (now : Nat) : Nat → ConnState F → Nat → Bool → ConnState F × Nat × Bool
  | 0, s, ackedBytes, ackedAny => (s, ackedBytes, ackedAny)
  | fuel + 1, s, ackedBytes, ackedAny =>
    match s.unacked with
    | [] => (s, ackedBytes, ackedAny)
    | p :: rest =>
      if seqAfter p.seqNr ackNr then (s, ackedBytes, ackedAny)
      else
        let s := { s with unacked := rest }.accountRemoved p
        let s := if p.transmissions = 1 then s.sampleAcked p.seqNr (now - p.sentAt) else s
        popAcked ackNr now fuel s (ackedBytes + p.payload.length) true

/-- Mark the packet at `idx` as resent by fast retransmission. -/
def setFastResent (s : ConnState F) (idx : Nat) : ConnState F :=
  { s with unacked := s.unacked.modify idx OutPacket.markFastResent }

def fastRetransmitFront (s : ConnState F) (ackNr : UInt16) (now : Nat) : ConnState F :=
  let lost := ackNr + 1
  match s.unacked with
  | [] => s
  | p :: _ =>
    if p.seqNr = lost && s.mayFastResend p now then
      let s := s.setFastResent 0
      let (s, tooBig) := s.onMtuProbeLost lost
      let s := if tooBig then s else s.onLoss
      s.retransmit 0 now
    else s

/-- The end of a recovery once the packets sent before the loss are acked. -/
def endRecovery (s : ConnState F) (ackNr : UInt16) : ConnState F :=
  match s.recoverySeq with
  | some rseq => if seqAfter rseq ackNr then s else { s with recoverySeq := none }
  | none => s

/-- The bookkeeping of `process_ack` after its loop. -/
def afterAck (s : ConnState F) (h : UtpHeader) (ackedAny : Bool) (now : Nat) : ConnState F :=
  if ackedAny then
    let s := { s with dupAcks := 0 }.endRecovery h.ackNr
    { s with rtoBase := if s.unacked.isEmpty then none else some now }
  else if h.packetType = .state ∧ s.lastAck = some h.ackNr ∧ !s.unacked.isEmpty then
    let s := { s with dupAcks := s.dupAcks + 1 }
    if s.dupAcks = dupAckThreshold then s.fastRetransmitFront h.ackNr now else s
  else s

def processAck [F64 F] (s : ConnState F) (h : UtpHeader) (now : Nat) : ConnState F × Nat :=
  let (s, ackedBytes, ackedAny) := popAcked h.ackNr now s.unacked.length s 0 false
  ({ s.afterAck h ackedAny now with lastAck := some h.ackNr }, ackedBytes)

/-- `u8::count_ones`. -/
def countOnes (b : UInt8) : Nat := (List.range 8).countP (fun i => (b &&& 1 <<< UInt8.ofNat i) != 0)

/-- Whether the mask of a selective ack has a bit. -/
def sackIsSet (mask : List UInt8) (bit : Nat) : Bool :=
  decide (bit < mask.length * 8) && ((mask.getD (bit / 8) 0 &&& 1 <<< UInt8.ofNat (bit % 8)) != 0)

/-- The bit of a sequence number in a mask that starts at `base`. -/
def sackBitOf (base seq : UInt16) : Nat := (seq - base).toNat

/-- Whether a selective ack acknowledges a packet. -/
def isSacked (ackNr : UInt16) (mask : List UInt8) (p : OutPacket) : Bool :=
  sackIsSet mask (sackBitOf (ackNr + 2) p.seqNr)

/-- The sampling of the packets acked by a selective ack, in queue order. -/
def sampleAll [F64 F] (s : ConnState F) (gone : List OutPacket) (now : Nat) : ConnState F :=
  (gone.filter (fun p => p.transmissions = 1)).foldl (fun s p => s.sampleAcked p.seqNr (now - p.sentAt)) s

/-- The removal of the packets acked by a selective ack, with the books kept for the whole batch. -/
def removeSacked [F64 F] (s : ConnState F) (ackNr : UInt16) (mask : List UInt8) (now : Nat) : ConnState F :=
  let gone := s.unacked.filter (isSacked ackNr mask)
  let s := { s with unacked := s.unacked.filter (fun p => !isSacked ackNr mask p) }
  let s := s.subInFlight ((gone.filter (fun p => !p.needResend)).map (fun p => p.payload.length)).sum
  let s := s.subResendCount (gone.countP (fun p => p.needResend))
  s.sampleAll gone now

/-- Move the cursor past `bit`, counting the set bits it passes. -/
def countBelow (mask : List UInt8) (bit : Nat) : Nat → Nat → Nat → Nat × Nat
  | 0, cursor, setBelow => (cursor, setBelow)
  | fuel + 1, cursor, setBelow =>
    if cursor ≤ bit then countBelow mask bit fuel (cursor + 1) (setBelow + (if sackIsSet mask cursor then 1 else 0))
    else (cursor, setBelow)

/-- The scan for lost packets: those that may be resent and have enough sacked packets after them. One cursor runs over the
mask, and `setBelow` counts the set bits below it. -/
def findLost (s : ConnState F) (base : UInt16) (mask : List UInt8) (total now : Nat) :
    List OutPacket → Nat → Nat → Nat → List Nat
  | [], _, _, _ => []
  | p :: rest, idx, cursor, setBelow =>
    if !s.mayFastResend p now then findLost s base mask total now rest (idx + 1) cursor setBelow
    else
      let bit := sackBitOf base p.seqNr
      let (cursor, setBelow, sackedAfter) :=
        if bit ≥ 0x8000 then (cursor, setBelow, total)
        else if bit ≥ mask.length * 8 then (cursor, setBelow, 0)
        else
          let (cursor, setBelow) := countBelow mask bit (bit + 1 - cursor) cursor setBelow
          (cursor, setBelow, total - setBelow)
      if sackedAfter ≥ dupAckThreshold then idx :: findLost s base mask total now rest (idx + 1) cursor setBelow
      else findLost s base mask total now rest (idx + 1) cursor setBelow

/-- Judge the lost packets: whether any loss is not put down to an MTU probe. -/
def judgeLost : List Nat → ConnState F → Bool → ConnState F × Bool
  | [], s, congestion => (s, congestion)
  | idx :: rest, s, congestion =>
    match s.unacked[idx]? with
    | none => judgeLost rest s congestion
    | some p =>
      let (s, tooBig) := s.onMtuProbeLost p.seqNr
      judgeLost rest s (congestion || !tooBig)

/-- Resend the lost packets. -/
def resendLost (s : ConnState F) (lost : List Nat) (now : Nat) : ConnState F :=
  if lost.isEmpty then s
  else
    let (s, congestion) := judgeLost lost s false
    let s := if congestion then s.onLoss else s
    lost.foldl (fun s idx => (s.setFastResent idx).retransmit idx now) s

def processSelectiveAck [F64 F] (s : ConnState F) (ackNr : UInt16) (mask : List UInt8) (now : Nat) : ConnState F × Nat :=
  let total := (mask.map countOnes).sum
  if total = 0 then (s, 0)
  else
    let ackedBytes := ((s.unacked.filter (isSacked ackNr mask)).map (fun p => p.payload.length)).sum
    let s := s.removeSacked ackNr mask now
    let lost := findLost s (ackNr + 2) mask total now s.unacked 0 0 0
    (s.resendLost lost now, ackedBytes)

def windowLimited (s : ConnState F) (now : Nat) : Bool := s.lastMaxedOut.any (fun at_ => now - at_ < maxedOutWindowMemory)

/-- The delay factor of an ack, after its delay sample is added. -/
def delayFactor [F64 F] (s : ConnState F) (theirDelay : UInt32) (now : Nat) : ConnState F × F :=
  if theirDelay = 0 then (s, 0.0)
  else
    let (delay, ourDelay) := s.delay.addSample theirDelay now
    ({ s with delay := delay }, (100000.0 - F64.ofNat ourDelay.toNat) / 100000.0)

/-- Whether slow start goes on after an ack, and what the ack adds to the window. -/
def windowGain [F64 F] (s : ConnState F) (delayFactor : F) (ackedBytes now : Nat) : Bool × F :=
  let acked : F := F64.ofNat ackedBytes
  let window : F := F64.ofNat (max s.maxWindow 1)
  let windowFactor := F64.min acked window / F64.max window acked
  let gain := 3000.0 * delayFactor * windowFactor
  let gain := if F64.lt 0.0 gain && !s.windowLimited now then 0.0 else gain
  if s.slowStart then
    if F64.lt delayFactor 0.0 then (false, gain)
    else if s.windowLimited now then
      let ssGain := F64.max gain acked
      if F64.lt (F64.ofNat s.ssThresh) (F64.ofNat s.maxWindow + ssGain) then (false, gain) else (true, ssGain)
    else (true, gain)
  else (false, gain)

def updateCwnd [F64 F] (s : ConnState F) (theirDelay : UInt32) (ackedBytes now : Nat) : ConnState F :=
  if ackedBytes = 0 then s
  else
    let (s, delayFactor) := s.delayFactor theirDelay now
    let (slowStart, gain) := s.windowGain delayFactor ackedBytes now
    let next := F64.toI64 (F64.ofNat s.maxWindow + gain)
    { s with
      slowStart := slowStart
      maxWindow := (max (minWindow : Int) (min (maxCwnd : Int) next)).toNat }

/-! ## Filling the send window -/

/-- The payload length of a queued packet. -/
def queuedLen (s : ConnState F) (idx : Nat) : Nat := ((s.unacked[idx]?).map (fun p => p.payload.length)).getD 0

/-- Resend what waits to be resent, in queue order. The fuel is `resend_count`: every round lowers it by one. The answer is the
state, the packets sent and whether the burst limit stopped the loop. -/
def resendLoop (burst now : Nat) : Nat → ConnState F → Nat → ConnState F × Nat × Bool
  | 0, s, sent => (s, sent, false)
  | fuel + 1, s, sent =>
    match s.unacked.findIdx? (fun p => p.needResend) with
    | none => (s, sent, false)
    | some idx =>
      if !s.maySend (s.queuedLen idx) then (s.noteCwndBlock (s.queuedLen idx) now, sent, false)
      else if sent ≥ burst then (s, sent, true)
      else resendLoop burst now fuel (s.retransmit idx now) (sent + 1)

/-- Take `n` bytes from the send buffer and send them as an MTU probe. -/
def sendProbe (s : ConnState F) (n now : Nat) : ConnState F := (s.takeSend n).2.transmitProbe (s.takeSend n).1 now

/-- Take `n` bytes from the send buffer and send them in a new packet. -/
def sendData (s : ConnState F) (n now : Nat) : ConnState F := (s.takeSend n).2.transmitNew .data (s.takeSend n).1 now

/-- Send new packets from the send buffer. The fuel is the length of the buffer: every round takes at least one byte. -/
def sendLoop (burst now : Nat) : Nat → ConnState F → Nat → ConnState F × Bool
  | 0, s, _ => (s, false)
  | fuel + 1, s, sent =>
    if s.sendBuf.isEmpty then (s, false)
    else if s.shouldProbe && decide (s.sendBuf.length ≥ s.probePayload) && s.maySend s.probePayload then
      sendLoop burst now fuel (s.sendProbe s.probePayload now) (sent + 1)
    else
      let take := min s.sendBuf.length s.packetSize
      if take < s.packetSize ∧ s.bytesInFlight > 0 ∧ !s.wantFin then (s, false)
      else if !s.maySend take then (s.noteCwndBlock take now, false)
      else if sent ≥ burst then (s, true)
      else sendLoop burst now fuel (s.sendData take now) (sent + 1)

/-- The new packets of `fill_send_window`, unless the resends have used up the burst. -/
def sendNew (s : ConnState F) (burst sent : Nat) (paced : Bool) (now : Nat) : ConnState F × Bool :=
  if s.state = .connected ∧ !paced then
    let s := if s.sendBuf.isEmpty then s else s.maybeReopenMtuSearch now
    sendLoop burst now s.sendBuf.length s sent
  else (s, paced)

def notePaced [F64 F] (s : ConnState F) (burst : Nat) (paced : Bool) (now : Nat) : ConnState F :=
  if paced then
    { s with
      paceAt := some (now + s.paceInterval burst)
      lastMaxedOut := some now }
  else s

/-- Arm the zero-window probe when there is something to send and nothing in flight. -/
def armProbe (s : ConnState F) (now : Nat) : ConnState F :=
  let blocked := !s.sendBuf.isEmpty || s.resendCount > 0
  if blocked && s.bytesInFlight = 0 && s.probeAt.isNone && !s.probeDue then
    { s with probeAt := some (now + max s.rto minZeroWindowProbe) }
  else s

def fillSendWindow [F64 F] (s : ConnState F) (now : Nat) : ConnState F :=
  if s.state = .synSent ∨ s.state = .closed then s
  else if s.paceAt.any (fun at_ => now < at_) then s
  else
    let s := { s with paceAt := none }
    let burst := s.burstLimit
    let (s, sent, paced) := resendLoop burst now s.resendCount s 0
    let (s, paced) := s.sendNew burst sent paced now
    (s.notePaced burst paced now).armProbe now

end ConnState

end Risuko
