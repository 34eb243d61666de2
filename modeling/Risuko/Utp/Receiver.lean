import Risuko.Utp.Sender

/-!
# Packets and timers of a uTP connection

The receiving half (`accept_inorder`), the handling of a packet, the timers, and the ends of a connection.
-/

namespace Risuko

namespace ConnState

variable {F : Type}

/-! ## Ends of a connection -/

def clearUnacked (s : ConnState F) : ConnState F :=
  { s with
    unacked := []
    inFlight := 0
    resendCount := 0 }

def fail (s : ConnState F) (kind : ErrorKind) : ConnState F :=
  { s.clearUnacked with
    error := some (s.error.getD kind)
    state := .closed
    eof := true
    sendBuf := []
    rtoBase := none
    probeAt := none
    paceAt := none
    connectNotify := false }.notifyRead.notifyWrite

def abort (s : ConnState F) (now : Nat) : ConnState F :=
  if s.state = .closed then s
  else
    let reset := (s.header .reset s.connIdSend s.seqNr now).encode []
    let s := s.advertise.fail .connectionAborted
    { s with
      outbox := s.outbox ++ [reset]
      needsAck := false
      pendingDeadline := none
      dropDeadline := none }

def seedResponder (s : ConnState F) (syn : UtpHeader) (now : Nat) : ConnState F :=
  { s with
    ackNr := syn.seqNr
    peerWnd := syn.wndSize
    replyMicros := nowMicros now - syn.timestampMicros }

def forceClose (s : ConnState F) : ConnState F :=
  { s.clearUnacked with
    state := .closed
    error := some (s.error.getD .timedOut)
    sendBuf := []
    rtoBase := none
    probeAt := none
    paceAt := none }

def maybeSendFin (s : ConnState F) (now : Nat) : ConnState F :=
  if s.wantFin ∧ s.state = .connected ∧ s.sendBuf.isEmpty then
    { s.transmitNew .fin [] now with state := .finSent }
  else s

def maybeFinish (s : ConnState F) (now : Nat) : ConnState F :=
  if s.state = .finSent ∧ s.unacked.isEmpty then
    if s.eof then { s with state := .closed }
    else { s with finAckedAt := some (s.finAckedAt.getD now) }
  else s

def noteWindowUpdate (s : ConnState F) : ConnState F :=
  let threshold := UInt32.ofNat s.packetSize
  if s.lastAdvertised < threshold ∧ s.advertisedWindow ≥ threshold then { s with needsAck := true } else s

/-! ## Receiving -/

def recvId (s : ConnState F) : UInt16 := if s.isInitiator then s.connIdSend - 1 else s.connIdSend + 1

def acceptsReset (s : ConnState F) (h : UtpHeader) : Bool :=
  if h.connectionId ≠ s.recvId ∧ h.connectionId ≠ s.connIdSend then false
  else
    let oldest := match s.unacked with
      | [] => s.seqNr
      | p :: _ => p.seqNr
    let floor := oldest - 1
    h.ackNr - floor ≤ s.seqNr - floor

def reorderLimit (s : ConnState F) : Nat :=
  if s.pendingDeadline.isSome then pendingReorderPackets else recvBufMax / s.packetSize

def consume (s : ConnState F) (ty : PacketType) (seq : UInt16) (payload : List UInt8) (now : Nat) : ConnState F :=
  let s := { s with ackNr := seq }
  if ty = .fin then { s with peerFin := some seq }
  else if !payload.isEmpty && !s.readerGone then
    { s with
      recvReady := s.recvReady ++ payload
      finAckedAt := s.finAckedAt.map (fun _ => now) }.notifyRead
  else s

/-- Take a buffered packet out of the buffer. -/
def takeBuffered (s : ConnState F) (seq : UInt16) (buf : List UInt8) : ConnState F :=
  { s with reorder := s.reorder.erase seq }.subReorderBytes buf.length

/-- Consume the buffered packets that are next in order. The fuel is the number of buffered packets. -/
def drainReorder (now : Nat) : Nat → ConnState F → ConnState F
  | 0, s => s
  | fuel + 1, s =>
    let next := s.ackNr + 1
    match s.reorder.get? next with
    | none => s
    | some buf =>
      let s := s.takeBuffered next buf
      let ty := if s.peerFin = some next then PacketType.fin else .data
      drainReorder now fuel (s.consume ty next buf now)

/-- Record the number of a FIN that is not next in order. -/
def noteFin (s : ConnState F) (h : UtpHeader) : ConnState F :=
  if h.packetType = .fin then { s with peerFin := some h.seqNr } else s

/-- Put a packet into the buffer, in the place of an older copy. -/
def insertBuffered (s : ConnState F) (seq : UInt16) (payload : List UInt8) : ConnState F :=
  let old := s.reorder.get? seq
  let s := { s with reorder := s.reorder.insert seq payload }
  let s := match old with
    | some old => s.subReorderBytes old.length
    | none => s
  { s with reorderBytes := s.reorderBytes + payload.length }

/-- Buffer a packet that is not next in order. Of a FIN the number is recorded even when the buffer is full. -/
def bufferPacket (s : ConnState F) (h : UtpHeader) (payload : List UInt8) : ConnState F :=
  let s := s.noteFin h
  if s.reorder.size < s.reorderLimit then s.insertBuffered h.seqNr payload else s

/-- Consume a packet that is next in order, or buffer one that is not. -/
def placePacket (s : ConnState F) (h : UtpHeader) (payload : List UInt8) (now : Nat) : ConnState F :=
  let distance := (h.seqNr - s.ackNr).toNat
  if distance = 0 ∨ distance ≥ 0x8000 then s
  else if distance > maxReorderDistance then s
  else if s.advertisedWindow = 0 ∧ !payload.isEmpty then s
  else if distance = 1 then
    let s := s.consume h.packetType h.seqNr payload now
    drainReorder now s.reorder.size s
  else s.bufferPacket h payload

def acceptInorder (s : ConnState F) (h : UtpHeader) (payload : List UInt8) (now : Nat) : ConnState F :=
  { s with needsAck := true }.placePacket h (if s.readerGone then [] else payload) now

/-- What every accepted packet says of the peer: its window and its clock. -/
def notePeer (s : ConnState F) (h : UtpHeader) (now : Nat) : ConnState F :=
  { s with
    peerWnd := h.wndSize
    probeAt := if h.wndSize > s.peerWnd then none else s.probeAt
    replyMicros := nowMicros now - h.timestampMicros }

/-- The answer to our SYN connects the initiator. -/
def connectOn (s : ConnState F) (h : UtpHeader) : ConnState F :=
  if s.state = .synSent ∧ h.packetType = .state then
    { s with
      state := .connected
      ackNr := h.seqNr - 1
      connectNotify := false }.notifyWrite
  else s

/-- The cumulative and the selective ack of a packet, and their effect on the congestion window. -/
def processAcks [F64 F] (s : ConnState F) (h : UtpHeader) (now : Nat) : ConnState F :=
  let (s, acked) := s.processAck h now
  let (s, acked) := match h.selectiveAck with
    | some mask =>
      let (s, sacked) := s.processSelectiveAck h.ackNr mask now
      (s, acked + sacked)
    | none => (s, acked)
  s.updateCwnd h.timestampDiffMicros acked now

/-- The end of the stream is reached once the FIN of the peer is consumed. -/
def noteEof (s : ConnState F) : ConnState F :=
  match s.peerFin with
  | some fin => if seqAfter fin s.ackNr then s else { s with eof := true }.notifyRead
  | none => s

/-- `handle_packet` past its early returns. -/
def acceptPacket [F64 F] (s : ConnState F) (h : UtpHeader) (payload : List UInt8) (now : Nat) : ConnState F :=
  let s := (s.notePeer h now).connectOn h
  let unackedBefore := s.unacked.length
  let s := s.processAcks h now
  let s := if s.unacked.length < unackedBefore then s.notifyWrite else s
  let s := match h.packetType with
    | .data | .fin => s.acceptInorder h payload now
    | .state | .syn | .reset => s
  s.noteEof.maybeFinish now

def handlePacket [F64 F] (s : ConnState F) (h : UtpHeader) (payload : List UInt8) (now : Nat) : ConnState F :=
  if s.state = .closed then s
  else if h.packetType = .reset then
    if s.acceptsReset h then s.fail .connectionReset else s
  else if h.packetType = .syn then
    if !s.isInitiator then { s with needsAck := true } else s
  else if s.state = .synSent ∧ h.packetType ≠ .state then s
  else if s.pendingDeadline.isSome ∧ h.ackNr ≠ s.seqNr - 1 then s
  else if seqAfter h.ackNr (s.seqNr - 1) then s
  else s.acceptPacket h payload now

/-! ## Timers -/

/-- The earliest of the deadlines that are set. -/
def earliest (deadlines : List (Option Nat)) : Option Nat := deadlines.reduceOption.min?

def teardownAt (s : ConnState F) : Option Nat :=
  if s.state = .closed then none else earliest [s.pendingDeadline, s.dropDeadline]

/-- A retransmission timeout: everything unacked is to be resent, the front at once, and the window collapses. -/
def onTimeout (s : ConnState F) (now : Nat) : ConnState F :=
  { s with
    mtuProbe := none
    ssThresh := max (s.maxWindow / 2) (2 * s.packetSize)
    maxWindow := max s.packetSize minWindow
    slowStart := true
    rto := min (s.rto * 2) maxRto
    dupAcks := 0
    recoverySeq := none
    unacked := s.unacked.map OutPacket.markLost
    inFlight := 0
    resendCount := s.unacked.length
    rtoBase := none }.retransmit 0 now

/-- The retransmission timer of a connection whose oldest unacked packet is `front`. -/
def rtoExpired (s : ConnState F) (front : OutPacket) (now : Nat) : ConnState F :=
  if front.transmissions ≥ maxRetransmits then s.fail .timedOut
  else if s.unacked.length = 1 ∧ (s.onMtuProbeLost front.seqNr).2 then
    let s := (s.onMtuProbeLost front.seqNr).1
    { s with rtoBase := none }.retransmit 0 now
  else
    -- the call of `on_mtu_probe_lost` may have cleared the probe, which `onTimeout` does anyway
    s.onTimeout now

def checkRto (s : ConnState F) (now : Nat) : ConnState F :=
  match s.rtoBase with
  | none => s
  | some base =>
    match s.unacked with
    | [] => { s with rtoBase := none }
    | front :: _ => if now < base + s.rto then s else s.rtoExpired front now

/-- The zero-window probe falls due. -/
def checkProbe (s : ConnState F) (now : Nat) : ConnState F :=
  if s.probeAt.any (fun at_ => now ≥ at_) then
    { s with
      probeAt := none
      probeDue := true }
  else s

def checkTimers (s : ConnState F) (now : Nat) : ConnState F :=
  if s.teardownAt.any (fun at_ => now ≥ at_) then s.abort now
  else
    let s := s.checkProbe now
    if s.state = .finSent ∧ s.finAckedAt.any (fun at_ => now ≥ at_ + lingerTimeout) then
      { s with
        eof := true
        state := .closed }.notifyRead.notifyWrite
    else s.checkRto now

def nextDeadline (s : ConnState F) : Option Nat :=
  earliest
    [if s.unacked.isEmpty then none else s.rtoBase.map (fun base => base + s.rto),
      s.probeAt,
      s.sendRetryAt,
      if s.state = .finSent then s.finAckedAt.map (fun at_ => at_ + lingerTimeout) else none,
      if s.state = .connected ∨ s.state = .finSent then s.paceAt else none,
      s.teardownAt]

end ConnState

end Risuko
