import Risuko.Utp.Receiver

/-!
# The steps of a uTP connection

What the owner of a stream, the driver task and its flushes do to the state, each step under one hold of the lock, and the
runs of a connection: any number of such steps, in any order, from a new state.
-/

namespace Risuko

namespace ConnState

variable {F : Type}

/-! ## The stream -/

/-- `poll_read` into a buffer with room for `n` bytes; no answer means pending. -/
def pollRead (s : ConnState F) (n : Nat) : ConnState F × Option (Except ErrorKind (List UInt8)) :=
  if !s.recvReady.isEmpty then
    ({ s with recvReady := s.recvReady.drop n }.noteWindowUpdate, some (.ok (s.recvReady.take n)))
  else
    match s.error with
    | some kind => (s, some (.error kind))
    | none => if s.eof then (s, some (.ok [])) else ({ s with readWaker := true }, none)

def pollWrite (s : ConnState F) (data : List UInt8) : ConnState F × Option (Except ErrorKind Nat) :=
  match s.error with
  | some kind => (s, some (.error kind))
  | none =>
    if s.state = .finSent ∨ s.state = .closed ∨ s.wantFin then (s, some (.error .brokenPipe))
    else
      let room := sendBufMax - s.sendBuf.length
      if room = 0 then ({ s with writeWaker := true }, none)
      else
        let n := min data.length room
        ({ s with sendBuf := s.sendBuf ++ data.take n }, some (.ok n))

def pollFlush (s : ConnState F) : ConnState F × Option (Except ErrorKind Unit) :=
  match s.error with
  | some kind => (s, some (.error kind))
  | none =>
    if s.sendBuf.isEmpty ∧ s.bytesInFlight = 0 then (s, some (.ok ()))
    else ({ s with writeWaker := true }, none)

def pollShutdown (s : ConnState F) : ConnState F × Option (Except ErrorKind Unit) :=
  match s.error with
  | some kind => (s, some (.error kind))
  | none =>
    if s.state = .closed then (s, some (.ok ()))
    else
      let s := { s with wantFin := true }
      if s.state = .finSent ∧ s.unacked.isEmpty then (s, some (.ok ()))
      else ({ s with writeWaker := true }, none)

/-- The state without its reader: what was received is thrown away. -/
def dropReader (s : ConnState F) (now : Nat) : ConnState F :=
  { s with
    wantFin := true
    readerGone := true
    recvReady := []
    reorder := s.reorder.mapVal (fun _ _ => [])
    reorderBytes := 0
    readWaker := false
    writeWaker := false
    dropDeadline := if s.state = .closed then s.dropDeadline else some (s.dropDeadline.getD (now + droppedLifetime)) }

/-- `Drop for UtpStream`. -/
def dropStream (s : ConnState F) (now : Nat) : ConnState F :=
  let s := if s.abortOnDrop then s.abort now else s
  s.dropReader now

/-! ## The driver -/

/-- The SYN that opens a connection. -/
def synPacket (isn : UInt16) (now : Nat) : OutPacket where
  packetType := .syn
  seqNr := isn
  payload := []
  sentAt := now
  transmissions := 1
  needResend := false
  fastResent := false
  number := 0

/-- The start of the driver of an initiator: the SYN is queued under a random number. -/
def startInitiator (s : ConnState F) (pmtud : Bool) (isn : UInt16) (now : Nat) : ConnState F :=
  let s := { s with pmtud := pmtud, connectNotify := true, seqNr := isn + 1 }
  let synBytes := s.encode (synPacket isn now) now
  let s := s.advertise
  { s with
    outbox := s.outbox ++ [synBytes]
    unacked := s.unacked ++ [synPacket isn now] }.armRto now

/-- The start of the driver of a responder: the SYN is answered. -/
def startResponder (s : ConnState F) (pmtud : Bool) (now : Nat) : ConnState F :=
  let s := { s with pmtud := pmtud, pendingDeadline := some (now + pendingInboundTimeout) }
  let stateBytes := s.encodeState now
  let s := s.advertise
  { s with outbox := s.outbox ++ [stateBytes] }

inductive Handoff
  | keep
  | release
  | deliver
  deriving DecidableEq

/-- The decision about an inbound connection that is not handed to `accept` yet (`waiting`). -/
def handOff (s : ConnState F) (waiting : Bool) (now : Nat) : ConnState F × Handoff :=
  if !waiting then (s, .keep)
  else if s.state = .closed then (s, .release)
  else if !s.recvReady.isEmpty then ({ s with pendingDeadline := none }, .deliver)
  else (if s.eof then s.abort now else s, .keep)

/-- The ack that is owed. -/
def sendOwedAck (s : ConnState F) (now : Nat) : ConnState F :=
  if s.needsAck ∧ s.state ≠ .synSent then
    let ack := s.encodeState now
    let s := s.advertise
    { s with
      outbox := s.outbox ++ [ack]
      needsAck := false }
  else s

/-- What the driver does after every event. -/
def driveTail [F64 F] (s : ConnState F) (waiting : Bool) (now : Nat) : ConnState F × Handoff :=
  let s := ((s.fillSendWindow now).maybeSendFin now).fillSendWindow now
  let (s, action) := s.handOff waiting now
  ((s.sendOwedAck now).maybeFinish now, action)

/-! ## Flushing -/

/-- The start of a flush: the probe to be sent leaves the state, unless a failed send is waiting to be tried again. -/
def takeProbe (s : ConnState F) (now : Nat) : ConnState F × Option (UInt16 × List UInt8) :=
  if s.sendRetryAt.any (fun at_ => at_ > now) then (s, none)
  else ({ s with sendRetryAt := none, probeOut := none }, s.probeOut)

def takeOutbox (s : ConnState F) : ConnState F × List (List UInt8) := ({ s with outbox := [] }, s.outbox)

def scheduleSendRetry (s : ConnState F) (now : Nat) : ConnState F × Bool :=
  if s.sendRetryCount ≥ maxSendRetries then (s, false)
  else
    ({ s with
        sendRetryCount := s.sendRetryCount + 1
        sendRetryAt := some (now + sendRetryDelay) }, true)

def retryFailedDatagrams (s : ConnState F) (datagrams : List (List UInt8)) (now : Nat) : ConnState F × Bool :=
  let (s, retried) := s.scheduleSendRetry now
  if retried then ({ s with outbox := datagrams ++ s.outbox }, true) else (s, false)

/-- A datagram could not be sent: what is left is kept for later when the error is transient, else the connection fails. -/
def sendFailed (s : ConnState F) (recoverable : Bool) (kind : ErrorKind) (pending : List (List UInt8)) (now : Nat) :
    ConnState F :=
  if recoverable then
    let (s, retried) := s.retryFailedDatagrams pending now
    if retried then s else s.fail kind
  else s.fail kind

def recordSendSuccess (s : ConnState F) : ConnState F := { s with sendRetryCount := 0 }

end ConnState

/-- The steps on a connection. Besides those of the driver, its flushes and the stream there are the calls inside them
(`transmit_probe`, `retransmit`, `fail`), with any arguments. -/
inductive ConnOp
  | seedResponder (syn : UtpHeader)
  | startInitiator (pmtud : Bool) (isn : UInt16)
  | startResponder (pmtud : Bool)
  | pollRead (n : Nat)
  | pollWrite (data : List UInt8)
  | pollFlush
  | pollShutdown
  | armAbortOnDrop (armed : Bool)
  | dropStream
  | handlePacket (h : UtpHeader) (payload : List UInt8)
  | nudge
  | checkTimers
  | fillSendWindow
  | maybeSendFin
  | handOff (waiting : Bool)
  | sendOwedAck
  | driveTail (waiting : Bool)
  | maybeFinish
  | transmitProbe (payload : List UInt8)
  | retransmit (idx : Nat)
  | takeProbe
  | mtuProbeSendFailed (seq : UInt16) (tooBig : Bool)
  | takeOutbox
  | sendFailed (recoverable : Bool) (kind : ErrorKind) (pending : List (List UInt8))
  | recordSendSuccess
  | fail (kind : ErrorKind)
  | abort
  | forceClose

/-- The state after a step that reads the clock as `now`. -/
def ConnOp.apply {F : Type} [F64 F] (s : ConnState F) (now : Nat) : ConnOp → ConnState F
  | seedResponder syn => s.seedResponder syn now
  | startInitiator pmtud isn => s.startInitiator pmtud isn now
  | startResponder pmtud => s.startResponder pmtud now
  | pollRead n => (s.pollRead n).1
  | pollWrite data => (s.pollWrite data).1
  | pollFlush => s.pollFlush.1
  | pollShutdown => s.pollShutdown.1
  | armAbortOnDrop armed => { s with abortOnDrop := armed }
  | dropStream => s.dropStream now
  | handlePacket h payload => s.handlePacket h payload now
  | nudge => s.noteWindowUpdate
  | checkTimers => s.checkTimers now
  | fillSendWindow => s.fillSendWindow now
  | maybeSendFin => s.maybeSendFin now
  | handOff waiting => (s.handOff waiting now).1
  | sendOwedAck => s.sendOwedAck now
  | driveTail waiting => (s.driveTail waiting now).1
  | maybeFinish => s.maybeFinish now
  | transmitProbe payload => s.transmitProbe payload now
  | retransmit idx => s.retransmit idx now
  | takeProbe => (s.takeProbe now).1
  | mtuProbeSendFailed seq tooBig => s.mtuProbeSendFailed seq tooBig now
  | takeOutbox => s.takeOutbox.1
  | sendFailed recoverable kind pending => s.sendFailed recoverable kind pending now
  | recordSendSuccess => s.recordSendSuccess
  | fail kind => s.fail kind
  | abort => s.abort now
  | forceClose => s.forceClose

end Risuko
