import Risuko.Lib.OrdMap
import Risuko.Lib.Seq16
import Risuko.Net
import Risuko.Utp.Packet

/-!
# The state of a uTP connection

The state that both halves of a connection share, with the functions that only read it or keep its books. Instants and
durations are counted in nanoseconds, and a call reads the clock once (`now`). The floating-point arithmetic of the
congestion control is a parameter (`F64`).
-/

namespace Risuko

/-! ## Constants -/

def second : Nat := 1000000000

def millisecond : Nat := 1000000

def mss : Nat := 1200

def maxSackBytes : Nat := 32

def utpOverhead : Nat := headerLen + 2 + maxSackBytes

def minDatagramV6 : Nat := 1232

def minDatagramV4 : Nat := 548

def maxDatagramV4 : Nat := 1472

def maxDatagramV6 : Nat := 1452

def mtuSearchGranularity : Nat := 16

def mtuReprobeInterval : Nat := 600 * second

def recvBufMax : Nat := 1024 * 1024

def sendBufMax : Nat := 512 * 1024

def minWindow : Nat := 150

def maxCwnd : Nat := 2 * 1024 * 1024

def initialCwnd : Nat := 3 * mss

def minRto : Nat := 500 * millisecond

def maxRto : Nat := 10 * second

def initialRto : Nat := second

def maxRetransmits : Nat := 8

def sendRetryDelay : Nat := 100 * millisecond

def maxSendRetries : Nat := 8

def lingerTimeout : Nat := 30 * second

def droppedLifetime : Nat := 60 * second

def pendingInboundTimeout : Nat := 10 * second

def pendingReorderPackets : Nat := 16

def dupAckThreshold : Nat := 3

def maxReorderDistance : Nat := 2048

def baseDelayBucket : Nat := 60 * second

def baseDelayBuckets : Nat := 2

def curDelaySamples : Nat := 3

def minZeroWindowProbe : Nat := second

def minBurstPackets : Nat := 16

def minPaceInterval : Nat := millisecond

def maxPaceInterval : Nat := 100 * millisecond

def maxedOutWindowMemory : Nat := second

/-- The largest `usize`. -/
def usizeMax : Nat := 2 ^ 64 - 1

/-! ## Data -/

/-- The floating-point operations of the congestion control. -/
class F64 (F : Type) extends Add F, Sub F, Mul F, Div F, OfScientific F where
  lt : F → F → Bool
  le : F → F → Bool
  eq : F → F → Bool
  min : F → F → F
  max : F → F → F
  abs : F → F
  ceil : F → F
  ofNat : Nat → F
  toUsize : F → Nat
  toI64 : F → Int
  /-- `Duration::as_secs_f64`. -/
  asSecs : Nat → F
  /-- `Duration::from_secs_f64`. -/
  fromSecs : F → Nat

namespace SocketAddr

def initialDatagram (remote : SocketAddr) : Nat := if remote.isIpv6 then minDatagramV6 else mss + utpOverhead

def minDatagram (remote : SocketAddr) : Nat := if remote.isIpv6 then minDatagramV6 else minDatagramV4

def maxDatagram (remote : SocketAddr) : Nat := if remote.isIpv6 then maxDatagramV6 else maxDatagramV4

end SocketAddr

inductive UtpState
  | synSent
  | connected
  | finSent
  | closed
  deriving DecidableEq

/-- A packet that is sent and not acked yet. `number` is no field of the program: it counts the data and FIN packets that the
connection had sent before this one, and so tells apart packets of the same sequence number. -/
structure OutPacket where
  packetType : PacketType
  seqNr : UInt16
  payload : List UInt8
  sentAt : Nat
  transmissions : Nat
  needResend : Bool
  fastResent : Bool
  number : Nat
  deriving DecidableEq

/-- The packet once its retransmission timer has run out. -/
def OutPacket.markLost (p : OutPacket) : OutPacket :=
  { p with
    needResend := true
    fastResent := false }

/-- The packet once it is resent by fast retransmission. -/
def OutPacket.markFastResent (p : OutPacket) : OutPacket := { p with fastResent := true }

structure DelayHistory where
  history : List UInt32
  bucketMin : Option UInt32
  bucketStart : Option Nat
  recent : List UInt32
  deriving DecidableEq

/-- The state behind the lock of a connection. The last four fields are none of the program: `numbered` counts the data and FIN
packets sent so far, without their resends, `probesResolved` the MTU probes acked or judged too big, `searchesReopened` the
times the MTU search was reopened, and `underflow` records whether one of the subtractions on `in_flight`, `resend_count` or
`reorder_bytes`, which saturate, has ever been asked for more than there was. Wakers and the channel that reports the end of a
dial are kept as whether they are set. -/
structure ConnState (F : Type) where
  state : UtpState
  remote : SocketAddr
  connIdSend : UInt16
  isInitiator : Bool
  packetSize : Nat
  pmtud : Bool
  mtuFloor : Nat
  mtuCeiling : Nat
  mtuProbe : Option (UInt16 × Nat)
  probeOut : Option (UInt16 × List UInt8)
  mtuReprobeAt : Nat
  seqNr : UInt16
  ackNr : UInt16
  sendBuf : List UInt8
  unacked : List OutPacket
  inFlight : Nat
  resendCount : Nat
  recvReady : List UInt8
  reorder : OrdMap UInt16 (List UInt8)
  reorderBytes : Nat
  peerWnd : UInt32
  maxWindow : Nat
  slowStart : Bool
  ssThresh : Nat
  delay : DelayHistory
  rtt : F
  rttVar : F
  rto : Nat
  rtoBase : Option Nat
  replyMicros : UInt32
  lastAck : Option UInt16
  dupAcks : Nat
  probeAt : Option Nat
  probeDue : Bool
  lastAdvertised : UInt32
  needsAck : Bool
  wantFin : Bool
  peerFin : Option UInt16
  eof : Bool
  error : Option ErrorKind
  recoverySeq : Option UInt16
  lastMaxedOut : Option Nat
  paceAt : Option Nat
  finAckedAt : Option Nat
  readerGone : Bool
  abortOnDrop : Bool
  pendingDeadline : Option Nat
  dropDeadline : Option Nat
  outbox : List (List UInt8)
  sendRetryAt : Option Nat
  sendRetryCount : Nat
  readWaker : Bool
  writeWaker : Bool
  connectNotify : Bool
  numbered : Nat
  probesResolved : Nat
  searchesReopened : Nat
  underflow : Bool

inductive RoleKind
  | initiator
  | responder
  deriving DecidableEq

/-- `u32` comparison by the shorter way around the circle. -/
def wrappingLt (a b : UInt32) : Bool := 0x80000000 ≤ a - b

/-- `now_micros`, for a clock that counts from the program's first reading. -/
def nowMicros (now : Nat) : UInt32 := UInt32.ofNat (now / 1000)

namespace DelayHistory

/-- The least of the values by `wrappingLt`. -/
def minOf : List UInt32 → Option UInt32
  | [] => none
  | v :: vs => some (vs.foldl (fun a b => if wrappingLt b a then b else a) v)

/-- The buckets and recent samples with a new sample. -/
def push (d : DelayHistory) (sample : UInt32) (now : Nat) : DelayHistory :=
  let d :=
    match d.bucketStart, d.bucketMin with
    | some start, some min =>
      if now - start ≥ baseDelayBucket then
        let history := d.history ++ [min]
        { d with
          history := history.drop (history.length + 1 - baseDelayBuckets)
          bucketStart := some now
          bucketMin := some sample }
      else if wrappingLt sample min then { d with bucketMin := some sample }
      else d
    | _, _ => { d with bucketStart := some now, bucketMin := some sample }
  let recent := d.recent ++ [sample]
  { d with recent := recent.drop (recent.length - curDelaySamples) }

/-- Add a sample of the peer's delay; the answer is the delay above the base delay. -/
def addSample (d : DelayHistory) (sample : UInt32) (now : Nat) : DelayHistory × UInt32 :=
  let d := d.push sample now
  let base := (minOf (d.history ++ d.bucketMin.toList)).getD sample
  let current := (minOf d.recent).getD sample
  (d, if wrappingLt current base then 0 else current - base)

end DelayHistory

namespace ConnState

variable {F : Type}

/-- `new_shared`: the random number is read by a responder only, for its first sequence number. -/
def new [F64 F] (remote : SocketAddr) (connIdSend : UInt16) (kind : RoleKind) (random : UInt16) (now : Nat) : ConnState F where
  state := match kind with
    | .initiator => .synSent
    | .responder => .connected
  remote := remote
  connIdSend := connIdSend
  isInitiator := kind = .initiator
  packetSize := remote.initialDatagram - utpOverhead
  pmtud := false
  mtuFloor := remote.initialDatagram
  mtuCeiling := remote.maxDatagram
  mtuProbe := none
  probeOut := none
  mtuReprobeAt := now + mtuReprobeInterval
  seqNr := match kind with
    | .initiator => 2
    | .responder => random ||| 1
  ackNr := 0
  sendBuf := []
  unacked := []
  inFlight := 0
  resendCount := 0
  recvReady := []
  reorder := OrdMap.empty
  reorderBytes := 0
  peerWnd := UInt32.ofNat recvBufMax
  maxWindow := initialCwnd
  slowStart := true
  ssThresh := usizeMax
  delay := ⟨[], none, none, []⟩
  rtt := 0.0
  rttVar := 0.0
  rto := initialRto
  rtoBase := none
  replyMicros := 0
  lastAck := none
  dupAcks := 0
  probeAt := none
  probeDue := false
  lastAdvertised := UInt32.ofNat recvBufMax
  needsAck := false
  wantFin := false
  peerFin := none
  eof := false
  error := none
  recoverySeq := none
  lastMaxedOut := none
  paceAt := none
  finAckedAt := none
  readerGone := false
  abortOnDrop := false
  pendingDeadline := none
  dropDeadline := none
  outbox := []
  sendRetryAt := none
  sendRetryCount := 0
  readWaker := false
  writeWaker := false
  connectNotify := false
  numbered := 0
  probesResolved := 0
  searchesReopened := 0
  underflow := false

/-! ## Headers -/

def advertisedWindow (s : ConnState F) : UInt32 :=
  UInt32.ofNat (recvBufMax - (s.recvReady.length + s.reorderBytes))

/-- Add the bit of a buffered packet to the mask of a selective ack that starts at `base`. -/
def markSack (base : UInt16) (acc : List UInt8 × Option Nat) (seq : UInt16) : List UInt8 × Option Nat :=
  let bit := (seq - base).toNat
  if bit < maxSackBytes * 8 then
    (acc.1.set (bit / 8) (acc.1.getD (bit / 8) 0 ||| 1 <<< UInt8.ofNat (bit % 8)),
      match acc.2 with
      | none => some bit
      | some highest => some (max highest bit))
  else acc

def buildSelectiveAck (s : ConnState F) : Option (List UInt8) :=
  if s.reorder.isEmpty then none
  else
    let acc := s.reorder.keys.foldl (markSack (s.ackNr + 2)) (List.replicate maxSackBytes 0, none)
    acc.2.map (fun highest => acc.1.take ((highest / 32 + 1) * 4))

/-- The header of a packet sent now. Building it also records the window it advertises (`advertise`). -/
def header (s : ConnState F) (packetType : PacketType) (connectionId seqNr : UInt16) (now : Nat) : UtpHeader where
  packetType := packetType
  connectionId := connectionId
  timestampMicros := nowMicros now
  timestampDiffMicros := s.replyMicros
  wndSize := s.advertisedWindow
  seqNr := seqNr
  ackNr := s.ackNr
  selectiveAck := s.buildSelectiveAck

def advertise (s : ConnState F) : ConnState F := { s with lastAdvertised := s.advertisedWindow }

def encode (s : ConnState F) (p : OutPacket) (now : Nat) : List UInt8 :=
  let connId := if p.packetType = .syn then s.connIdSend - 1 else s.connIdSend
  (s.header p.packetType connId p.seqNr now).encode p.payload

def encodeState (s : ConnState F) (now : Nat) : List UInt8 := (s.header .state s.connIdSend s.seqNr now).encode []

/-! ## Counters and windows -/

def bytesInFlight (s : ConnState F) : Nat := s.inFlight

/-- `in_flight.saturating_sub(n)`. -/
def subInFlight (s : ConnState F) (n : Nat) : ConnState F :=
  { s with
    inFlight := s.inFlight - n
    underflow := s.underflow || decide (s.inFlight < n) }

/-- `resend_count.saturating_sub(n)`. -/
def subResendCount (s : ConnState F) (n : Nat) : ConnState F :=
  { s with
    resendCount := s.resendCount - n
    underflow := s.underflow || decide (s.resendCount < n) }

/-- `reorder_bytes.saturating_sub(n)`. -/
def subReorderBytes (s : ConnState F) (n : Nat) : ConnState F :=
  { s with
    reorderBytes := s.reorderBytes - n
    underflow := s.underflow || decide (s.reorderBytes < n) }

def accountRemoved (s : ConnState F) (p : OutPacket) : ConnState F :=
  if p.needResend then s.subResendCount 1 else s.subInFlight p.payload.length

def mayFastResend (s : ConnState F) (p : OutPacket) (now : Nat) : Bool := !p.fastResent || now - p.sentAt ≥ s.rto

/-- The congestion window in packets. -/
def windowPackets [F64 F] (s : ConnState F) : F := F64.ofNat (max (s.maxWindow / max s.packetSize 1) 1)

def burstLimit [F64 F] (s : ConnState F) : Nat :=
  if F64.le s.rtt 0.0 then usizeMax
  else
    let perTimerTick := F64.ceil (s.windowPackets * F64.asSecs minPaceInterval / s.rtt)
    max (F64.toUsize perTimerTick) minBurstPackets

def paceInterval [F64 F] (s : ConnState F) (burst : Nat) : Nat :=
  max minPaceInterval (min maxPaceInterval (F64.fromSecs (s.rtt * F64.ofNat burst / s.windowPackets)))

def noteCwndBlock (s : ConnState F) (len now : Nat) : ConnState F :=
  if s.inFlight > 0 ∧ s.inFlight + len ≤ s.peerWnd.toNat ∧ s.inFlight + len > s.maxWindow then
    { s with lastMaxedOut := some now }
  else s

/-- Take the next `n` bytes from the send buffer. -/
def takeSend (s : ConnState F) (n : Nat) : List UInt8 × ConnState F :=
  (s.sendBuf.take n, { s with sendBuf := s.sendBuf.drop n })

def maySend (s : ConnState F) (len : Nat) : Bool :=
  let fitsPeer := decide (s.bytesInFlight + len ≤ s.peerWnd.toNat)
  if s.bytesInFlight = 0 then fitsPeer || s.probeDue
  else fitsPeer && s.bytesInFlight + len ≤ s.maxWindow

def armRto (s : ConnState F) (now : Nat) : ConnState F :=
  { s with rtoBase := some (s.rtoBase.getD now) }

def notifyRead (s : ConnState F) : ConnState F := { s with readWaker := false }

def notifyWrite (s : ConnState F) : ConnState F := { s with writeWaker := false }

end ConnState

end Risuko
