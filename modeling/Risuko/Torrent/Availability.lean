import Risuko.Lib.OrdMap
import Risuko.Piece.PieceTracker

/-!
# What the peers have

The part of `torrent.rs` that keeps the piece tracker's availability counts in step with the connected peers: the ids connections
get, the messages `Have`, `Bitfield`, `HaveAll` and `HaveNone`, and the release of a peer that is gone. A peer's bitfield lies in
the peer, the counts lie in the tracker, and nothing but these handlers writes either.

Pausing, shutting down, an eviction and a blocklist each remove peers one by one, and so are disconnects here. `clipped` is a
ghost: it records that a count was to be raised at its maximum or lowered at zero, and no function reads it.
-/

namespace Risuko

inductive InitialAvailability where
  | bitfield
  | haveAll
  | haveNone
deriving DecidableEq

/-- What the handlers read of a connected peer. -/
structure Holder where
  bitfield : List UInt8
  supportsFast : Bool
  initialAvailability : Option InitialAvailability

/-- `Peer::connected`. -/
def Holder.connected (bitfieldBytes : Nat) (supportsFast : Bool) : Holder where
  bitfield := List.replicate bitfieldBytes 0
  supportsFast := supportsFast
  initialAvailability := none

/-- `accept_initial_availability`. -/
def Holder.acceptInitialAvailability (p : Holder) (availability : InitialAvailability) : Holder × Bool :=
  if p.initialAvailability.isSome then (p, false) else ({ p with initialAvailability := some availability }, true)

/-- The messages about pieces a peer has. -/
inductive HaveMessage where
  | have' (pieceIndex : Nat)
  | bitfield (bytes : List UInt8)
  | haveAll
  | haveNone

/-- A torrent's connections. `lanes` holds the ids of dialled connections that have not been adopted. -/
structure Holders (l : Lengths) where
  peers : OrdMap Nat Holder
  lanes : List Nat
  nextPid : Nat
  pieceTracker : PieceTracker l
  clipped : Bool

namespace PieceTracker

variable {l : Lengths}

/-- Whether a pass over the set bits of a bitfield, which visits each once, clips a count. -/
def clips (t : PieceTracker l) (bitfield : List UInt8) (up : Bool) : Bool :=
  (List.finRange l.totalPieces).any (fun i =>
    bitAt bitfield i.val && (if up then t.availability i == 2 ^ 32 - 1 else t.availability i == 0))

/-- Whether `update_peer_have` clips a count. -/
def haveClips (t : PieceTracker l) (peerBitfield : List UInt8) (idx : ValidPieceIndex l) : Bool :=
  (t.updatePeerHave peerBitfield idx).2.2 && t.availability idx == 2 ^ 32 - 1

/-- Whether one of the two passes of `replace_peer_bitfield` clips a count. -/
def replaceClips (t : PieceTracker l) (peerBitfield replacement : List UInt8) : Bool :=
  t.clips peerBitfield false ||
    (t.removePeerBitfield peerBitfield).clips (t.replacePeerBitfield peerBitfield replacement).2 true

end PieceTracker

namespace Holders

variable {l : Lengths}

/-- A torrent that starts: no connection, and a tracker no peer was counted in. -/
def start (t : PieceTracker l) : Holders l where
  peers := OrdMap.empty
  lanes := []
  nextPid := 1
  pieceTracker := t
  clipped := false

/-- `drain_peer_backlog` dials an address: the connection gets the next id. A run has fewer than `2 ^ 32 - 1` connections; after that many the ids
of the source begin anew. -/
def dial (s : Holders l) : Holders l :=
  if s.nextPid + 1 < 2 ^ 32 then { s with lanes := s.nextPid :: s.lanes, nextPid := s.nextPid + 1 } else s

/-- The handler of `PeerEvent::Handshook`: the lane is taken, and unless the connection is refused the peer is adopted. -/
def handshook (s : Holders l) (pid : Nat) (supportsFast refused : Bool) : Holders l :=
  if s.peers.contains pid || pid ∉ s.lanes then s
  else
    let s := { s with lanes := s.lanes.filter (fun lane => lane != pid) }
    if refused then s else { s with peers := s.peers.insert pid (Holder.connected l.pieceBitfieldBytes supportsFast) }

/-- An inbound connection that was let in gets the next id; `adopt_inbound_peer` drops it when its task is gone. -/
def adoptInboundPeer (s : Holders l) (supportsFast bound : Bool) : Holders l :=
  if s.nextPid + 1 < 2 ^ 32 then
    let pid := s.nextPid
    let s := { s with nextPid := s.nextPid + 1 }
    if bound then { s with peers := s.peers.insert pid (Holder.connected l.pieceBitfieldBytes supportsFast) } else s
  else s

/-- Replace the bitfield of a peer and count it anew. -/
def replaceBitfield (s : Holders l) (pid : Nat) (p : Holder) (replacement : List UInt8) : Holders l :=
  let r := s.pieceTracker.replacePeerBitfield p.bitfield replacement
  { s with
    peers := s.peers.insert pid { p with bitfield := r.2 }
    pieceTracker := r.1
    clipped := s.clipped || s.pieceTracker.replaceClips p.bitfield replacement }

/-- The handlers of the four messages. A peer that breaks the rules is told to end; until then it stays among the peers. -/
def receive (s : Holders l) (pid : Nat) (msg : HaveMessage) : Holders l :=
  match s.peers.get? pid with
  | none => s
  | some p =>
    match msg with
    | .have' pieceIndex =>
      match l.validatePiece pieceIndex with
      | .error _ => s
      | .ok vpi =>
        let r := s.pieceTracker.updatePeerHave p.bitfield vpi
        { s with
          peers := s.peers.insert pid { p with bitfield := r.2.1 }
          pieceTracker := r.1
          clipped := s.clipped || s.pieceTracker.haveClips p.bitfield vpi }
    | .bitfield bytes =>
      if p.supportsFast then
        let r := p.acceptInitialAvailability .bitfield
        if r.2 then s.replaceBitfield pid r.1 bytes else s
      else s.replaceBitfield pid p bytes
    | .haveAll =>
      if !p.supportsFast then s
      else
        let r := p.acceptInitialAvailability .haveAll
        if r.2 then s.replaceBitfield pid r.1 (List.replicate r.1.bitfield.length 0xff) else s
    | .haveNone =>
      if !p.supportsFast then s
      else
        let r := p.acceptInitialAvailability .haveNone
        if r.2 then s.replaceBitfield pid r.1 [] else s

/-- A connection is gone: its lane is dropped, and a peer is removed and released (`release_peer_scheduler_state`). -/
def disconnected (s : Holders l) (pid : Nat) : Holders l :=
  let s := { s with lanes := s.lanes.filter (fun lane => lane != pid) }
  match s.peers.get? pid with
  | none => s
  | some dead =>
    { s with
      peers := s.peers.erase pid
      pieceTracker := s.pieceTracker.removePeerBitfield dead.bitfield
      clipped := s.clipped || s.pieceTracker.clips dead.bitfield false }

end Holders

/-- The calls on the piece tracker that are not about peers. -/
def PieceOp.local' {l : Lengths} : PieceOp l → Bool
  | .setLocal _ _ | .setWanted _ | .markInFlight _ | .clearInFlight _ | .refreshOrder | .nextRequestable _ _ => true
  | _ => false

/-- What happens to a torrent's connections, and in between to its piece tracker. -/
inductive HoldersEvent (l : Lengths) where
  | dial
  | handshook (pid : Nat) (supportsFast refused : Bool)
  | adoptInboundPeer (supportsFast bound : Bool)
  | receive (pid : Nat) (msg : HaveMessage)
  | disconnected (pid : Nat)
  | tracker (op : PieceOp l)

/-- The state after an event. -/
def HoldersEvent.apply {l : Lengths} (s : Holders l) : HoldersEvent l → Holders l
  | .dial => s.dial
  | .handshook pid supportsFast refused => s.handshook pid supportsFast refused
  | .adoptInboundPeer supportsFast bound => s.adoptInboundPeer supportsFast bound
  | .receive pid msg => s.receive pid msg
  | .disconnected pid => s.disconnected pid
  | .tracker op => if op.local' then { s with pieceTracker := op.apply s.pieceTracker } else s

end Risuko
