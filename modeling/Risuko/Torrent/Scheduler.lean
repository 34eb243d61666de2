import Risuko.Piece.ChunkTracker
import Risuko.Piece.PieceTracker
import Risuko.Lib.Lists

/-!
# The request scheduler

The part of `torrent.rs` that decides which peer is asked for which chunk, and that puts the chunks it gets together: the
peers' lists of outstanding requests, the two trackers, the pieces a web seed is fetching and the piece assemblies.

A hash map or hash set that is iterated is kept in one fixed order here; where the order can be seen, an event may change it.
The outcome of a `try_send`, a clock reading and what depends on rates or on other parts of the program (the new pipeline
depth, a timeout, which mirrors serve a piece) are arguments. Four fields are ghosts that no function reads: the number of an
assembly and the counter it comes from, the log of accepted deliveries, the log of buffers handed to the write queue, and
whether the branch that resets a finished piece with a missing source was taken.
-/

namespace Risuko

def torrentRequestBudget : Nat := 2048

def rejectSnubThreshold : Nat := 8

def maxChokeRejected : Nat := 512

/-- Twenty seconds, in nanoseconds. -/
def rejectRetryBackoff : Nat := 20 * 10 ^ 9

/-! ## Peers -/

/-- A request: the piece, the offset in the piece and the length. -/
abbrev Request := Nat × Nat × Nat

/-- The requests a peer was told to forget, the oldest first in `order`. -/
structure CanceledRequests where
  keys : Finset Request
  order : List Request

namespace CanceledRequests

def maxKeys : Nat := 4096

/-- The loop of `insert` that forgets the oldest keys while there are too many. -/
def trim : List Request → Finset Request → CanceledRequests
  | [], keys => ⟨keys, []⟩
  | oldest :: order, keys => if maxKeys < keys.card then trim order (keys.erase oldest) else ⟨keys, oldest :: order⟩

/-- `CanceledRequests::insert`. -/
def insert (c : CanceledRequests) (key : Request) : CanceledRequests :=
  let order := if key ∈ c.keys then c.order else c.order ++ [key]
  let c := trim order (Insert.insert key c.keys)
  if 2 * maxKeys < c.order.length then { c with order := c.order.filter (fun k => k ∈ c.keys) } else c

/-- `CanceledRequests::remove`. -/
def remove (c : CanceledRequests) (key : Request) : CanceledRequests × Bool :=
  ({ c with keys := c.keys.erase key }, key ∈ c.keys)

end CanceledRequests

/-- What the scheduler keeps of a connected peer. -/
structure Peer where
  ip : Nat
  bitfield : List UInt8
  amInterested : Bool
  peerChoking : Bool
  outstanding : List Request
  maxOutstanding : Nat
  snubbing : Bool
  consecutiveRejects : Nat
  reqqCap : Option Nat
  suggestedPieces : List Nat
  remoteAllowedFast : List Nat
  chokeRejected : Finset (Nat × Nat)
  rejectBackoff : OrdMap Nat Nat
  canceledRequests : CanceledRequests
  lastPiece : Option Nat

namespace Peer

/-- `Peer::connected`. -/
def connected (ip bitfieldBytes maxOutstanding : Nat) : Peer :=
  { ip := ip
    bitfield := List.replicate bitfieldBytes 0
    amInterested := false
    peerChoking := true
    outstanding := []
    maxOutstanding := maxOutstanding
    snubbing := false
    consecutiveRejects := 0
    reqqCap := none
    suggestedPieces := []
    remoteAllowedFast := []
    chokeRejected := ∅
    rejectBackoff := OrdMap.empty
    canceledRequests := ⟨∅, []⟩
    lastPiece := none }

/-- `shrink_window`, with `shrink_pipeline`. -/
def shrinkWindow (p : Peer) (floor cap : Nat) : Peer :=
  let peerCap := min (p.reqqCap.getD cap) cap
  { p with maxOutstanding := max (p.maxOutstanding / 2) (min floor peerCap) }

/-- `back_off_piece`. -/
def backOffPiece (p : Peer) (index now : Nat) : Peer :=
  let backoff := if maxChokeRejected ≤ p.rejectBackoff.size then p.rejectBackoff.filter (fun _ until' => now < until')
    else p.rejectBackoff
  let backoff := if backoff.size < maxChokeRejected then backoff.insert index (now + rejectRetryBackoff) else backoff
  { p with rejectBackoff := backoff }

/-- Whether the peer rejected the piece a short while ago. -/
def backedOff (p : Peer) (index now : Nat) : Bool :=
  match p.rejectBackoff.get? index with
  | some until' => decide (now < until')
  | none => false

/-- `mark_snubbed`. -/
def markSnubbed (p : Peer) : Peer := { p with snubbing := true }

/-- `remember_canceled_request`. -/
def rememberCanceledRequest (p : Peer) (request : Request) : Peer :=
  { p with canceledRequests := p.canceledRequests.insert request }

/-- `request_peer_eligible`. -/
def requestPeerEligible (p : Peer) : Bool :=
  (!p.peerChoking || !p.remoteAllowedFast.isEmpty) && p.amInterested && (!p.snubbing || p.outstanding.isEmpty)

/-- `send_interested_if_useful` with `useful` set. -/
def sendInterested (p : Peer) (sent : Bool) : Peer := if !p.amInterested && sent then { p with amInterested := true } else p

end Peer

/-! ## Assemblies -/

/-- Where a chunk of an assembly comes from. -/
inductive ChunkSource where
  | padding
  | peer (ip : Nat)
deriving DecidableEq

/-- A piece being put together. `id` is a ghost: no two assemblies of a run share it. -/
structure PieceAssembly where
  id : Nat
  buf : List UInt8
  sources : List (Option ChunkSource)
  completed : Bool
deriving DecidableEq

/-- A ghost record: the data a peer delivered, as an assembly accepted it. -/
structure Delivery where
  assembly : Nat
  begin : Nat
  ip : Nat
  data : List UInt8
deriving DecidableEq

/-! ## The state -/

structure Scheduler (l : Lengths) where
  peers : OrdMap Nat Peer
  pieceTracker : PieceTracker l
  chunkTracker : ChunkTracker l
  webseedInflight : List Nat
  pieceAssemblies : OrdMap Nat PieceAssembly
  nextAssembly : Nat
  accepted : List Delivery
  writeTasks : List (Nat × List UInt8)
  resetTaken : Bool

/-- `effective_request_limit`. -/
def effectiveRequestLimit (adaptiveLimit demand : Nat) : Nat :=
  if demand ≤ torrentRequestBudget then adaptiveLimit else max (adaptiveLimit * torrentRequestBudget / demand) 1

structure RequestLoad where
  demand : Nat
  outstanding : Nat

/-- `RequestLoad::measure`. -/
def RequestLoad.measure (peers : OrdMap Nat Peer) : RequestLoad :=
  { demand := peers.sumOf (fun _ p => if p.requestPeerEligible then (if p.snubbing then 1 else p.maxOutstanding) else 0)
    outstanding := peers.sumOf (fun _ p => p.outstanding.length) }

/-! ## Driving a peer -/

inductive PickStage where
  | preferred
  | partials
  | rarest
  | endgame
  | done
deriving DecidableEq

/-- What a call of `drive_peer_with` reads and does not change: the peer's id, the limits and flags it computes at the start,
the pieces web seeds fetch, and the outside: the clock at the start, the clock at each request and the outcome of each
`try_send`, told apart by the number of slots left. -/
structure DriveParams where
  pid : Nat
  maxOutstanding : Nat
  endgame : Bool
  choked : Bool
  webseedInflight : List Nat
  now : Nat
  requestedAt : Nat → Nat
  sendRequest : Nat → Bool

/-- The variables of the loop of `drive_peer_with`. `stageList` is what is left of the source's list from `stage_idx` on. -/
structure Drive (l : Lengths) where
  peer : Peer
  pieceTracker : PieceTracker l
  chunkTracker : ChunkTracker l
  requestSlots : Nat
  stage : PickStage
  stageList : List Nat
  cursor : Nat
  exhausted : Finset Nat
  current : Option (ValidPieceIndex l)
  nothingToPick : Bool

namespace Drive

variable {l : Lengths}

/-- The tests of the inner loop on a piece index: the piece to ask for, if it passes. -/
def accept (cfg : DriveParams) (d : Drive l) (t : PieceTracker l) (index : Nat) : Option (ValidPieceIndex l) :=
  if index ∈ d.exhausted || !bitAt d.peer.bitfield index || d.peer.backedOff index cfg.now then none
  else
    match l.validatePiece index with
    | .error _ => none
    | .ok piece => if t.isRequestable piece || (cfg.endgame && t.isUseful piece) then some piece else none

/-- Go through a stage's list: the first piece accepted and the rest of the list. -/
def pickList (cfg : DriveParams) (d : Drive l) : List Nat → Option (ValidPieceIndex l × List Nat)
  | [] => none
  | index :: rest =>
    match d.accept cfg d.pieceTracker index with
    | some piece => some (piece, rest)
    | none => d.pickList cfg rest

/-- Go through the pieces in order of rarity: the tracker, the first piece accepted and the cursor. The fuel bounds the number of
calls of `next_requestable`. -/
def pickRarest (cfg : DriveParams) (d : Drive l) : Nat → PieceTracker l → Nat → PieceTracker l × Option (ValidPieceIndex l) × Nat
  | 0, t, cursor => (t, none, cursor)
  | fuel + 1, t, cursor =>
    match t.nextRequestable d.peer.bitfield cursor with
    | (t', none, cursor') => (t', none, cursor')
    | (t', some piece, cursor') =>
      match d.accept cfg t' piece.val with
      | some piece => (t', some piece, cursor')
      | none => d.pickRarest cfg fuel t' cursor'

/-- The inner loop from the endgame stage on. -/
def pickEndgame (cfg : DriveParams) (d : Drive l) : Drive l × Option (ValidPieceIndex l) :=
  match d.pickList cfg d.stageList with
  | some (piece, rest) => ({ d with stageList := rest }, some piece)
  | none => ({ d with stage := .done, stageList := [] }, none)

/-- The inner loop from the rarest stage on. -/
def pickByRarity (cfg : DriveParams) (d : Drive l) : Drive l × Option (ValidPieceIndex l) :=
  match d.pickRarest cfg (l.totalPieces + 1) d.pieceTracker d.cursor with
  | (t, some piece, cursor) => ({ d with pieceTracker := t, cursor := cursor }, some piece)
  | (t, none, cursor) =>
    let d := { d with pieceTracker := t, cursor := cursor }
    if cfg.endgame then
      let list := d.stageList ++ d.chunkTracker.contestedPieces ++ cfg.webseedInflight
      pickEndgame cfg { d with stage := .endgame, stageList := list.rotate (cfg.pid % list.length) }
    else ({ d with stage := .done }, none)

/-- The inner loop from the stage of the partial pieces on. -/
def pickPartials (cfg : DriveParams) (d : Drive l) : Drive l × Option (ValidPieceIndex l) :=
  match d.pickList cfg d.stageList with
  | some (piece, rest) => ({ d with stageList := rest }, some piece)
  | none => pickByRarity cfg { d with stage := .rarest, stageList := [] }

/-- The inner loop from the stage of the preferred pieces on. -/
def pickPreferred (cfg : DriveParams) (d : Drive l) : Drive l × Option (ValidPieceIndex l) :=
  match d.pickList cfg d.stageList with
  | some (piece, rest) => ({ d with stageList := rest }, some piece)
  | none =>
    if cfg.choked then ({ d with stage := .done, stageList := [] }, none)
    else pickPartials cfg { d with stage := .partials, stageList := d.chunkTracker.partialPieces }

/-- The inner loop of `drive_peer_with`: the next piece to ask for. -/
def pick (cfg : DriveParams) (d : Drive l) : Drive l × Option (ValidPieceIndex l) :=
  match d.stage with
  | .preferred => d.pickPreferred cfg
  | .partials => d.pickPartials cfg
  | .rarest => d.pickByRarity cfg
  | .endgame => d.pickEndgame cfg
  | .done => (d, none)

/-- The piece the loop goes on with: the current one, or else the next one it picks. -/
def next (cfg : DriveParams) (d : Drive l) : Drive l × Option (ValidPieceIndex l) :=
  match d.current with
  | some piece => (d, some piece)
  | none => d.pick cfg

/-- The `asked` predicate: the chunk was rejected in a choke, or is already asked of the peer. -/
def asked (cfg : DriveParams) (d : Drive l) (piece : ValidPieceIndex l) (chunk : Nat) : Bool :=
  let begin := chunk * chunkSize
  (cfg.choked && decide ((piece.val, begin) ∈ d.peer.chokeRejected)) ||
    d.peer.outstanding.any (fun r => r.1 == piece.val && r.2.1 == begin)

/-- The arm of the loop in which a chunk was handed out and the request sent. -/
def requestSent (cfg : DriveParams) (d : Drive l) (piece : ValidPieceIndex l) (info : ChunkInfo l) : Drive l :=
  let d := { d with
    peer := { d.peer with
      outstanding := d.peer.outstanding ++ [(info.pieceIndex.val, info.offset, info.size)]
      lastPiece := some piece.val }
    requestSlots := d.requestSlots - 1
    current := some piece }
  if !d.chunkTracker.hasMissing piece then
    let d := { d with pieceTracker := d.pieceTracker.markInFlight piece }
    if !cfg.endgame then { d with current := none, exhausted := insert piece.val d.exhausted } else d
  else d

/-- The arm in which the request could not be sent: the chunk gets its state back. -/
def requestFailed (d : Drive l) (piece : ValidPieceIndex l) (chunk : ChunkRequest l) : Drive l :=
  let d := { d with
    chunkTracker := d.chunkTracker.unrequestChunk chunk.info.pieceIndex chunk.info.chunkIndex chunk.priorState }
  if d.chunkTracker.hasMissing piece then { d with pieceTracker := d.pieceTracker.clearInFlight piece } else d

/-- The arm in which the piece has no chunk for the peer. -/
def pieceExhausted (d : Drive l) (piece : ValidPieceIndex l) : Drive l :=
  let d := { d with current := none }
  let d := if !d.chunkTracker.hasMissing piece then { d with pieceTracker := d.pieceTracker.markInFlight piece } else d
  { d with exhausted := insert piece.val d.exhausted }

/-- The loop of `drive_peer_with`. Each turn uses a slot or exhausts a piece, so the slots and the pieces bound the turns. -/
def loop (cfg : DriveParams) : Nat → Drive l → Drive l
  | 0, d => d
  | fuel + 1, d =>
    if d.peer.outstanding.length < cfg.maxOutstanding && 0 < d.requestSlots then
      match d.next cfg with
      | (d, none) => { d with nothingToPick := true }
      | (d, some piece) =>
        match d.chunkTracker.nextChunkSkipping piece cfg.pid (d.asked cfg piece) (cfg.requestedAt d.requestSlots) with
        | (ct, some chunk) =>
          let slots := d.requestSlots
          let d := { d with chunkTracker := ct }
          if cfg.sendRequest slots then loop cfg fuel (d.requestSent cfg piece chunk.info)
          else d.requestFailed piece chunk
        | (ct, none) => loop cfg fuel ({ d with chunkTracker := ct }.pieceExhausted piece)
    else d

/-- The end of `drive_peer_with`: a peer that has nothing of use is told so. -/
def settleInterest (d : Drive l) (sent : Bool) : Drive l :=
  if d.nothingToPick && d.peer.outstanding.isEmpty && !d.pieceTracker.anyUseful d.peer.bitfield && sent then
    { d with peer := { d.peer with amInterested := false } }
  else d

end Drive

/-- What a call of `drive_peer_with` gets from outside: the clock and the outcomes of its sends. -/
structure DriveEnv where
  now : Nat
  requestedAt : Nat → Nat
  sendRequest : Nat → Bool
  sendNotInterested : Bool

namespace Scheduler

variable {l : Lengths}

/-- The number of requests a peer may have outstanding. -/
def requestLimit (peer : Peer) (load : RequestLoad) : Nat :=
  if peer.snubbing then 1 else effectiveRequestLimit peer.maxOutstanding load.demand

/-- What the loop of `drive_peer_with` reads. -/
def driveParams (s : Scheduler l) (env : DriveEnv) (pid : Nat) (peer : Peer) (load : RequestLoad) : DriveParams :=
  { pid := pid
    maxOutstanding := requestLimit peer load
    endgame := s.pieceTracker.requestable == 0
    choked := peer.peerChoking
    webseedInflight := s.webseedInflight
    now := env.now
    requestedAt := env.requestedAt
    sendRequest := env.sendRequest }

/-- The variables of the loop of `drive_peer_with` at its start. -/
def driveStart (s : Scheduler l) (peer : Peer) (slots : Nat) : Drive l :=
  { peer := peer
    pieceTracker := s.pieceTracker
    chunkTracker := s.chunkTracker.setEndgame (s.pieceTracker.requestable == 0)
    requestSlots := slots
    stage := .preferred
    stageList := if peer.peerChoking then peer.remoteAllowedFast else peer.lastPiece.toList ++ peer.suggestedPieces
    cursor := 0
    exhausted := ∅
    current := none
    nothingToPick := false }

/-- `drive_peer_with`, with the load after it. -/
def drivePeerWith (s : Scheduler l) (env : DriveEnv) (pid : Nat) (load : RequestLoad) : Scheduler l × RequestLoad :=
  let remaining := torrentRequestBudget - load.outstanding
  match s.peers.get? pid with
  | none => (s, load)
  | some peer =>
    if !peer.requestPeerEligible || remaining == 0 then (s, load)
    else if requestLimit peer load ≤ peer.outstanding.length then (s, load)
    else
      let d := Drive.loop (s.driveParams env pid peer load) (remaining + l.totalPieces + 1) (s.driveStart peer remaining)
      let d := d.settleInterest env.sendNotInterested
      ({ s with peers := s.peers.insert pid d.peer, pieceTracker := d.pieceTracker, chunkTracker := d.chunkTracker },
        { load with outstanding := load.outstanding + (remaining - d.requestSlots) })

/-- `drive_peer`. -/
def drivePeer (s : Scheduler l) (env : DriveEnv) (pid : Nat) : Scheduler l :=
  (s.drivePeerWith env pid (RequestLoad.measure s.peers)).1

/-- `drive_requests`, over the peers in the order the map yields them. -/
def driveRequests (s : Scheduler l) (env : Nat → DriveEnv) (pids : List Nat) : Scheduler l :=
  (pids.foldl (fun r pid => r.1.drivePeerWith (env pid) pid r.2) (s, RequestLoad.measure s.peers)).1

end Scheduler

end Risuko
