import Risuko.Torrent.Scheduler
import Risuko.Torrent.Webseed

/-!
# The events of a torrent

The handlers of `torrent.rs` that move the scheduler's state besides `drive_peer_with`: a piece message, a choke, a reject, the
reclaim of stale requests, a disconnect, a verify result, a new selection and the web seed bookkeeping; and the events they
are for (`SchedulerEvent`).
-/

namespace Risuko

namespace Scheduler

variable {l : Lengths}

/-! ## Giving chunks back -/

/-- Clear the in-flight mark of a piece that has a missing chunk. -/
def unblock (s : Scheduler l) (vpi : ValidPieceIndex l) : Scheduler l :=
  if s.chunkTracker.hasMissing vpi then { s with pieceTracker := s.pieceTracker.clearInFlight vpi } else s

/-- What `release_choked_requests` and `apply_request_reject` do with a request taken from a peer's list: the chunk is free again
if it is still the peer's, and so is its piece. -/
def giveBack (s : Scheduler l) (pid index begin : Nat) : Scheduler l :=
  match l.validatePiece index with
  | .error _ => s
  | .ok vpi => unblock { s with chunkTracker := s.chunkTracker.rejectChunk vpi (begin / chunkSize) pid } vpi

/-- `release_choked_requests`. -/
def releaseChokedRequests (s : Scheduler l) (pid : Nat) : Scheduler l :=
  match s.peers.get? pid with
  | none => s
  | some peer =>
    let released := peer.outstanding.foldl Peer.rememberCanceledRequest { peer with outstanding := [] }
    peer.outstanding.foldl (fun s r => s.giveBack pid r.1 r.2.1) { s with peers := s.peers.insert pid released }

/-- `apply_request_reject`: the state, and the answer of the function. `pipeline` is the floor and the cap of the window. -/
def applyRequestReject (s : Scheduler l) (pid : Nat) (key : Request) (pipeline : Nat × Nat) (now : Nat) :
    Scheduler l × Option Bool :=
  match s.peers.get? pid with
  | none => (s, none)
  | some peer =>
    match peer.outstanding.findIdx? (fun r => r == key) with
    | none =>
      let r := peer.canceledRequests.remove key
      ({ s with peers := s.peers.insert pid { peer with canceledRequests := r.1 } }, if r.2 then some false else none)
    | some reqIdx =>
      let peer := { peer with outstanding := swapRemove peer.outstanding reqIdx }
      let peer := if peer.peerChoking then
          if peer.chokeRejected.card < maxChokeRejected then
            { peer with chokeRejected := insert (key.1, key.2.1) peer.chokeRejected }
          else peer
        else
          (({ peer with consecutiveRejects := min (peer.consecutiveRejects + 1) (2 ^ 32 - 1) } : Peer).shrinkWindow
            pipeline.1 pipeline.2).backOffPiece key.1 now
      let snub := decide (rejectSnubThreshold ≤ peer.consecutiveRejects) && !peer.snubbing
      let answer := if snub then some false else some (!peer.snubbing && !peer.peerChoking)
      let peer := if snub then peer.markSnubbed else peer
      (giveBack { s with peers := s.peers.insert pid peer } pid key.1 key.2.1, answer)

/-! ## Canceling requests -/

/-- `cancel_outstanding`: the other peers need not send a chunk that arrived. -/
def cancelOutstanding (peers : OrdMap Nat Peer) (exceptPid index begin length : Nat) : OrdMap Nat Peer :=
  peers.mapVal (fun pid other =>
    if pid == exceptPid then other
    else
      match other.outstanding.findIdx? (fun r => r.1 == index && r.2.1 == begin && r.2.2 == length) with
      | none => other
      | some slot =>
        ({ other with outstanding := swapRemove other.outstanding slot } : Peer).rememberCanceledRequest (index, begin, length))

/-- The loop of `cancel_piece_outstanding` over one peer's list from position `i` on: a removal puts the last entry at `i`, which
is then looked at. The fuel is the number of entries not yet looked at. -/
def cancelPieceLoop (pieceIndex : Nat) : Nat → Nat → Peer → Peer
  | 0, _, peer => peer
  | fuel + 1, i, peer =>
    match peer.outstanding[i]? with
    | none => peer
    | some r =>
      if r.1 == pieceIndex then
        cancelPieceLoop pieceIndex fuel i
          (({ peer with outstanding := swapRemove peer.outstanding i } : Peer).rememberCanceledRequest r)
      else cancelPieceLoop pieceIndex fuel (i + 1) peer

/-- `cancel_piece_outstanding`. -/
def cancelPieceOutstanding (peers : OrdMap Nat Peer) (pieceIndex : Nat) : OrdMap Nat Peer :=
  peers.mapVal (fun _ peer => cancelPieceLoop pieceIndex peer.outstanding.length 0 peer)

/-! ## A piece message -/

/-- The assembly the handler finds or creates. -/
def assemblyFor (s : Scheduler l) (vpi : ValidPieceIndex l) : PieceAssembly :=
  (s.pieceAssemblies.get? vpi.val).getD
    { id := s.nextAssembly
      buf := List.replicate (l.pieceLengthOf vpi) 0
      sources := (s.chunkTracker.paddingChunks vpi).map (fun pad => if pad then some .padding else none)
      completed := false }

/-- Whether an assembly takes the data of a chunk: it is not completed, the data fits and the chunk has no source yet. -/
def accepts (a : PieceAssembly) (begin len : Nat) : Bool :=
  !a.completed && decide (begin + len ≤ a.buf.length) && a.sources[begin / chunkSize]? == some none

/-- The part of the handler about the assembly: find or create it, and put the data in unless the chunk is there. -/
def assemble (s : Scheduler l) (vpi : ValidPieceIndex l) (pid ip begin : Nat) (data : List UInt8) : Scheduler l :=
  let a := s.assemblyFor vpi
  let s := if s.pieceAssemblies.contains vpi.val then s else { s with nextAssembly := s.nextAssembly + 1 }
  if accepts a begin data.length then
    { s with
      pieceAssemblies := s.pieceAssemblies.insert vpi.val
        { a with sources := a.sources.set (begin / chunkSize) (some (.peer ip)), buf := overwrite a.buf begin data }
      accepted := { assembly := a.id, begin := begin, ip := ip, data := data } :: s.accepted
      peers := if s.chunkTracker.endgame then cancelOutstanding s.peers pid vpi.val begin data.length else s.peers }
  else { s with pieceAssemblies := s.pieceAssemblies.insert vpi.val a }

/-- The part of the handler after `mark_received` reported the piece done. -/
def finishPiece (s : Scheduler l) (vpi : ValidPieceIndex l) : Scheduler l :=
  match s.pieceAssemblies.get? vpi.val with
  | none => s
  | some a =>
    if a.completed then s
    else if a.sources.any Option.isNone then
      { s with
        pieceAssemblies := s.pieceAssemblies.erase vpi.val
        chunkTracker := s.chunkTracker.resetPiece vpi
        pieceTracker := s.pieceTracker.clearInFlight vpi
        resetTaken := true }
    else
      { s with
        pieceAssemblies := s.pieceAssemblies.insert vpi.val { a with completed := true, buf := [] }
        writeTasks := (a.id, a.buf) :: s.writeTasks }

/-- The part of the handler for data that was asked for, of a piece that is not local. -/
def deliver (s : Scheduler l) (vpi : ValidPieceIndex l) (pid ip begin : Nat) (data : List UInt8) : Scheduler l :=
  let s := s.assemble vpi pid ip begin data
  let r := s.chunkTracker.markReceived
    { pieceIndex := vpi, chunkIndex := begin / chunkSize, size := data.length, offset := begin }
  let s := { s with chunkTracker := r.1 }
  if r.2 then s.finishPiece vpi else s

/-- The handler of `Message::Piece`. `maxOutstanding` is the window `pipeline_adjustment` leaves the peer with. -/
def receivePiece (s : Scheduler l) (pid index begin : Nat) (data : List UInt8) (maxOutstanding : Nat) : Scheduler l :=
  match s.peers.get? pid with
  | none => s
  | some peer =>
    match l.validatePiece index with
    | .error _ => s
    | .ok vpi =>
      match peer.outstanding.findIdx? (fun r => r.1 == index && r.2.1 == begin && r.2.2 == data.length) with
      | none =>
        let r := peer.canceledRequests.remove (index, begin, min data.length (2 ^ 32 - 1))
        if r.2 then { s with peers := s.peers.insert pid { peer with canceledRequests := r.1, snubbing := false } } else s
      | some reqIdx =>
        if l.pieceLengthOf vpi < begin + data.length then s
        else
          let peer := { peer with
            outstanding := swapRemove peer.outstanding reqIdx
            snubbing := false
            consecutiveRejects := 0
            chokeRejected := ∅
            maxOutstanding := maxOutstanding }
          let s := { s with peers := s.peers.insert pid peer }
          if s.pieceTracker.hasLocal vpi then s else s.deliver vpi pid peer.ip begin data

/-! ## The tick's reclaim -/

/-- What the tick does with one reclaimed chunk: the peer that did not send it is snubbed and told to forget the request. -/
def reclaimFromPeer (pipeline : Nat × Nat) (peers : OrdMap Nat Peer) (r : ReclaimedChunk) : OrdMap Nat Peer :=
  match peers.get? r.peer with
  | none => peers
  | some p =>
    let p := if !p.snubbing then p.markSnubbed.shrinkWindow pipeline.1 pipeline.2 else p
    match p.outstanding.findIdx? (fun o => o.1 == r.piece && o.2.1 == r.begin) with
    | none => peers.insert r.peer p
    | some slot =>
      peers.insert r.peer
        (({ p with outstanding := swapRemove p.outstanding slot } : Peer).rememberCanceledRequest (p.outstanding.getD slot (0, 0, 0)))

/-- Clear the in-flight marks of pieces given by index. -/
def clearInFlightAll (t : PieceTracker l) (indices : List Nat) : PieceTracker l :=
  indices.foldl (fun t index =>
    match l.validatePiece index with
    | .error _ => t
    | .ok vpi => t.clearInFlight vpi) t

/-- The tick's handling of stale requests. -/
def reclaim (s : Scheduler l) (now timeout : Nat) (pipeline : Nat × Nat) : Scheduler l :=
  let r := s.chunkTracker.reclaimStale now timeout
  { s with
    chunkTracker := r.1
    peers := r.2.foldl (reclaimFromPeer pipeline) s.peers
    pieceTracker := clearInFlightAll s.pieceTracker (r.2.map ReclaimedChunk.piece).dedup }

/-! ## Disconnects -/

/-- Whether `release_peer_scheduler_state` drops an assembly: no peer gave it anything. -/
def onlyPadding (a : PieceAssembly) : Bool :=
  a.sources.all (fun source =>
    match source with
    | none => true
    | some source => source == .padding)

/-- `release_peer_scheduler_state`, on one freed piece. -/
def releasePiece (s : Scheduler l) (pieceIdx : Nat) : Scheduler l :=
  let s := { s with pieceTracker := clearInFlightAll s.pieceTracker [pieceIdx] }
  match s.pieceAssemblies.get? pieceIdx with
  | none => s
  | some a => if onlyPadding a then { s with pieceAssemblies := s.pieceAssemblies.erase pieceIdx } else s

/-- `release_peer_scheduler_state`. -/
def releasePeerSchedulerState (s : Scheduler l) (pid : Nat) (bitfield : List UInt8) : Scheduler l :=
  let r := s.chunkTracker.releasePeer pid
  r.2.foldl releasePiece { s with pieceTracker := s.pieceTracker.removePeerBitfield bitfield, chunkTracker := r.1 }

/-- A peer leaves: it is removed and its part of the state released. -/
def disconnect (s : Scheduler l) (pid : Nat) : Scheduler l :=
  match s.peers.get? pid with
  | none => s
  | some peer => releasePeerSchedulerState { s with peers := s.peers.erase pid } pid peer.bitfield

/-! ## Verify results -/

/-- `reinterest_holders`, with the outcome of the send to each peer. -/
def reinterestHolders (peers : OrdMap Nat Peer) (pieceIndex : Nat) (sent : Nat → Bool) : OrdMap Nat Peer :=
  peers.mapVal (fun pid p => if bitAt p.bitfield pieceIndex then p.sendInterested (sent pid) else p)

/-- `refresh_interest`, with the outcome of the send. -/
def refreshInterest (t : PieceTracker l) (p : Peer) (sent : Bool) : Peer :=
  let useful := t.anyUseful p.bitfield
  if useful != p.amInterested && sent then { p with amInterested := useful } else p

/-- The peers after a piece became local: no request for it is kept, it is no longer suggested, and their interest is settled. -/
def settlePeers (peers : OrdMap Nat Peer) (t : PieceTracker l) (pieceIndex : Nat) (becameLocal : Bool) (sent : Nat → Bool) :
    OrdMap Nat Peer :=
  (cancelPieceOutstanding peers pieceIndex).mapVal (fun pid p =>
    let p := { p with
      remoteAllowedFast := p.remoteAllowedFast.filter (fun i => i != pieceIndex)
      suggestedPieces := p.suggestedPieces.filter (fun i => i != pieceIndex) }
    if becameLocal && (t.isComplete || (p.amInterested && bitAt p.bitfield pieceIndex)) then refreshInterest t p (sent pid) else p)

/-- `process_verify_result`. -/
def processVerifyResult (s : Scheduler l) (vr : Webseed.VerifyResult) (sent : Nat → Bool) : Scheduler l :=
  match l.validatePiece vr.pieceIndex with
  | .error _ => s
  | .ok vpi =>
    let s := { s with pieceTracker := s.pieceTracker.clearInFlight vpi }
    if vr.fromWebseed && (vr.writeError.isSome || !vr.verifyOk) then s
    else
      let s := { s with pieceAssemblies := s.pieceAssemblies.erase vr.pieceIndex }
      if vr.writeError.isSome || !vr.verifyOk then
        { s with
          peers := reinterestHolders (cancelPieceOutstanding s.peers vr.pieceIndex) vr.pieceIndex sent
          chunkTracker := s.chunkTracker.resetPiece vpi }
      else
        let becameLocal := !s.pieceTracker.hasLocal vpi
        let pieceTracker := s.pieceTracker.setLocal vpi true
        { s with
          pieceTracker := pieceTracker
          chunkTracker := s.chunkTracker.forgetPiece vpi
          peers := settlePeers s.peers pieceTracker vr.pieceIndex becameLocal sent }

/-! ## Selections and web seeds -/

/-- `drop_unwanted_partial_pieces`. -/
def dropUnwantedPartialPieces (s : Scheduler l) : Scheduler l :=
  let stale := s.chunkTracker.partialPieces.filter (fun idx =>
    !s.chunkTracker.hasLiveRequests idx &&
      (match l.validatePiece idx with
        | .error _ => false
        | .ok vpi => !s.pieceTracker.isWanted vpi))
  stale.foldl (fun s idx =>
    { s with
      chunkTracker := match l.validatePiece idx with
        | .error _ => s.chunkTracker
        | .ok vpi => s.chunkTracker.forgetPiece vpi
      pieceAssemblies := s.pieceAssemblies.erase idx }) s

/-- A web seed begins to fetch a piece. -/
def startWebseed (s : Scheduler l) (pieceIndex : Nat) : Scheduler l :=
  match l.validatePiece pieceIndex with
  | .error _ => s
  | .ok vpi =>
    { s with
      webseedInflight := if pieceIndex ∈ s.webseedInflight then s.webseedInflight else pieceIndex :: s.webseedInflight
      pieceTracker := s.pieceTracker.markInFlight vpi }

/-- `schedule_webseed_workers`, with the workers that are free and the test whether some mirror serves a list of pieces. -/
def scheduleWebseedWorkers (s : Scheduler l) (freeWorkers perJob : Nat) (servable : List Nat → Bool) : Scheduler l :=
  let candidates := (s.pieceTracker.chooseMissingPieces.map Fin.val).filter (fun piece =>
    decide (piece ∉ s.webseedInflight) && !s.chunkTracker.hasLiveRequests piece && servable [piece])
  ((Webseed.contiguousWebseedBatches candidates perJob).take freeWorkers).foldl (fun s batch =>
    (if servable batch then batch else batch.take 1).foldl startWebseed s) s

/-- `release_webseed_inflight`. -/
def releaseWebseedInflight (s : Scheduler l) : Scheduler l :=
  { s with webseedInflight := [], pieceTracker := clearInFlightAll s.pieceTracker s.webseedInflight }

/-- A web seed's result arrives: the piece is no longer fetched, then the result is processed. -/
def webseedResult (s : Scheduler l) (vr : Webseed.VerifyResult) (sent : Nat → Bool) : Scheduler l :=
  processVerifyResult { s with webseedInflight := s.webseedInflight.filter (fun i => i != vr.pieceIndex) } vr sent

end Scheduler

/-! ## Events -/

/-- The calls on a piece tracker that change its order and its availability counts only. -/
def PieceOp.refreshes {l : Lengths} : PieceOp l → Bool
  | .updatePeerHave _ _ | .addPeerBitfield _ | .removePeerBitfield _ | .replacePeerBitfield _ _ | .refreshOrder => true
  | _ => false

/-- The events that change the scheduler's state. `connect`, `retune` and `refresh` stand for the messages and timers the scheduler
only reads from: a peer comes; a peer's flags, window, sets and bitfield change in any way; the piece tracker's availability
counts or its order change. -/
inductive SchedulerEvent (l : Lengths) where
  | connect (pid ip maxOutstanding : Nat)
  | retune (pid : Nat) (peer : Peer)
  | refresh (op : PieceOp l)
  | drivePeer (env : DriveEnv) (pid : Nat)
  | driveRequests (env : Nat → DriveEnv) (pids : List Nat)
  | receivePiece (pid index begin : Nat) (data : List UInt8) (maxOutstanding : Nat)
  | releaseChokedRequests (pid : Nat)
  | applyRequestReject (pid : Nat) (key : Request) (pipeline : Nat × Nat) (now : Nat)
  | reclaim (now timeout : Nat) (pipeline : Nat × Nat)
  | disconnect (pid : Nat)
  | verifyResult (vr : Webseed.VerifyResult) (sent : Nat → Bool)
  | webseedResult (vr : Webseed.VerifyResult) (sent : Nat → Bool)
  | select (wanted : List Bool)
  | scheduleWebseedWorkers (freeWorkers perJob : Nat) (servable : List Nat → Bool)
  | releaseWebseedInflight
  | shuffleWebseeds (order : List Nat)

/-- The state after an event. -/
def SchedulerEvent.apply {l : Lengths} (s : Scheduler l) : SchedulerEvent l → Scheduler l
  | .connect pid ip maxOutstanding =>
    if s.peers.contains pid then s
    else { s with peers := s.peers.insert pid (Peer.connected ip l.pieceBitfieldBytes maxOutstanding) }
  | .retune pid peer =>
    match s.peers.get? pid with
    | none => s
    | some old => { s with peers := s.peers.insert pid { peer with ip := old.ip, outstanding := old.outstanding } }
  | .refresh op => if op.refreshes then { s with pieceTracker := op.apply s.pieceTracker } else s
  | .drivePeer env pid => s.drivePeer env pid
  | .driveRequests env pids => s.driveRequests env pids
  | .receivePiece pid index begin data maxOutstanding => s.receivePiece pid index begin data maxOutstanding
  | .releaseChokedRequests pid => s.releaseChokedRequests pid
  | .applyRequestReject pid key pipeline now => (s.applyRequestReject pid key pipeline now).1
  | .reclaim now timeout pipeline => s.reclaim now timeout pipeline
  | .disconnect pid => s.disconnect pid
  | .verifyResult vr sent => s.processVerifyResult vr sent
  | .webseedResult vr sent => s.webseedResult vr sent
  | .select wanted => Scheduler.dropUnwantedPartialPieces { s with pieceTracker := s.pieceTracker.setWanted wanted }
  | .scheduleWebseedWorkers freeWorkers perJob servable => s.scheduleWebseedWorkers freeWorkers perJob servable
  | .releaseWebseedInflight => s.releaseWebseedInflight
  | .shuffleWebseeds order => if order.isPerm s.webseedInflight then { s with webseedInflight := order } else s

/-- A torrent that starts to download: no peer, no assembly and a fresh chunk tracker. -/
def Scheduler.start {l : Lengths} (pieceTracker : PieceTracker l) (ranges : List (Nat × Nat)) : Scheduler l :=
  { peers := OrdMap.empty
    pieceTracker := pieceTracker
    chunkTracker := (ChunkTracker.new l).withPadding ranges
    webseedInflight := []
    pieceAssemblies := OrdMap.empty
    nextAssembly := 0
    accepted := []
    writeTasks := []
    resetTaken := false }

end Risuko
