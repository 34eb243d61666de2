import Risuko.Lengths
import Risuko.Lib.OrdMap

/-!
# The chunk tracker

`piece/chunk_tracker.rs`: for each piece a download is working on, the state of each of its chunks, with two counters kept
beside the states, and two indexes over the pieces: those with a chunk still missing and those with a chunk asked for.

The source's `partial` set is `partials` here. An `Instant` is a natural number, and each function that reads the clock takes
the reading as an argument. `PieceChunks.underflow` is a ghost field: it records that a subtraction of `PieceChunks::set` went
below zero, and no function reads it.
-/

namespace Risuko

/-- The state of one chunk. -/
inductive ChunkState where
  | missing
  | requested (peer since : Nat)
  | received
deriving DecidableEq

namespace ChunkState

def isMissing : ChunkState → Bool
  | .missing => true
  | _ => false

def isRequested : ChunkState → Bool
  | .requested _ _ => true
  | _ => false

/-- What a chunk adds to the two counters: (missing, requested). -/
def count : ChunkState → Nat × Nat
  | .missing => (1, 0)
  | .requested _ _ => (0, 1)
  | .received => (0, 0)

end ChunkState

/-- A chunk that `reclaim_stale` took back. -/
structure ReclaimedChunk where
  piece : Nat
  begin : Nat
  peer : Nat
deriving DecidableEq

/-- A chunk handed out for a request, with the state it had before. -/
structure ChunkRequest (l : Lengths) where
  info : ChunkInfo l
  priorState : ChunkState
deriving DecidableEq

/-- The chunks of one tracked piece. -/
structure PieceChunks where
  states : List ChunkState
  missing : Nat
  requested : Nat
  underflow : Bool
deriving DecidableEq

namespace PieceChunks

/-- `PieceChunks::new`: a prefilled chunk counts as received. -/
def new (prefilled : List Bool) : PieceChunks :=
  { states := prefilled.map (fun done => if done then .received else .missing)
    missing := prefilled.countP (fun done => !done)
    requested := 0
    underflow := false }

/-- The state of a chunk; the source only indexes within the piece. -/
def stateAt (c : PieceChunks) (i : Nat) : ChunkState := c.states.getD i .received

/-- `PieceChunks::set`. -/
def set (c : PieceChunks) (i : Nat) (state : ChunkState) : PieceChunks :=
  let old := (c.stateAt i).count
  let new := state.count
  { states := c.states.set i state
    missing := c.missing + new.1 - old.1
    requested := c.requested + new.2 - old.2
    underflow := c.underflow || decide (c.missing + new.1 < old.1) || decide (c.requested + new.2 < old.2) }

/-- The loop that `release_peer` and `reclaim_stale` share: go through the chunk indices and put back to missing every
requested chunk that a test on its peer and its time selects, collecting the index and the peer of each. -/
def freeWhere (sel : Nat → Nat → Bool) : List Nat → PieceChunks → PieceChunks × List (Nat × Nat)
  | [], c => (c, [])
  | i :: is, c =>
    match c.stateAt i with
    | .requested p since =>
      if sel p since then
        let r := freeWhere sel is (c.set i .missing)
        (r.1, (i, p) :: r.2)
      else freeWhere sel is c
    | _ => freeWhere sel is c

/-- The whole loop, over all chunks of the piece. -/
def free (sel : Nat → Nat → Bool) (c : PieceChunks) : PieceChunks × List (Nat × Nat) :=
  freeWhere sel (List.range c.states.length) c

end PieceChunks

/-! ## Padding -/

/-- One step of the merge in `with_padding`: extend the last range when the next one touches it. -/
def mergeRange (merged : List (Nat × Nat)) (r : Nat × Nat) : List (Nat × Nat) :=
  match merged.getLast? with
  | some last => if r.1 ≤ last.2 then merged.dropLast ++ [(last.1, max last.2 r.2)] else merged ++ [r]
  | none => merged ++ [r]

/-- The order in which `sort_unstable` puts ranges: by start, then by end. -/
def rangeLe (a b : Nat × Nat) : Prop := a.1 < b.1 ∨ (a.1 = b.1 ∧ a.2 ≤ b.2)

instance : DecidableRel rangeLe := fun a b => inferInstanceAs (Decidable (a.1 < b.1 ∨ (a.1 = b.1 ∧ a.2 ≤ b.2)))

/-- The ranges `with_padding` stores: the non-empty ones, sorted, with touching ones merged. -/
def mergedPadding (ranges : List (Nat × Nat)) : List (Nat × Nat) :=
  ((ranges.filter (fun r => r.1 < r.2)).insertionSort rangeLe).foldl mergeRange []

/-- The flag loop of `padding_flags`. The third argument is the rest of the ranges from the source's `idx` on: ranges that end
at or before the chunk are passed for good. -/
def paddingScan (base pieceEnd : Nat) : List Nat → List (Nat × Nat) → List Bool
  | [], _ => []
  | i :: is, rest =>
    let start := base + i * chunkSize
    let stop := min (start + chunkSize) pieceEnd
    let rest := rest.dropWhile (fun r => r.2 ≤ start)
    (match rest.head? with
      | some r => decide (r.1 ≤ start) && decide (stop ≤ r.2)
      | none => false) :: paddingScan base pieceEnd is rest

/-- `padding_flags`: which chunks of a piece lie wholly in padding. A piece made only of such chunks has none marked. -/
def paddingFlags (l : Lengths) (padding : List (Nat × Nat)) (piece : ValidPieceIndex l) : List Bool :=
  let none := List.replicate (l.chunkCount piece) false
  if padding.isEmpty then none
  else
    let base := l.pieceOffset piece
    let flags := paddingScan base (base + l.pieceLengthOf piece) (List.range (l.chunkCount piece))
      (padding.dropWhile (fun r => r.2 ≤ base))
    if flags.all id then none else flags

/-! ## The tracker -/

structure ChunkTracker (l : Lengths) where
  padding : List (Nat × Nat)
  pieces : OrdMap Nat PieceChunks
  partials : Finset Nat
  contested : Finset Nat
  endgame : Bool

/-- The scan of `next_chunk_skipping` over the chunk indices in order: the first missing chunk not asked for, or else the first
chunk another peer was asked for that this peer was not (in endgame only). -/
def scanChunks (states : List ChunkState) (endgame : Bool) (peer : Nat) (asked : Nat → Bool) :
    List Nat → Option Nat → Option Nat
  | [], candidate => candidate
  | i :: is, candidate =>
    match states[i]? with
    | some .missing => if !asked i then some i else scanChunks states endgame peer asked is candidate
    | some (.requested p _) =>
      if endgame && p != peer && candidate.isNone && !asked i then scanChunks states endgame peer asked is (some i)
      else scanChunks states endgame peer asked is candidate
    | _ => scanChunks states endgame peer asked is candidate

/-- Where the scan starts: at the first chunk, or in endgame at a chunk spread by peer and piece (in 64-bit arithmetic). -/
def scanStart (endgame : Bool) (peer piece len : Nat) : Nat :=
  if endgame then (peer * 2654435761 + piece) % 2 ^ 64 % len else 0

namespace ChunkTracker

variable {l : Lengths}

/-- `ChunkTracker::new`. -/
def new (l : Lengths) : ChunkTracker l :=
  { padding := [], pieces := OrdMap.empty, partials := ∅, contested := ∅, endgame := false }

/-- `with_padding`. -/
def withPadding (t : ChunkTracker l) (ranges : List (Nat × Nat)) : ChunkTracker l :=
  { t with padding := mergedPadding ranges }

/-- `padding_chunks`. -/
def paddingChunks (t : ChunkTracker l) (piece : ValidPieceIndex l) : List Bool := paddingFlags l t.padding piece

/-- `reindex`. -/
def reindex (t : ChunkTracker l) (piece : Nat) : ChunkTracker l :=
  let flags := match t.pieces.get? piece with
    | some c => (decide (0 < c.missing), decide (0 < c.requested))
    | none => (false, false)
  { t with
    partials := if flags.1 then insert piece t.partials else t.partials.erase piece
    contested := if flags.2 then insert piece t.contested else t.contested.erase piece }

/-- `set_endgame`. -/
def setEndgame (t : ChunkTracker l) (on : Bool) : ChunkTracker l := { t with endgame := on }

/-- The chunks that `chunks_for` finds or creates. -/
def chunksFor (t : ChunkTracker l) (piece : ValidPieceIndex l) : PieceChunks :=
  (t.pieces.get? piece.val).getD (PieceChunks.new (t.paddingChunks piece))

/-- Store the chunks of a piece: what writing through the reference of `chunks_for` does. -/
def store (t : ChunkTracker l) (piece : Nat) (c : PieceChunks) : ChunkTracker l :=
  { t with pieces := t.pieces.insert piece c }

/-- `next_chunk_skipping`. -/
def nextChunkSkipping (t : ChunkTracker l) (piece : ValidPieceIndex l) (peer : Nat) (asked : Nat → Bool) (now : Nat) :
    ChunkTracker l × Option (ChunkRequest l) :=
  let chunks := t.chunksFor piece
  let tracked := t.store piece.val chunks
  let len := chunks.states.length
  if len = 0 || (chunks.missing = 0 && !t.endgame) then (tracked, none)
  else
    let start := scanStart t.endgame peer piece.val len
    match scanChunks chunks.states t.endgame peer asked ((List.range len).map (fun k => (start + k) % len)) none with
    | none => (tracked, none)
    | some i =>
      match l.chunkInfo piece i with
      | none => (tracked, none)
      | some info =>
        ((tracked.store piece.val (chunks.set i (.requested peer now))).reindex piece.val,
          some { info := info, priorState := chunks.stateAt i })

/-- `has_missing`: an untracked piece counts as having missing chunks. -/
def hasMissing (t : ChunkTracker l) (piece : ValidPieceIndex l) : Bool :=
  match t.pieces.get? piece.val with
  | none => true
  | some c => 0 < c.missing

/-- `partial_pieces`, in index order. -/
def partialPieces (t : ChunkTracker l) : List Nat := t.partials.sort (· ≤ ·)

/-- `has_live_requests`. -/
def hasLiveRequests (t : ChunkTracker l) (piece : Nat) : Bool := piece ∈ t.contested

/-- `contested_pieces`, in index order. -/
def contestedPieces (t : ChunkTracker l) : List Nat := t.contested.sort (· ≤ ·)

/-- `mark_received`: whether the piece is complete with this chunk. -/
def markReceived (t : ChunkTracker l) (info : ChunkInfo l) : ChunkTracker l × Bool :=
  let chunks := t.chunksFor info.pieceIndex
  if info.chunkIndex < chunks.states.length then
    let chunks := chunks.set info.chunkIndex .received
    ((t.store info.pieceIndex.val chunks).reindex info.pieceIndex.val, chunks.missing = 0 && chunks.requested = 0)
  else (t.store info.pieceIndex.val chunks, false)

/-- Free the selected requests of every tracked piece and list, in order, what was freed. -/
def freeAll (t : ChunkTracker l) (sel : Nat → Nat → Bool) : ChunkTracker l × List (Nat × List (Nat × Nat)) :=
  ({ t with pieces := t.pieces.mapVal (fun _ c => (c.free sel).1) },
    t.pieces.entries.map (fun e => (e.1, (e.2.free sel).2)))

/-- `release_peer`: the pieces with a freed chunk. -/
def releasePeer (t : ChunkTracker l) (peer : Nat) : ChunkTracker l × List Nat :=
  let freed := t.freeAll (fun p _ => p == peer)
  let affected := (freed.2.filter (fun e => !e.2.isEmpty)).map Prod.fst
  (affected.foldl reindex freed.1, affected)

/-- `reset_piece`. -/
def resetPiece (t : ChunkTracker l) (piece : ValidPieceIndex l) : ChunkTracker l :=
  let t := match t.pieces.get? piece.val with
    | some _ => t.store piece.val (PieceChunks.new (t.paddingChunks piece))
    | none => t
  t.reindex piece.val

/-- `unrequest_chunk`: give a requested chunk the state it had before. -/
def unrequestChunk (t : ChunkTracker l) (piece : ValidPieceIndex l) (chunkIndex : Nat) (priorState : ChunkState) :
    ChunkTracker l :=
  let t := match t.pieces.get? piece.val with
    | some c => if (c.states.getD chunkIndex .received).isRequested then t.store piece.val (c.set chunkIndex priorState) else t
    | none => t
  t.reindex piece.val

/-- `reject_chunk`: free a chunk if it is this peer's. -/
def rejectChunk (t : ChunkTracker l) (piece : ValidPieceIndex l) (chunkIndex peer : Nat) : ChunkTracker l :=
  let t := match t.pieces.get? piece.val with
    | some c =>
      match c.states[chunkIndex]? with
      | some (.requested p _) => if p = peer then t.store piece.val (c.set chunkIndex .missing) else t
      | _ => t
    | none => t
  t.reindex piece.val

/-- `reclaim_stale`: free every request at least `timeout` old. The age of a request is zero when the clock reads before it. -/
def reclaimStale (t : ChunkTracker l) (now timeout : Nat) : ChunkTracker l × List ReclaimedChunk :=
  let freed := t.freeAll (fun _ since => timeout ≤ now - since)
  let out := freed.2.flatMap
    (fun e => e.2.map (fun f => ({ piece := e.1, begin := f.1 * chunkSize, peer := f.2 } : ReclaimedChunk)))
  (out.foldl (fun t r => t.reindex r.piece) freed.1, out)

/-- `forget_piece`. -/
def forgetPiece (t : ChunkTracker l) (piece : ValidPieceIndex l) : ChunkTracker l :=
  ({ t with pieces := t.pieces.erase piece.val } : ChunkTracker l).reindex piece.val

end ChunkTracker

/-! ## Calls -/

/-- The calls that change a chunk tracker, each with its arguments and the clock reading it makes. -/
inductive ChunkOp (l : Lengths) where
  | nextChunkSkipping (piece : ValidPieceIndex l) (peer : Nat) (asked : Nat → Bool) (now : Nat)
  | markReceived (info : ChunkInfo l)
  | releasePeer (peer : Nat)
  | rejectChunk (piece : ValidPieceIndex l) (chunkIndex peer : Nat)
  | unrequestChunk (piece : ValidPieceIndex l) (chunkIndex : Nat) (priorState : ChunkState)
  | reclaimStale (now timeout : Nat)
  | resetPiece (piece : ValidPieceIndex l)
  | forgetPiece (piece : ValidPieceIndex l)
  | setEndgame (on : Bool)

/-- The tracker after a call. -/
def ChunkOp.apply {l : Lengths} (t : ChunkTracker l) : ChunkOp l → ChunkTracker l
  | .nextChunkSkipping piece peer asked now => (t.nextChunkSkipping piece peer asked now).1
  | .markReceived info => (t.markReceived info).1
  | .releasePeer peer => (t.releasePeer peer).1
  | .rejectChunk piece chunkIndex peer => t.rejectChunk piece chunkIndex peer
  | .unrequestChunk piece chunkIndex priorState => t.unrequestChunk piece chunkIndex priorState
  | .reclaimStale now timeout => (t.reclaimStale now timeout).1
  | .resetPiece piece => t.resetPiece piece
  | .forgetPiece piece => t.forgetPiece piece
  | .setEndgame on => t.setEndgame on

end Risuko
