import Risuko.Lengths
import Risuko.Lib.Reach

/-!
# Multi-connection downloads

`PieceQueue`, `piece_worker` and the end of `run_multi_chunk` of `http.rs`. A step of a worker is one access to what the workers share: a
compare-exchange, a load of one piece's state, a store, a chunk that the writer of the piece puts into the part file. Where `claim_next` begins
(`next_hint`), what the server sends and when a worker runs out of retries are arguments of the steps.
-/

namespace Risuko

namespace Http

abbrev Text := List Char

/-- `PIECE_SIZE`. -/
def minPieceSize : ℕ := 1024 * 1024

/-- `MAX_PIECE_SIZE`. -/
def maxPieceSize : ℕ := 16 * 1024 * 1024

/-- `choose_piece_size`. -/
def choosePieceSize (contentLength workers : ℕ) : ℕ :=
  let target := contentLength / min (max workers 1 * 4) (2 ^ 64 - 1)
  max minPieceSize (min (target / minPieceSize * minPieceSize) maxPieceSize)

inductive PieceState where
  | free
  | inflight
  | done
  deriving DecidableEq

structure Piece where
  offset : ℕ
  length : ℕ
  /-- The first bytes of the piece that are in the part file. -/
  completed : ℕ
  state : PieceState

structure PieceQueue where
  pieces : List Piece
  pieceSize : ℕ

/-- A piece of the sidecar. -/
structure PieceProgress where
  i : ℕ
  c : ℕ

namespace PieceQueue

/-- `PieceQueue::with_piece_size`. -/
def withPieceSize (contentLength pieceSize : ℕ) : PieceQueue where
  pieces := (List.range (divCeil contentLength pieceSize)).map fun i =>
    let offset := i * pieceSize
    ⟨offset, min pieceSize (contentLength - offset) % 2 ^ 32, 0, .free⟩
  pieceSize := pieceSize

/-- What `run_multi_chunk` takes over of one piece of the sidecar. -/
def resumePiece (q : PieceQueue) (pp : PieceProgress) : PieceQueue :=
  { q with
    pieces := q.pieces.modify pp.i fun p =>
      let c := min pp.c p.length
      { p with completed := c, state := if c = p.length then .done else p.state } }

def resume (q : PieceQueue) (pieces : List PieceProgress) : PieceQueue := pieces.foldl resumePiece q

def setState (q : PieceQueue) (i : ℕ) (state : PieceState) : PieceQueue :=
  { q with pieces := q.pieces.modify i fun p => { p with state := state } }

def addCompleted (q : PieceQueue) (i n : ℕ) : PieceQueue :=
  { q with pieces := q.pieces.modify i fun p => { p with completed := p.completed + n } }

def isFinished (q : PieceQueue) : Bool := q.pieces.all (·.state == .done)

end PieceQueue

/-- `PieceDownloadError`. -/
inductive Failure where
  | cancelled
  | changed (error : Text)
  | source (error : Text)
  | storage (error : Text)

/-- What `download_piece_stream` returns. -/
abbrev Outcome := Except Failure Unit

/-- `ChunkWriter` of one request. -/
structure ChunkWriter where
  offset : ℕ
  remaining : ℕ
  /-- The lengths of the chunks that have been sent to it and are not written. -/
  pending : List ℕ
  /-- The error it has ended with. -/
  failed : Option Text

/-- How far a worker is. -/
inductive Worker where
  /-- At the top of its loop. -/
  | idle
  /-- In `claim_next`, which has tried `di` pieces from `start` on. -/
  | scanning (start di : ℕ)
  /-- In `has_inflight`, which has looked at the first `i` pieces. -/
  | looking (i : ℕ)
  | waiting
  | claimed (idx : ℕ)
  | requesting (idx already : ℕ)
  /-- The body is coming in, `room` bytes of it are still to come. -/
  | streaming (idx already room : ℕ) (writer : ChunkWriter)
  /-- It waits for the writer. -/
  | finishing (idx already : ℕ) (outcome : Outcome) (writer : ChunkWriter)
  | settling (idx already : ℕ) (outcome : Outcome)
  /-- It has seen that the file has changed, and has still to say so. -/
  | changing (error : Text)
  | cancelling (error : Text)
  | exited (error : Option Text)

/-- The piece that a worker has claimed, and neither released nor completed. -/
def Worker.holds : Worker → Option ℕ
  | claimed idx | requesting idx _ | streaming idx .. | finishing idx .. | settling idx .. => some idx
  | _ => none

def Worker.hasExited : Worker → Bool
  | exited _ => true
  | _ => false

/-- The error that a worker has returned. -/
def Worker.error : Worker → Option Text
  | exited error => error
  | _ => none

inductive WorkerStep where
  | start (hint : ℕ)
  | tryClaim
  | look
  | wake
  | readCompleted
  /-- There is no mirror for the piece. -/
  | giveBack (error : Text)
  /-- There is no body. -/
  | refused (failure : Failure)
  | opened
  /-- A chunk of the body. -/
  | receive (length : ℕ)
  /-- The body ends, or fails. -/
  | streamEnds (outcome : Outcome)
  | write
  /-- The writer fails after some bytes of a chunk. -/
  | writeFails (written : ℕ) (error : Text)
  | finished
  /-- `stop` is the error of a worker that gives up. -/
  | settle (stop : Option Text)
  | tell

structure Run where
  queue : PieceQueue
  workers : List Worker
  /-- The token of the workers is cancelled. -/
  cancelled : Bool
  /-- `MirrorPool::changed`. -/
  changed : Bool
  /-- The flag of the stall watchdog. -/
  stalled : Bool
  /-- Where the bytes of the part file have been written, and how many: the last write first. -/
  writes : List (ℕ × ℕ)

inductive Action where
  | worker (v : ℕ) (a : WorkerStep)
  | cancel
  | stall

/-- The message of a worker that sees the token cancelled. -/
def cancelledText : Text := "Download cancelled".toList

namespace Run

def setWorker (s : Run) (v : ℕ) (w : Worker) : Run := { s with workers := s.workers.set v w }

/-- A write to the part file. -/
def put (s : Run) (offset n : ℕ) : Run := { s with writes := (offset, n) :: s.writes }

/-- Whether a byte is in the part file. -/
def written (s : Run) (x : ℕ) : Bool := s.writes.any fun w => decide (w.1 ≤ x ∧ x < w.1 + w.2)

/-- What the writer of the piece `idx` makes of the next chunk. -/
def writeChunk (s : Run) (idx n : ℕ) (writer : ChunkWriter) (pending : List ℕ) : Run × ChunkWriter :=
  let n := min n writer.remaining
  ({ s.put writer.offset n with queue := s.queue.addCompleted idx n },
    { writer with offset := writer.offset + n, remaining := writer.remaining - n, pending := pending })

/-- What a request has come to once its writer has ended. -/
def outcomeOf (outcome : Outcome) (writer : ChunkWriter) : Outcome :=
  match outcome, writer.failed with
  | .error .cancelled, _ => .error .cancelled
  | _, some error => .error (.storage error)
  | outcome, none => outcome

/-- What a worker does about the piece `p` when `download_piece_stream` has returned. -/
def settle (s : Run) (v idx already : ℕ) (p : Piece) (stop : Option Text) : Outcome → Run
  | .ok () =>
    if p.length ≤ p.completed then { s with queue := s.queue.setState idx .done }.setWorker v .idle
    else
      let s := { s with queue := s.queue.setState idx .free }
      if already < p.completed then s.setWorker v .idle
      else
        match stop with
        | none => s.setWorker v .idle
        | some error => s.setWorker v (.exited (some error))
  | .error .cancelled => { s with queue := s.queue.setState idx .free }.setWorker v (.exited (some cancelledText))
  | .error (.changed error) => { s with queue := s.queue.setState idx .free }.setWorker v (.changing error)
  | .error (.storage error) => { s with queue := s.queue.setState idx .free }.setWorker v (.exited (some error))
  | .error (.source _) =>
    let s := { s with queue := s.queue.setState idx .free }
    match stop with
    | none => s.setWorker v .idle
    | some error => s.setWorker v (.exited (some error))

/-- A step of `piece_worker`. -/
def workerStep (s : Run) (v : ℕ) : Worker → WorkerStep → Option Run
  | .idle, .start hint => some (s.setWorker v (if s.cancelled then .exited (some cancelledText) else .scanning (hint % s.queue.pieces.length) 0))
  | .scanning start di, .tryClaim =>
    let n := s.queue.pieces.length
    if n ≤ di then some (s.setWorker v (.looking 0))
    else
      let i := (start + di) % n
      match s.queue.pieces[i]? with
      | some p =>
        if p.state = .free then some ({ s with queue := s.queue.setState i .inflight }.setWorker v (.claimed i))
        else some (s.setWorker v (.scanning start (di + 1)))
      | none => none
  | .looking i, .look =>
    match s.queue.pieces[i]? with
    | some p => some (s.setWorker v (if p.state = .inflight then .waiting else .looking (i + 1)))
    | none => some (s.setWorker v (.exited none))
  | .waiting, .wake => some (s.setWorker v .idle)
  | .claimed idx, .readCompleted =>
    match s.queue.pieces[idx]? with
    | some p =>
      if p.length ≤ p.completed then some ({ s with queue := s.queue.setState idx .done }.setWorker v .idle)
      else some (s.setWorker v (.requesting idx p.completed))
    | none => none
  | .requesting idx _, .giveBack error => some ({ s with queue := s.queue.setState idx .free }.setWorker v (.exited (some error)))
  | .requesting idx already, .refused failure => some (s.setWorker v (.settling idx already (.error failure)))
  | .requesting idx already, .opened =>
    match s.queue.pieces[idx]? with
    | some p =>
      let maxBytes := (p.offset + p.length - 1) - (p.offset + already) + 1
      some (s.setWorker v (.streaming idx already maxBytes ⟨p.offset + already, maxBytes, [], none⟩))
    | none => none
  | .streaming idx already room writer, .receive length =>
    match writer.failed with
    | some error => some (s.setWorker v (.settling idx already (.error (.storage error))))
    | none =>
      let n := min length room
      let writer := { writer with pending := writer.pending ++ [n] }
      some (s.setWorker v (if room - n = 0 then .finishing idx already (.ok ()) writer else .streaming idx already (room - n) writer))
  | .streaming idx already _ writer, .streamEnds outcome => some (s.setWorker v (.finishing idx already outcome writer))
  | .streaming idx already room writer, .write =>
    match writer.pending with
    | n :: pending =>
      let r := s.writeChunk idx n writer pending
      some (r.1.setWorker v (.streaming idx already room r.2))
    | [] => none
  | .streaming idx already room writer, .writeFails written error =>
    match writer.pending with
    | n :: _ =>
      let k := min written (min n writer.remaining)
      some ((s.put writer.offset k).setWorker v (.streaming idx already room { writer with pending := [], failed := some error }))
    | [] => none
  | .finishing idx already outcome writer, .write =>
    match writer.pending with
    | n :: pending =>
      let r := s.writeChunk idx n writer pending
      some (r.1.setWorker v (.finishing idx already outcome r.2))
    | [] => none
  | .finishing idx already outcome writer, .writeFails written error =>
    match writer.pending with
    | n :: _ =>
      let k := min written (min n writer.remaining)
      some ((s.put writer.offset k).setWorker v (.finishing idx already outcome { writer with pending := [], failed := some error }))
    | [] => none
  | .finishing idx already outcome writer, .finished =>
    if writer.pending = [] then some (s.setWorker v (.settling idx already (outcomeOf outcome writer))) else none
  | .settling idx already outcome, .settle stop =>
    match s.queue.pieces[idx]? with
    | some p => some (s.settle v idx already p stop outcome)
    | none => none
  | .changing error, .tell => some ({ s with changed := true }.setWorker v (.cancelling error))
  | .cancelling error, .tell => some ({ s with cancelled := true }.setWorker v (.exited (some error)))
  | _, _ => none

def step (s : Run) : Action → Option Run
  | .worker v a => s.workers[v]?.bind fun w => s.workerStep v w a
  | .cancel => some { s with cancelled := true }
  | .stall => some { s with stalled := true, cancelled := true }

/-! ## The end -/

def contains (text sub : Text) : Bool := text.tails.any fun t => sub.isPrefixOf t

/-- The messages joined by `"; "`. -/
def joined (errors : List Text) : Text := "; ".toList.intercalate errors

/-- What `run_multi_chunk` returns when its workers have exited with these errors, or nothing when it goes on to `sync_file`. -/
def verdict (s : Run) (stallText : Text) (errors : List Text) : Option Text :=
  if s.changed then some "Download will retry: stale partial file removed (server file changed)".toList
  else if s.stalled then some stallText
  else if errors = [] then none
  else if errors.all fun e => contains e "cancelled".toList then some cancelledText
  else if s.queue.isFinished then none
  else
    let realErrors := errors.filter fun e => !contains e "cancelled".toList
    if realErrors = [] then none else some (joined realErrors)

/-- The errors of the workers, once all have exited. -/
def errors (s : Run) : Option (List Text) := if s.workers.all Worker.hasExited then some (s.workers.filterMap Worker.error) else none

/-! ## Runs -/

/-- The queue that `run_multi_chunk` starts with. `resumed` is the piece size and the pieces of the sidecar. -/
def openQueue (contentLength split : ℕ) : Option (ℕ × List PieceProgress) → PieceQueue
  | none => .withPieceSize contentLength (choosePieceSize contentLength split)
  | some (pieceSize, pieces) => (PieceQueue.withPieceSize contentLength pieceSize).resume pieces

/-- A run begins with at least one worker. A sidecar that `load_piece_meta` lets through has a piece size in the range, one entry for a piece, and
tells of bytes that are in the part file. -/
structure Initial (contentLength : ℕ) (s : Run) : Prop where
  queue : ∃ split resumed, s.queue = openQueue contentLength split resumed ∧
    ∀ pieceSize pieces, resumed = some (pieceSize, pieces) →
      minPieceSize ≤ pieceSize ∧ pieceSize ≤ maxPieceSize ∧ (pieces.map (·.i)).Nodup
  workers : ∃ n, s.workers = List.replicate (n + 1) .idle
  written : ∀ p ∈ s.queue.pieces, ∀ x, p.offset ≤ x → x < p.offset + p.completed → s.written x = true

def Reachable (contentLength : ℕ) : Run → Prop := Reach (Initial contentLength) fun s s' => ∃ a, s.step a = some s'

end Run

end Http

end Risuko
