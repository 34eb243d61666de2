import Risuko.Metainfo.Verifier
import Risuko.Net

/-!
# Web seeds

`fetch_webseed_batch` of `torrent.rs`, `contiguous_webseed_batches`, and the checks of `webseed.rs` that they use. A worker shares what it knows of the
mirrors with other workers, who may change it whenever it waits or takes a lock: one `turn`. What the servers, the clock, the disk and the
scheduler answer is a `Surroundings`.
-/

namespace Risuko

namespace Webseed

/-- `WEBSEED_MAX_RANGE_BYTES`. -/
def maxRangeBytes : ℕ := 16 * 1024 * 1024

/-- `WEBSEED_MAX_PIECES_PER_JOB`. -/
def maxPiecesPerJob : ℕ := 8

/-- `WEBSEED_RETRY_BASE`, in seconds. -/
def retryBase : ℕ := 5

/-- `WEBSEED_RETRY_MAX`, in seconds. -/
def retryMax : ℕ := 600

inductive WebSeedError where
  | invalidUrl (message : String)
  | unsupportedScheme
  | invalidRange (range : String)
  | unexpectedStatus (status : ℕ)
  | missingContentRange
  | bodyTooLarge (actual limit : ℕ)
  | bodyLength (actual expected : ℕ)
  | rangeMismatch
  | totalLengthMismatch (actual expected : ℕ)
  | bodyTooSlow
  | http (message : String)
  deriving DecidableEq

structure ByteRange where
  start : ℕ
  stop : ℕ
  total : ℕ
  deriving DecidableEq

/-- `ByteRange::len`. -/
def ByteRange.len (range : ByteRange) : ℕ := if range.stop < range.start then 0 else range.stop - range.start + 1

/-- `validate_range`. -/
def validateRange (start stop total maxBytes : ℕ) : Except WebSeedError ByteRange :=
  if total = 0 ∨ stop < start ∨ total ≤ stop then .error (.invalidRange s!"bytes {start}-{stop}/{total}")
  else
    let range : ByteRange := ⟨start, stop, total⟩
    if maxBytes < range.len then .error (.bodyTooLarge range.len maxBytes) else .ok range

/-- `is_retryable_status`. -/
def isRetryableStatus (status : ℕ) : Bool := status = 403 || status = 408 || status = 425 || status = 429 || (500 ≤ status && status ≤ 599)

/-! ## Mirrors -/

/-- What the workers of a torrent know of the mirrors. The backoff of a mirror is its streak, and when it may be tried again. -/
structure Mirrors where
  disabled : List ℕ
  disabledFiles : List (ℕ × ℕ)
  backoff : ℕ → Option (ℕ × ℕ)

namespace Mirrors

/-- `mirror_usable`. -/
def usable (m : Mirrors) (now idx : ℕ) : Bool := !m.disabled.contains idx && (m.backoff idx).all fun b => b.2 ≤ now

def disable (m : Mirrors) (idx : ℕ) : Mirrors := { m with disabled := idx :: m.disabled }

def disableFile (m : Mirrors) (idx file : ℕ) : Mirrors := { m with disabledFiles := (idx, file) :: m.disabledFiles }

/-- `back_off`. -/
def backOff (m : Mirrors) (now idx : ℕ) : Mirrors :=
  if (m.backoff idx).any fun b => now < b.2 then m
  else
    let streak := (m.backoff idx).elim 1 fun b => min (b.1 + 1) (2 ^ 32 - 1)
    let delay := min (retryBase * 2 ^ min (streak - 1) 7) retryMax
    { m with backoff := fun i => if i = idx then some (streak, now + delay) else m.backoff i }

/-- `mirror_succeeded`. -/
def succeeded (m : Mirrors) (idx : ℕ) : Mirrors := { m with backoff := fun i => if i = idx then none else m.backoff i }

end Mirrors

/-! ## Workers -/

/-- What a worker is given: the mirrors' base URLs by index only, with the URL of each file at each mirror (`build_file_url`). -/
structure WebSeedContext (l : Lengths) where
  bases : ℕ
  fileUrl : ℕ → ℕ → Except WebSeedError String
  layout : FileSet
  covers : layout.totalLength = l.totalLength
  verify : ℕ → List UInt8 → Except VerifyError Unit
  generation : ℕ

/-- What a worker meets at its n-th turn: what others have done to what they share, the time, the answer to a request for a range, whether the
task that verifies a piece has ended well, and the error of a write. -/
structure Surroundings where
  others : ℕ → Mirrors → Mirrors
  now : ℕ → ℕ
  fetchRangeResponse : ℕ → String → ByteRange → Except WebSeedError (List UInt8)
  joined : ℕ → Bool
  writeError : ℕ → ℕ → List UInt8 → Option String

/-- A worker: what it sees of the mirrors, how many turns it has had, and what it has written where. -/
structure Worker where
  mirrors : Mirrors
  turns : ℕ
  written : List (ℕ × List UInt8)

namespace Worker

def turn (w : Worker) (s : Surroundings) : Worker := { w with mirrors := s.others w.turns w.mirrors, turns := w.turns + 1 }

def disable (w : Worker) (s : Surroundings) (idx : ℕ) : Worker := { w.turn s with mirrors := (w.turn s).mirrors.disable idx }

def disableFile (w : Worker) (s : Surroundings) (idx file : ℕ) : Worker := { w.turn s with mirrors := (w.turn s).mirrors.disableFile idx file }

def backOff (w : Worker) (s : Surroundings) (idx : ℕ) : Worker := { w.turn s with mirrors := (w.turn s).mirrors.backOff (s.now w.turns) idx }

def succeeded (w : Worker) (s : Surroundings) (idx : ℕ) : Worker := { w.turn s with mirrors := (w.turn s).mirrors.succeeded idx }

end Worker

structure VerifyResult where
  pieceIndex : ℕ
  writeError : Option String
  verifyOk : Bool
  fromWebseed : Bool
  hashConflict : Bool
  contributors : List IpAddr
  failedCopy : Option (List (Option IpAddr × List UInt8))
  culprits : List IpAddr

structure WebSeedBatchResult where
  generation : ℕ
  pieces : List VerifyResult

/-- A result of a web seed. -/
def VerifyResult.ofWebseed (pieceIndex : ℕ) (writeError : Option String) (verifyOk hashConflict : Bool) : VerifyResult :=
  ⟨pieceIndex, writeError, verifyOk, true, hashConflict, [], none, []⟩

/-- `webseed_failed_batch`. -/
def webseedFailedBatch (generation : ℕ) (pieceIndices : List ℕ) : WebSeedBatchResult :=
  ⟨generation, pieceIndices.map fun pieceIndex => .ofWebseed pieceIndex none false false⟩

/-- `webseed_piece_spans`. -/
def webseedPieceSpans (layout : FileSet) (offset len : ℕ) : List Span := layout.collectSpans offset len

section Fetching

variable {l : Lengths} (ctx : WebSeedContext l) (s : Surroundings) (mirrorIdx : ℕ)

/-- The attempts at a range that are left: the body if there is one, and whether the mirror is still to be used. -/
def fetchAttempts (fileIdx : ℕ) (url : String) (requested : ByteRange) : List ℕ → Worker → Option (List UInt8) × Bool × Worker
  | [], w => (none, true, w)
  | attempt :: rest, w =>
    match s.fetchRangeResponse w.turns url requested with
    | .ok body => (some body, true, w.turn s)
    | .error (.unexpectedStatus status) =>
      if status = 404 ∨ status = 410 ∨ status = 416 then (none, false, (w.turn s).disableFile s mirrorIdx fileIdx)
      else if isRetryableStatus status then
        if attempt = 2 then (none, false, (w.turn s).backOff s mirrorIdx) else fetchAttempts fileIdx url requested rest ((w.turn s).turn s)
      else (none, false, (w.turn s).disable s mirrorIdx)
    | .error (.http _) =>
      if attempt = 2 then (none, false, (w.turn s).backOff s mirrorIdx) else fetchAttempts fileIdx url requested rest ((w.turn s).turn s)
    | .error .bodyTooSlow => (none, false, (w.turn s).backOff s mirrorIdx)
    | .error _ => (none, false, (w.turn s).disable s mirrorIdx)

/-- How far the bytes of a batch have come from a mirror. -/
structure Progress where
  batch : List UInt8
  cursor : ℕ
  mirrorOk : Bool

/-- The loop over the ranges of a span, and how much of the span it has. -/
def fetchSpan (span : Span) (fileLength : ℕ) (url : String) (spanCursor : ℕ) (p : Progress) (w : Worker) : ℕ × Progress × Worker :=
  if spanCursor < span.len then
    let requestLen := min (span.len - spanCursor) maxRangeBytes
    let start := span.fileOffset + spanCursor
    if 2 ^ 64 ≤ start then (spanCursor, { p with mirrorOk := false }, w.disable s mirrorIdx)
    else
      match validateRange start (start + requestLen - 1) fileLength maxRangeBytes with
      | .error _ => (spanCursor, { p with mirrorOk := false }, w.disable s mirrorIdx)
      | .ok requested =>
        match fetchAttempts s mirrorIdx span.fileIndex url requested [0, 1, 2] w with
        | (none, ok, w) => (spanCursor, { p with mirrorOk := p.mirrorOk && ok }, w)
        | (some bytes, ok, w) =>
          let endCursor := min (p.cursor + bytes.length) (2 ^ 64 - 1)
          if p.batch.length < endCursor ∨ bytes.length ≠ requestLen then (spanCursor, { p with mirrorOk := false }, w.disable s mirrorIdx)
          else
            fetchSpan span fileLength url (spanCursor + requestLen)
              { batch := p.batch.take p.cursor ++ (bytes ++ p.batch.drop endCursor), cursor := endCursor, mirrorOk := p.mirrorOk && ok } w
  else (spanCursor, p, w)
termination_by span.len - spanCursor
decreasing_by
  simp only [maxRangeBytes]
  omega

/-- The loop over the spans of a batch. -/
def fetchSpans : List Span → Progress → Worker → Progress × Worker
  | [], p, w => (p, w)
  | span :: rest, p, w =>
    match ctx.layout.files[span.fileIndex]? with
    -- A span is of a file.
    | none => ({ p with mirrorOk := false }, w)
    | some file =>
      if file.padding then fetchSpans rest { p with cursor := min (p.cursor + span.len) (2 ^ 64 - 1) } w
      else
        match ctx.fileUrl mirrorIdx span.fileIndex with
        | .error _ => ({ p with mirrorOk := false }, w.disable s mirrorIdx)
        | .ok url =>
          match fetchSpan s mirrorIdx span file.length url 0 p w with
          | (spanCursor, p, w) => if !p.mirrorOk ∨ spanCursor ≠ span.len then (p, w) else fetchSpans rest p w

/-- The loop over the pieces of a batch that has come whole: the results up to the first piece that is not stored. -/
def checkPieces (batch : List UInt8) : List ℕ → ℕ → Worker → List VerifyResult × Worker
  | [], _, w => ([], w)
  | pieceIndex :: rest, pieceCursor, w =>
    match l.validatePiece pieceIndex with
    | .error _ => ([], w)
    | .ok vpi =>
      let stop := min (pieceCursor + l.pieceLengthOf vpi) (2 ^ 64 - 1)
      if batch.length < stop then ([], w)
      else
        let piece := (batch.drop pieceCursor).take (stop - pieceCursor)
        let verdict := if s.joined w.turns then ctx.verify pieceIndex piece else .error .hashMismatch
        let w := w.turn s
        match verdict with
        | .error .inconsistentHashes => ([.ofWebseed pieceIndex none false true], w)
        | .error _ => ([], w.disable s mirrorIdx)
        | .ok () =>
          match s.writeError w.turns (l.pieceOffset vpi) piece with
          | some error => ([.ofWebseed pieceIndex (some error) false false], w.turn s)
          | none =>
            let later := checkPieces batch rest stop { w.turn s with written := w.written ++ [(l.pieceOffset vpi, piece)] }
            (.ofWebseed pieceIndex none true false :: later.1, later.2)

end Fetching

section Batches

variable {l : Lengths} (ctx : WebSeedContext l) (s : Surroundings)

/-- The loop over the mirrors that are left. -/
def tryMirrors (pieceIndices : List ℕ) (batchLen : ℕ) (spans : List Span) : List ℕ → Worker → WebSeedBatchResult × Worker
  | [], w => (webseedFailedBatch ctx.generation pieceIndices, w)
  | mirrorIdx :: rest, w =>
    let seen := w.turn s
    if !seen.mirrors.usable (s.now w.turns) mirrorIdx then tryMirrors pieceIndices batchLen spans rest seen
    else
      let w := seen.turn s
      let missingFile := spans.any fun span =>
        !ctx.layout.isPadding span.fileIndex && w.mirrors.disabledFiles.contains (mirrorIdx, span.fileIndex)
      if missingFile then tryMirrors pieceIndices batchLen spans rest w
      else
        match fetchSpans ctx s mirrorIdx spans { batch := List.replicate batchLen 0, cursor := 0, mirrorOk := true } w with
        | (p, w) =>
          if !p.mirrorOk ∨ p.cursor ≠ p.batch.length then tryMirrors pieceIndices batchLen spans rest w
          else
            match checkPieces ctx s mirrorIdx p.batch pieceIndices 0 (w.succeeded s mirrorIdx) with
            | (pieces, w) =>
              if pieces.isEmpty then tryMirrors pieceIndices batchLen spans rest w
              else
                let failed := webseedFailedBatch ctx.generation (pieceIndices.drop pieces.length)
                (⟨ctx.generation, pieces ++ failed.pieces⟩, w)

/-- `fetch_webseed_batch`. -/
def fetchWebseedBatch (pieceIndices : List ℕ) (w : Worker) : WebSeedBatchResult × Worker :=
  match pieceIndices.head?, pieceIndices.getLast? with
  | some firstIndex, some lastIndex =>
    match l.validatePiece firstIndex, l.validatePiece lastIndex with
    | .ok first, .ok last =>
      if (pieceIndices.zip pieceIndices.tail).any fun pair => pair.2 ≠ min (pair.1 + 1) (2 ^ 32 - 1) then
        (webseedFailedBatch ctx.generation pieceIndices, w)
      else
        let offset := l.pieceOffset first
        let batchLen := min (l.pieceOffset last + l.pieceLengthOf last) (2 ^ 64 - 1) - offset
        let spans := webseedPieceSpans ctx.layout offset batchLen
        if spans.isEmpty then (webseedFailedBatch ctx.generation pieceIndices, w)
        else
          let firstMirror := firstIndex % max ctx.bases 1
          tryMirrors ctx s pieceIndices batchLen spans ((List.range ctx.bases).map fun k => (firstMirror + k) % ctx.bases) w
    | _, _ => (webseedFailedBatch ctx.generation pieceIndices, w)
  | _, _ => (⟨ctx.generation, []⟩, w)

end Batches

/-! ## Splitting -/

/-- `webseed_pieces_per_job`. -/
def webseedPiecesPerJob (pieceLength : ℕ) : ℕ := max 1 (min (maxRangeBytes / max pieceLength 1) maxPiecesPerJob)

/-- An iteration of `contiguous_webseed_batches`: the batches that are complete and the one that is being filled. -/
def addToBatch (maxPieces : ℕ) (state : List (List ℕ) × List ℕ) (piece : ℕ) : List (List ℕ) × List ℕ :=
  let adjacent := state.2.getLast?.any fun previous => piece = min (previous + 1) (2 ^ 32 - 1)
  if !state.2.isEmpty && (!adjacent || state.2.length = max maxPieces 1) then (state.1 ++ [state.2], [piece])
  else (state.1, state.2 ++ [piece])

/-- `contiguous_webseed_batches`. -/
def contiguousWebseedBatches (candidates : List ℕ) (maxPieces : ℕ) : List (List ℕ) :=
  let (batches, batch) := candidates.foldl (addToBatch maxPieces) ([], [])
  if batch.isEmpty then batches else batches ++ [batch]

end Webseed

end Risuko
