import Risuko.Http.Pieces

/-!
# Attempts at one part file

`run_single_uri_download` of `http.rs`, again and again on one `.part` path: the probe, the choice between several connections and one, the sidecar,
and what each of the two makes of the part file. A process may crash after every step; it leaves the part file and the sidecar. A byte of the part
file is told by the version of the resource that it was taken from. Removing a file does not fail here.
-/

namespace Risuko

namespace Http

/-- The resource on the server: what each version of it is like. -/
structure Server where
  length : ℕ → ℕ
  etag : ℕ → Option Text
  lastModified : ℕ → Option Text

/-! ## The part file -/

/-- `byte x` is the version that the byte at `x` was taken from, and nothing where the file has a hole. -/
structure PartFile where
  length : ℕ
  byte : ℕ → Option ℕ
  inside : ∀ x, byte x ≠ none → x < length

namespace PartFile

def empty : PartFile := ⟨0, fun _ => none, fun _ h => absurd rfl h⟩

def setLen (f : PartFile) (n : ℕ) : PartFile where
  length := n
  byte x := if x < n then f.byte x else none
  inside x h := by
    by_contra hx
    exact h (if_neg hx)

/-- Write `n` bytes of a version. -/
def put (f : PartFile) (offset n version : ℕ) : PartFile where
  length := if n = 0 then f.length else max f.length (offset + n)
  byte x := if offset ≤ x ∧ x < offset + n then some version else f.byte x
  inside x h := by
    split at h
    · rename_i hin
      rw [if_neg (by omega)]
      exact lt_max_of_lt_right hin.2
    · have hx := f.inside x h
      split
      · exact hx
      · exact lt_max_of_lt_left hx

def hasHole (f : PartFile) : Bool := (List.range f.length).any fun x => (f.byte x).isNone

/-- Whether the file is a version of the resource, byte for byte. -/
def IsWhole (f : PartFile) (server : Server) (version : ℕ) : Prop :=
  f.length = server.length version ∧ ∀ x < f.length, f.byte x = some version

end PartFile

/-- `falloc::Mode`. -/
inductive FallocMode where
  | none
  | trunc
  | falloc
  deriving DecidableEq

/-- `falloc::allocate`. -/
def allocate (f : PartFile) (n : ℕ) (mode : FallocMode) : PartFile := if mode = .none then f else f.setLen n

/-! ## Validators -/

/-- `is_strong_etag`. -/
def isStrongEtag (tag : Text) : Bool := 2 ≤ tag.length && tag.head? == some '"' && tag.getLast? == some '"' && !"W/".toList.isPrefixOf tag

/-- `etags_strongly_equal`. -/
def etagsStronglyEqual (a b : Text) : Bool := isStrongEtag a && isStrongEtag b && a == b

/-- `has_resume_validator`. -/
def hasResumeValidator (etag lastModified : Option Text) : Bool := etag.any isStrongEtag || lastModified.isSome

/-! ## The sidecar -/

/-- `META_VERSION`. -/
def metaVersion : ℕ := 2

structure ChunkMeta where
  version : ℕ
  contentLength : ℕ
  pieceSize : ℕ
  etag : Option Text
  lastModified : Option Text
  pieces : List PieceProgress

/-- `save_piece_meta`: the sidecar that it writes, if any. -/
def savePieceMeta (queue : PieceQueue) (contentLength : ℕ) (etag lastModified : Option Text) : Option ChunkMeta :=
  if hasResumeValidator etag lastModified then
    some
      { version := metaVersion
        contentLength := contentLength
        pieceSize := queue.pieceSize % 2 ^ 32
        etag := etag
        lastModified := lastModified
        pieces := queue.pieces.zipIdx.filterMap fun (p, i) => if p.completed = 0 then none else some ⟨i, p.completed⟩ }
  else none

/-- The comparison of the validators in `load_piece_meta`. -/
def validatorsMatch (saved : ChunkMeta) (etag lastModified : Option Text) : Bool :=
  match saved.etag.any isStrongEtag, etag.any isStrongEtag with
  | true, true => (saved.etag.bind fun a => etag.map fun b => etagsStronglyEqual a b).getD false
  | false, false => (saved.lastModified.bind fun a => lastModified.map fun b => a == b).getD false
  | _, _ => false

/-- The pieces of a sidecar, none longer than the part file. -/
def clampPieces (saved : ChunkMeta) (fileLen : ℕ) : List PieceProgress :=
  (saved.pieces.map fun pp => { pp with c := min pp.c (min (fileLen - pp.i * saved.pieceSize) (2 ^ 32 - 1)) }).filter fun pp => 0 < pp.c

/-- `load_piece_meta`: the piece size and the pieces, unless it removes the sidecar. -/
def loadPieceMeta (saved : ChunkMeta) (part : Option PartFile) (contentLength : ℕ) (etag lastModified : Option Text) : Option (ℕ × List PieceProgress) :=
  if saved.version ≠ metaVersion ∨ saved.contentLength ≠ contentLength ∨ saved.pieceSize < minPieceSize ∨ maxPieceSize < saved.pieceSize then none
  else
    match part with
    | none => none
    | some f =>
      if f.length ≤ contentLength ∧ validatorsMatch saved etag lastModified = true then some (saved.pieceSize, clampPieces saved f.length) else none

/-! ## Attempts -/

/-- What an attempt is told by its options, its URL and its cookies. -/
structure Settings where
  isHttp : Bool
  split : ℕ
  minSplitSize : ℕ
  /-- The cookies for the URL have `cf_clearance`. -/
  cfClearance : Bool
  /-- The file name comes from the URL. -/
  urlDerived : Bool
  mode : FallocMode

structure ProbeResult where
  contentLength : ℕ
  etag : Option Text
  lastModified : Option Text
  rangeSupported : Bool

/-- `probe_range_support`, of a response of this version. -/
def probeOf (server : Server) (version : ℕ) (ranges : Bool) : ProbeResult where
  contentLength := if ranges then server.length version else 0
  etag := server.etag version
  lastModified := server.lastModified version
  rangeSupported := ranges

/-- `probe_from_sidecar`. -/
def probeFromSidecar (saved : ChunkMeta) (part : PartFile) : Option ProbeResult :=
  if saved.version ≠ metaVersion ∨ saved.contentLength = 0 ∨ saved.contentLength < part.length ∨
      hasResumeValidator saved.etag saved.lastModified = false then none
  else some ⟨saved.contentLength, saved.etag, saved.lastModified, true⟩

/-- A call of `run_multi_chunk`. -/
structure Multi where
  contentLength : ℕ
  split : ℕ
  etag : Option Text
  lastModified : Option Text
  mode : FallocMode

/-- How far an attempt is. -/
inductive Phase where
  /-- There is none, or it has returned. -/
  | idle
  /-- It has returned with `STALE_PART_REMOVED`. -/
  | stale
  | probed (o : Settings) (existing : ℕ) (probe : Option ProbeResult)
  | loading (m : Multi)
  | opening (m : Multi) (resumed : Option (ℕ × List PieceProgress))
  | allocating (m : Multi) (resumed : Option (ℕ × List PieceProgress))
  /-- The workers run. `bodies` are the versions of the responses that they read. -/
  | multi (m : Multi) (run : Run) (bodies : ℕ → ℕ)
  | syncing (m : Multi)
  /-- The part file is gone; `delete_chunk_meta` is next, and the attempt returns. -/
  | clearing
  /-- The file has changed: the part file is removed next, and then the sidecar. -/
  | removing
  | clearingStale
  /-- The part file of several connections is removed next, and then the sidecar. -/
  | dropping
  | droppingSidecar
  /-- `run_single_download`. -/
  | asking
  | receiving (offset version : ℕ)
  | syncingSingle

/-- What the server answers to the request of a single connection. -/
inductive Answer where
  | fails (retry : Bool)
  /-- 416, with the length of the resource or without. -/
  | notSatisfiable (tells : Bool)
  | whole
  /-- 206, from where the part file ends. How far the range goes is not read. -/
  | rest
  | wrongRange

/-- How the end of a download goes. -/
inductive Ending where
  | failed
  | unverified
  | verified

inductive AttemptAction where
  | changeResource (version : ℕ)
  /-- The attempt begins, and its probe, if it makes one, gets a response with ranges or without, or none. -/
  | start (o : Settings) (answered : Option Bool)
  | choose
  | load
  | openPart
  | allocates (workers : Option ℕ)
  | run (a : Action) (tellsTotal : Bool)
  | save
  | conclude (stallText : Text) (errors : List Text)
  | ends (ending : Ending)
  /-- The next file is removed. -/
  | remove
  | ask (answer : Answer)
  | receive (n : ℕ)
  /-- The body of a single connection is at its end, wherever that is: a short range, or a connection that is closed early. -/
  | bodyEnds
  | bodyFails (retry : Bool)
  | crash

def AttemptAction.changes : AttemptAction → Bool
  | changeResource _ => true
  | _ => false

structure Attempts where
  /-- The version that the server has. -/
  version : ℕ
  part : Option PartFile
  sidecar : Option ChunkMeta
  phase : Phase
  /-- The files that have been renamed, each with the ETag that its attempt was started with. -/
  finalised : List (Option Text × PartFile)

namespace Attempts

def existing (s : Attempts) : ℕ := s.part.elim 0 (·.length)

/-- What `run_single_uri_download` does when it has probed. -/
def choose (s : Attempts) (o : Settings) (existing : ℕ) (probe : Option ProbeResult) : Phase :=
  let resumeMulti := 0 < existing && s.sidecar.isSome
  let sidecarProbe := if o.isHttp && probe.isNone && resumeMulti then s.sidecar.bind fun saved => s.part.bind (probeFromSidecar saved) else none
  let single := if s.sidecar.isSome && 0 < existing then .dropping else .asking
  if o.isHttp && (1 < o.split || sidecarProbe.isSome) then
    match probe.or sidecarProbe with
    | some p =>
      if p.rangeSupported && 0 < p.contentLength && (resumeMulti || 2 ≤ p.contentLength / o.minSplitSize) then
        let workers := if resumeMulti then o.split else min (p.contentLength / o.minSplitSize) o.split
        .loading ⟨p.contentLength, workers, p.etag, p.lastModified, o.mode⟩
      else single
    | none => single
  else single

/-- Whether a piece request goes on when it is answered by this version. -/
def admits (server : Server) (m : Multi) (version : ℕ) (tellsTotal : Bool) : Bool :=
  ((m.etag.filter isStrongEtag).all fun expected => (server.etag version).all fun actual => etagsStronglyEqual actual expected) &&
    (!tellsTotal || server.length version == m.contentLength)

/-- The write that a step of the run has made. -/
def writeOf (before after : Run) : Option (ℕ × ℕ) := if before.writes.length < after.writes.length then after.writes.head? else none

/-- The part file after a step of the run. -/
def landed (f : PartFile) (bodies : ℕ → ℕ) (a : Action) (before after : Run) : PartFile :=
  match a, writeOf before after with
  | .worker v _, some (offset, n) => f.put offset n (bodies v)
  | _, _ => f

/-- The run that `run_multi_chunk` starts. -/
def startRun (m : Multi) (resumed : Option (ℕ × List PieceProgress)) (workers : ℕ) : Run :=
  let queue := Run.openQueue m.contentLength m.split resumed
  { queue := queue
    workers := List.replicate (workers + 1) .idle
    cancelled := false
    changed := false
    stalled := false
    writes := queue.pieces.map fun p => (p.offset, p.completed) }

/-- `run_single_download`, when it has an answer. -/
def answered (server : Server) (s : Attempts) : Answer → Option Attempts
  | .fails retry => some { s with phase := if retry then .asking else .idle }
  | .notSatisfiable tells =>
    if 0 < s.existing ∧ server.length s.version ≤ s.existing then
      if tells ∧ server.length s.version = s.existing then some { s with phase := .syncingSingle }
      else some { s with part := none, phase := .clearingStale }
    else none
  | .whole => some { s with part := some ((s.part.getD .empty).setLen 0), phase := .receiving 0 s.version }
  | .rest =>
    if s.existing < server.length s.version ∨ s.existing = 0 then
      some { s with part := some (s.part.getD .empty), phase := .receiving s.existing s.version }
    else none
  | .wrongRange => if 0 < s.existing then some { s with part := none, phase := .clearingStale } else none

def step (server : Server) (s : Attempts) : AttemptAction → Option Attempts
  | .changeResource version => some { s with version := version }
  | .start o answered =>
    match s.phase with
    | .idle | .stale =>
      let hasSidecar := 0 < s.existing && s.sidecar.isSome
      if o.isHttp && (1 < o.split || o.urlDerived) && !o.cfClearance then
        match answered with
        | some ranges => some { s with phase := .probed o s.existing (some (probeOf server s.version ranges)) }
        | none => some { s with phase := if hasSidecar then .idle else .probed o s.existing none }
      else some { s with phase := .probed o s.existing none }
    | _ => none
  | .choose =>
    match s.phase with
    | .probed o existing probe => some { s with phase := s.choose o existing probe }
    | _ => none
  | .load =>
    match s.phase with
    | .loading m =>
      let resumed := s.sidecar.bind fun saved => loadPieceMeta saved s.part m.contentLength m.etag m.lastModified
      some { s with sidecar := if resumed.isSome then s.sidecar else none, phase := .opening m resumed }
    | _ => none
  | .openPart =>
    match s.phase with
    | .opening m resumed => some { s with part := some (s.part.getD .empty), phase := .allocating m resumed }
    | _ => none
  | .allocates workers =>
    match s.phase with
    | .allocating m resumed =>
      match workers with
      | none => some { s with phase := .idle }
      | some n =>
        some
          { s with
            part := s.part.map fun f => allocate f m.contentLength m.mode
            phase := .multi m (startRun m resumed n) fun _ => 0 }
    | _ => none
  | .run a tellsTotal =>
    match s.phase with
    | .multi m run bodies =>
      let opens := match a with
        | .worker v .opened => some v
        | _ => none
      if opens.isSome && !admits server m s.version tellsTotal then none
      else
        (run.step a).map fun after =>
          { s with
            part := s.part.map fun f => landed f bodies a run after
            phase := .multi m after (opens.elim bodies fun v => Function.update bodies v s.version) }
    | _ => none
  | .save =>
    match s.phase with
    | .multi m run _ => some { s with sidecar := (savePieceMeta run.queue m.contentLength m.etag m.lastModified).or s.sidecar }
    | _ => none
  | .conclude stallText errors =>
    match s.phase with
    | .multi m run _ =>
      if run.errors.any fun L => L.isPerm errors then
        match run.verdict stallText errors with
        | some _ =>
          if run.changed then some { s with phase := .removing }
          else some { s with sidecar := (savePieceMeta run.queue m.contentLength m.etag m.lastModified).or s.sidecar, phase := .idle }
        | none => some { s with phase := .syncing m }
      else none
    | _ => none
  | .ends ending =>
    match s.phase, ending with
    | .syncing _, .failed => some { s with phase := .idle }
    | .syncing _, .unverified => some { s with part := none, phase := .clearing }
    | .syncing m, .verified => some { s with part := none, phase := .clearing, finalised := s.part.toList.map (m.etag, ·) ++ s.finalised }
    | .syncingSingle, .failed => some { s with phase := .idle }
    | .syncingSingle, .unverified => some { s with part := none, phase := .idle }
    | .syncingSingle, .verified => some { s with part := none, phase := .idle, finalised := s.part.toList.map (none, ·) ++ s.finalised }
    | _, _ => none
  | .remove =>
    match s.phase with
    | .clearing => some { s with sidecar := none, phase := .idle }
    | .removing => some { s with part := none, phase := .clearingStale }
    | .clearingStale => some { s with sidecar := none, phase := .stale }
    | .dropping => some { s with part := none, phase := .droppingSidecar }
    | .droppingSidecar => some { s with sidecar := none, phase := .asking }
    | _ => none
  | .ask answer =>
    match s.phase with
    | .asking => s.answered server answer
    | _ => none
  | .receive n =>
    match s.phase with
    | .receiving offset version =>
      if offset + n ≤ server.length version then
        some { s with part := s.part.map (·.put offset n version), phase := .receiving (offset + n) version }
      else none
    | _ => none
  | .bodyEnds =>
    match s.phase with
    | .receiving .. => some { s with phase := .syncingSingle }
    | _ => none
  | .bodyFails retry =>
    match s.phase with
    | .receiving .. => some { s with phase := if retry then .asking else .idle }
    | _ => none
  | .crash => some { s with phase := .idle }

/-- Whether a step takes a hole of the part file for what is written: a single connection that goes on at the end of the file, and a sidecar that
counts more than there is. -/
def findsHole (s : Attempts) : AttemptAction → Bool
  | .ask .rest | .ask (.notSatisfiable true) => s.part.any PartFile.hasHole
  | .load =>
    match s.phase with
    | .loading m =>
      (s.sidecar.bind fun saved => loadPieceMeta saved s.part m.contentLength m.etag m.lastModified).any fun found =>
        found.2.any fun pp => (List.range pp.c).any fun k => !s.part.any fun f => (f.byte (pp.i * found.1 + k)).isSome
    | _ => false
  | _ => false

/-- Whether the body of a single connection ends before the resource does. -/
def endsShort (server : Server) (s : Attempts) : AttemptAction → Bool
  | .bodyEnds =>
    match s.phase with
    | .receiving offset version => offset != server.length version
    | _ => false
  | _ => false

/-- Whether an attempt is one with several connections, where that is chosen. -/
def staysMulti (s : Attempts) : AttemptAction → Bool
  | .choose =>
    match s.phase with
    | .probed o existing probe =>
      match s.choose o existing probe with
      | .loading _ => true
      | _ => false
    | _ => true
  | _ => true

/-- Whether a step leaves an end of the part file that is behind the end of the resource. -/
def findsTail (s : Attempts) : AttemptAction → Bool
  | .allocates (some _) =>
    match s.phase with
    | .allocating m _ => m.mode == .none && s.part.any fun f => m.contentLength < f.length
    | _ => false
  | _ => false

/-- Nothing has been downloaded. -/
def Initial (s : Attempts) : Prop := s.part = none ∧ s.sidecar = none ∧ s.phase = .idle ∧ s.finalised = []

end Attempts

end Http

end Risuko
