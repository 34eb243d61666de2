import Risuko.Lib.OrdMap
import Risuko.Lib.Reach

/-!
# SFTP downloads

The read loop of `sftp_attempt` of `sftp_download.rs`: many reads under way, which come back in any order and may be short, and a buffer that puts
them in order again. The file on the server does not change. A step is one read that completes or one write to the part file. Offsets do not come near
`2 ^ 64`.
-/

namespace Risuko

namespace Sftp

/-- `BUF_SIZE`. -/
def bufSize : ℕ := 64 * 1024

/-- `SFTP_READ_AHEAD`. -/
def sftpReadAhead : ℕ := 64

structure SftpReadChunk where
  offset : ℕ
  requestedLen : ℕ
  data : List UInt8

/-! ## Chunks in order -/

structure OrderedChunkBuffer where
  nextOffset : ℕ
  pending : OrdMap ℕ (List UInt8)

namespace OrderedChunkBuffer

def new (nextOffset : ℕ) : OrderedChunkBuffer := ⟨nextOffset, .empty⟩

def push (b : OrderedChunkBuffer) (chunk : SftpReadChunk) : OrderedChunkBuffer :=
  if chunk.data.isEmpty then b else { b with pending := b.pending.insert chunk.offset chunk.data }

def popReady (b : OrderedChunkBuffer) : Option (List UInt8 × OrderedChunkBuffer) :=
  (b.pending.get? b.nextOffset).map fun data => (data, ⟨b.nextOffset + data.length, b.pending.erase b.nextOffset⟩)

end OrderedChunkBuffer

/-! ## Reads -/

/-- `next_sftp_read_len`. -/
def nextSftpReadLen (fileSize offset maxLen : ℕ) : Option ℕ :=
  if 0 < fileSize then
    if fileSize ≤ offset then none else some (min maxLen (fileSize - offset))
  else some maxLen

/-- `short_read_gap`. -/
def shortReadGap (chunk : SftpReadChunk) (fileSize : ℕ) : Option (ℕ × ℕ) :=
  let actualLen := chunk.data.length
  if actualLen = 0 ∨ chunk.requestedLen ≤ actualLen then none
  else
    let gapOffset := chunk.offset + actualLen
    if 0 < fileSize ∧ fileSize ≤ gapOffset then none
    else
      let gapLen := chunk.requestedLen - actualLen
      let gapLen := if 0 < fileSize then min gapLen (fileSize - gapOffset) else gapLen
      if 0 < gapLen then some (gapOffset, gapLen) else none

/-- A call of `read_sftp_range` that is under way. -/
structure Read where
  offset : ℕ
  len : ℕ

/-- `max_read_len`, with what the limits extension says. -/
def maxReadLen : Option ℕ → ℕ
  | some n => if 0 < n then min bufSize n else bufSize
  | none => bufSize

/-- The file on the server, and what the server tells of it and of its limits. -/
structure Job where
  remote : List UInt8
  sizeKnown : Bool
  limits : Option ℕ

namespace Job

/-- `file_size`. -/
def fileSize (job : Job) : ℕ := if job.sizeKnown then job.remote.length else 0

def maxLen (job : Job) : ℕ := maxReadLen job.limits

/-- What a read brings when the server gives `k` bytes or the ones that are there, and nothing at the end of the file. -/
def answer (job : Job) (r : Read) (k : ℕ) : SftpReadChunk := ⟨r.offset, r.len, (job.remote.drop r.offset).take k⟩

end Job

/-! ## The part file -/

/-- `resume_offset`. -/
def resumeOffset (existingSize fileSize : ℕ) : ℕ := if 0 < existingSize ∧ 0 < fileSize ∧ existingSize ≤ fileSize then existingSize else 0

/-- The part file, when it has been opened. -/
def openPart (part : Option (List UInt8)) (fileSize : ℕ) : List UInt8 :=
  let existing := part.getD []
  if 0 < resumeOffset existing.length fileSize then existing else []

/-! ## The read loop -/

inductive Phase where
  | reading
  /-- `write_all` of a chunk, of which so much is written. -/
  | writing (data : List UInt8) (written : ℕ)
  | returned (ok : Bool)

inductive Action where
  /-- A read completes. -/
  | completes (i k : ℕ)
  | writes (n : ℕ)
  /-- The loop has ended. -/
  | closes
  /-- It is cancelled, times out, or an operation fails. -/
  | fails

structure Attempt where
  part : List UInt8
  bytesDownloaded : ℕ
  nextReadOffset : ℕ
  sawEof : Bool
  reads : List Read
  ordered : OrderedChunkBuffer
  phase : Phase

namespace Attempt

variable (job : Job)

/-- Begin reads, as many as there are slots for. -/
def fill : ℕ → Attempt → Attempt
  | 0, s => s
  | slots + 1, s =>
    match nextSftpReadLen job.fileSize s.nextReadOffset job.maxLen with
    | none => s
    | some len => fill slots { s with reads := s.reads ++ [⟨s.nextReadOffset, len⟩], nextReadOffset := s.nextReadOffset + len }

def refill (s : Attempt) : Attempt := if s.sawEof then s else fill job (sftpReadAhead - s.reads.length) s

/-- The loop begins with a part file. -/
def start (part : List UInt8) : Attempt := refill job ⟨part, part.length, part.length, false, [], .new part.length, .reading⟩

/-- The next chunk in order is written, or else new reads are begun. -/
def goOn (s : Attempt) : Attempt :=
  match s.ordered.popReady with
  | some (data, ordered) => { s with ordered := ordered, phase := .writing data 0 }
  | none => { refill job s with phase := .reading }

/-- What the loop does with a chunk. -/
def received (s : Attempt) (chunk : SftpReadChunk) : Attempt :=
  if chunk.data.isEmpty then refill job { s with sawEof := true }
  else
    goOn job
      { s with
        reads := s.reads ++ (shortReadGap chunk job.fileSize).toList.map fun gap => ⟨gap.1, gap.2⟩
        ordered := s.ordered.push chunk }

def step (s : Attempt) : Action → Option Attempt
  | .completes i k =>
    match s.phase, s.reads[i]? with
    | .reading, some r =>
      if 1 ≤ k ∧ k ≤ r.len % 2 ^ 32 then some (received job { s with reads := s.reads.eraseIdx i } (job.answer r k)) else none
    | _, _ => none
  | .writes n =>
    match s.phase with
    | .writing data written =>
      if 0 < n ∧ written + n ≤ data.length then
        let s := { s with part := s.part ++ (data.drop written).take n }
        if written + n = data.length then some (goOn job { s with bytesDownloaded := s.bytesDownloaded + data.length })
        else some { s with phase := .writing data (written + n) }
      else none
    | _ => none
  | .closes =>
    match s.phase, s.reads with
    | .reading, [] => some { s with phase := .returned (job.fileSize == 0 || s.bytesDownloaded == job.fileSize) }
    | _, _ => none
  | .fails =>
    match s.phase with
    | .returned _ => none
    | _ => some { s with phase := .returned false }

end Attempt

end Sftp

end Risuko
