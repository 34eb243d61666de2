import Risuko.Ed2k.Chunks
import Risuko.Lib.Disk
import Risuko.Lib.Reach

/-!
# Peers writing and verifying parts

What the sessions of the peers make of the shared `ChunkManager` and of the part file: a call of `write_block` has its ticket, writes
piece by piece without the lock and commits under it, and a job of `verify_ready_parts` reads its part piece by piece. A step is one section
under the lock or one access of the file, of any peer. The second half is about run after run of the download in one directory.
-/

namespace Risuko

namespace Ed2k

/-- A call of `write_block` that has a ticket. -/
structure Write where
  peer : ℕ
  ticket : WriteTicket
  data : List UInt8
  /-- How much of the data is in the file. -/
  written : ℕ
  /-- Whether `commit_write` was called. -/
  committed : Bool

/-- A job of `verify_ready_parts`, with what it has read. -/
structure Hashing where
  job : VerifyJob
  read : List UInt8

/-- What a peer sent. -/
structure Packet where
  peer : ℕ
  offset : ℕ
  data : List UInt8
  deriving DecidableEq

/-- The state that the peers share. `sent` records a run. -/
structure Transfer where
  chunks : ChunkManager
  disk : List UInt8
  writes : List Write
  hashings : List Hashing
  sent : List Packet

namespace Transfer

/-- What happens next. Writes and jobs go by their places in the lists. -/
inductive Action where
  | assign (peer : ℕ) (peerParts : List Bool) (max : ℕ)
  | release (peer : ℕ)
  | hashes (hashes : List Digest)
  | begin (peer offset : ℕ) (data : List UInt8)
  /-- At most `n` bytes more get into the file. -/
  | write (i n : ℕ)
  | commit (i : ℕ)
  | drop (i : ℕ)
  | takeJobs
  | read (j n : ℕ)
  | finish (j : ℕ)
  /-- `hash_part_from_disk` fails. -/
  | readFailed (j : ℕ)

/-- A peer sends data: `begin_write` of `write_block`. -/
def begin (s : Transfer) (peer offset : ℕ) (data : List UInt8) : Transfer :=
  let s : Transfer := { s with sent := s.sent ++ [⟨peer, offset, data⟩] }
  match s.chunks.beginWrite peer offset data.length with
  | .error _ | .ok (none, _) => s
  | .ok (some ticket, chunks) => { s with chunks := chunks, writes := s.writes ++ [⟨peer, ticket, data, 0, false⟩] }

/-- A step of `write_all_at`. -/
def write (s : Transfer) (i : ℕ) (w : Write) (n : ℕ) : Transfer :=
  { s with
    disk := writeBytes s.disk (w.ticket.offset + w.written) ((w.data.drop w.written).take n)
    writes := s.writes.set i { w with written := min (w.written + n) w.data.length } }

def finish (s : Transfer) (j : ℕ) (h : Hashing) (ok : Bool) : Transfer :=
  { s with chunks := s.chunks.finishVerify h.job.index ok, hashings := s.hashings.eraseIdx j }

variable (md4 : List UInt8 → Digest)

def step (s : Transfer) : Action → Option Transfer
  | .assign peer peerParts max => some { s with chunks := (s.chunks.assignBlocks peer peerParts max).2 }
  | .release peer => some { s with chunks := s.chunks.releasePeer peer }
  | .hashes hashes => some { s with chunks := (s.chunks.setChunkHashes md4 hashes).2 }
  | .begin peer offset data => some (s.begin peer offset data)
  | .write i n => s.writes[i]?.bind fun w => if w.committed then none else some (s.write i w n)
  | .commit i =>
    s.writes[i]?.bind fun w =>
      if w.committed = false ∧ w.written = w.data.length then
        some { s with chunks := (s.chunks.commitWrite w.peer w.ticket).2, writes := s.writes.set i { w with committed := true } }
      else none
  | .drop i => s.writes[i]?.map fun w => { s with chunks := s.chunks.dropTicket w.ticket, writes := s.writes.eraseIdx i }
  | .takeJobs =>
    let (jobs, chunks) := s.chunks.takeVerifyJobs
    some { s with chunks := chunks, hashings := s.hashings ++ jobs.map fun job => ⟨job, []⟩ }
  | .read j n =>
    s.hashings[j]?.bind fun h =>
      let piece := (s.disk.drop (h.job.start + h.read.length)).take (min n (h.job.stop - h.job.start - h.read.length))
      some { s with hashings := s.hashings.set j { h with read := h.read ++ piece } }
  | .finish j =>
    s.hashings[j]?.bind fun h =>
      if h.read.length = h.job.stop - h.job.start then some (s.finish j h (md4 h.read == h.job.expected)) else none
  | .readFailed j => s.hashings[j]?.map fun h => s.finish j h false

/-- A run starts with a new manager with any parts restored, and with a part file of the right length. -/
structure Initial (s : Transfer) : Prop where
  chunks : ∃ fileSize fileHash restored,
    s.chunks = { List.foldl ChunkManager.restoreVerified (.new fileSize fileHash) restored with file := true }
  disk : s.disk.length = s.chunks.fileSize
  writes : s.writes = []
  hashings : s.hashings = []
  sent : s.sent = []

def Reachable : Transfer → Prop := Reach Initial (fun s s' => ∃ a, s.step md4 a = some s')

end Transfer

/-!
## Runs of a download in one directory

What `run_download` makes of a part file and a sidecar, run after run. A run restores what the sidecar claims, as far as the file bears it
out, then lets the peers at the rest, and returns when every part is there. It ends at any other point by a cancel, an error or a crash. Writes that its
peers had begun go on when the run has ended, unless the program has.
-/

/-- What is left to do of a write whose run has ended. -/
structure LateWrite where
  offset : ℕ
  data : List UInt8
  deriving DecidableEq

inductive Phase where
  | idle
  /-- The jobs of `restore_verified_parts` that are left, the first with what it has read. -/
  | restoring (jobs : List Hashing)
  | active
  /-- `run_download` has returned `Ok`. -/
  | returned

/-- The part file is the disk of the transfer, also between the runs. -/
structure Directory where
  /-- The link of the run, or of the last one. -/
  link : Ed2kFileLink
  transfer : Transfer
  late : List LateWrite
  phase : Phase

namespace Directory

inductive Action where
  /-- A run begins with what the sidecar holds. It removes a part file that is not that of the link, if it can. -/
  | start (link : Ed2kFileLink) (sidecar : Option Met) (removable : Bool)
  | readPart (n : ℕ)
  | checkPart
  /-- The part cannot be read. -/
  | skipPart
  /-- The peers start, when the jobs are done or the run is cancelled. -/
  | begin
  | peers (a : Transfer.Action)
  /-- `is_complete` holds. -/
  | complete
  /-- The run ends otherwise, or the file that it returned is finalized. -/
  | stop (finalized : Bool)
  | late (i n : ℕ)
  /-- The program ends, and leaves what it leaves. -/
  | crash (file : List UInt8)

/-- `set_len`. -/
def setLen (file : List UInt8) (n : ℕ) : List UInt8 := file.take n ++ List.replicate (n - file.length) 0

variable (md4 : List UInt8 → Digest)

/-- The run up to the jobs of `restore_verified_parts`. -/
def start (s : Directory) (link : Ed2kFileLink) (sidecar : Option Met) (removable : Bool) : Directory :=
  let met := loadMet sidecar link
  let removed := met.isNone && removable
  let chunks : ChunkManager := { ChunkManager.new link.fileSize link.fileHash with file := true }
  let chunks := ((met.bind Met.decodedHashset).map fun hashes => (chunks.setChunkHashes md4 hashes).2).getD chunks
  let jobs := ((met.map fun met => chunks.restoreJobs met.verified).getD []).map fun job => ⟨job, []⟩
  { link := link
    transfer := ⟨chunks, setLen (if removed then [] else s.transfer.disk) link.fileSize, [], [], []⟩
    late := if removed then [] else s.late
    phase := .restoring jobs }

/-- What goes on of a write when its run has ended. -/
def lateOf (w : Write) : LateWrite := ⟨w.ticket.offset + w.written, w.data.drop w.written⟩

/-- A part is restored if it has the digest that is expected. -/
def check (s : Directory) (h : Hashing) (rest : List Hashing) : Directory :=
  { s with
    transfer := if md4 h.read = h.job.expected then
      { s.transfer with chunks := s.transfer.chunks.restoreVerified h.job.index } else s.transfer
    phase := .restoring rest }

/-- The run ends, and the peers with it. -/
def ended (s : Directory) : Directory :=
  { s with
    transfer := { s.transfer with writes := [], hashings := [] }
    late := s.late ++ s.transfer.writes.map lateOf
    phase := .idle }

/-- Whatever was under way is gone, and there is another file. -/
def replaced (s : Directory) (file : List UInt8) : Directory :=
  { s with transfer := { s.transfer with disk := file, writes := [], hashings := [] }, late := [], phase := .idle }

def step (s : Directory) : Action → Option Directory
  | .start link sidecar removable =>
    match s.phase with
    | .idle => some (s.start md4 link sidecar removable)
    | _ => none
  | .readPart n =>
    match s.phase with
    | .restoring (h :: rest) =>
      let piece := (s.transfer.disk.drop (h.job.start + h.read.length)).take (min n (h.job.stop - h.job.start - h.read.length))
      some { s with phase := .restoring ({ h with read := h.read ++ piece } :: rest) }
    | _ => none
  | .checkPart =>
    match s.phase with
    | .restoring (h :: rest) => if h.read.length = h.job.stop - h.job.start then some (s.check md4 h rest) else none
    | _ => none
  | .skipPart =>
    match s.phase with
    | .restoring (_ :: rest) => some { s with phase := .restoring rest }
    | _ => none
  | .begin =>
    match s.phase with
    | .restoring _ => some { s with phase := .active }
    | _ => none
  | .peers a =>
    match s.phase with
    | .active => (s.transfer.step md4 a).map fun t => { s with transfer := t }
    | _ => none
  | .complete =>
    match s.phase with
    | .active => if s.transfer.chunks.isComplete then some { s with phase := .returned } else none
    | _ => none
  | .stop finalized =>
    match s.phase with
    | .idle => none
    | .returned => some (if finalized then s.replaced [] else s.ended)
    | _ => some s.ended
  | .late i n =>
    s.late[i]?.map fun w =>
      { s with
        transfer := { s.transfer with disk := writeBytes s.transfer.disk w.offset (w.data.take n) }
        late := s.late.set i ⟨w.offset + n, w.data.drop n⟩ }
  | .crash file => some (s.replaced file)

/-- No run is under way. The part file and what is left of old writes may be anything. -/
def Initial (s : Directory) : Prop := s.phase matches .idle

/-- A run has begun, and has not ended. -/
def running (s : Directory) : Bool := s.phase matches .restoring _ | .active

def Reachable : Directory → Prop := Reach Initial fun s s' => ∃ a, s.step md4 a = some s'

end Directory

end Ed2k

end Risuko
