import Risuko.Lib.Disk
import Risuko.Storage.FileSet

/-!
# The file system storage

`FilesystemStorage` of `storage.rs`. A file that is not selected has its bytes in a shadow, a part file in a directory of its
own; when it is selected again `promote_file` moves them to the real file. Handles of both kinds are cached.

The operations run one after the other. Calls of the file system do not fail where they can succeed, except that the removal of
a shadow, whose result the source ignores, may or may not take place. The read cache is not part of `read_owned`.
-/

namespace Risuko

def maxOpenHandles : Nat := 64

/-- The two places a file's bytes can be in. -/
inductive Store where
  | real
  | shadow
deriving DecidableEq

/-- A path: of the file with an index, or of its part file. -/
abbrev Place := Store × Nat

structure HandleSlot where
  file : Nat
  writable : Bool
  used : Nat

/-- A handle cache: a slot for each file. -/
abbrev HandleCache := List (Option HandleSlot)

inductive StorageError where
  | io
  | outOfRange (offset total : Nat)
deriving DecidableEq

/-- The storage and the disk it is on. `handles` holds both caches, `partsDir` says whether there is a directory for shadows, and
`tick` is the counter behind `next_tick`. -/
structure FilesystemStorage where
  layout : FileSet
  pieceLength : Nat
  partsDir : Bool
  shadowed : List Bool
  handles : Store → HandleCache
  unsynced : Finset Place
  dirty : Bool
  tick : Nat
  disk : Disk Place

/-- `boundary_ranges`. -/
def boundaryRanges (offset length pieceLength : Nat) : List (Nat × Nat) :=
  if length = 0 ∨ pieceLength = 0 then []
  else
    let firstEnd := min (pieceLength - offset % pieceLength) length
    let lastStart := (offset + length - 1) / pieceLength * pieceLength - offset
    if lastStart ≤ firstEnd then [(0, length)] else [(0, firstEnd), (lastStart, length - lastStart)]

/-- `evict_lru`: the slots, and the indices of the writable handles that went. -/
def evictLru (slots : HandleCache) (keep : Nat) : HandleCache × List Nat :=
  if slots.length ≤ maxOpenHandles then (slots, [])
  else
    let opened := slots.countP Option.isSome
    if opened ≤ maxOpenHandles then (slots, [])
    else
      let byAge := ((slots.zipIdx.filterMap (fun e => if e.2 == keep then none else e.1.map (fun slot => (slot.used, e.2)))).mergeSort
        (fun a b => a.1 < b.1 || (a.1 == b.1 && decide (a.2 ≤ b.2)))).take (opened - maxOpenHandles)
      (byAge.foldl (fun slots e => slots.set e.2 none) slots,
        (byAge.map Prod.snd).filter (fun i => (slots[i]?.join.elim false HandleSlot.writable)))

namespace FilesystemStorage

/-- `FilesystemStorage::new`, with or without a directory for shadows, on a disk. -/
def new (layout : FileSet) (pieceLength : Nat) (partsDir : Bool) (disk : Disk Place) : FilesystemStorage :=
  { layout := layout
    pieceLength := pieceLength
    partsDir := partsDir
    shadowed := List.replicate layout.files.length false
    handles := fun _ => List.replicate layout.files.length none
    unsynced := ∅
    dirty := false
    tick := 0
    disk := disk }

/-- `is_shadowed`. -/
def isShadowed (s : FilesystemStorage) (idx : Nat) : Bool := s.shadowed[idx]?.getD false

/-- The part of `open_cached` after the file was opened: it takes the slot, and old handles may go. -/
def cacheHandle (s : FilesystemStorage) (place : Place) (write : Bool) (file : Nat) : FilesystemStorage :=
  let evicted := evictLru ((s.handles place.1).set place.2 (some { file := file, writable := write, used := s.tick })) place.2
  { s with
    handles := Function.update s.handles place.1 evicted.1
    unsynced := s.unsynced ∪ (evicted.2.map (fun i => (place.1, i))).toFinset
    tick := s.tick + 1 }

/-- The part of `open_cached` that opens the file: writing creates it, reading fails without it. -/
def openFile (s : FilesystemStorage) (place : Place) (write : Bool) : Except StorageError (FilesystemStorage × Nat) :=
  if write then
    let opened := s.disk.openWrite place
    .ok ({ s with disk := opened.1 }.cacheHandle place true opened.2, opened.2)
  else
    match s.disk.links place with
    | none => .error .io
    | some file => .ok (s.cacheHandle place false file, file)

/-- `open_cached`. -/
def openCached (s : FilesystemStorage) (place : Place) (write : Bool) : Except StorageError (FilesystemStorage × Nat) :=
  match (s.handles place.1)[place.2]?.join with
  | some slot =>
    if slot.writable || !write then
      .ok ({ s with
        handles := Function.update s.handles place.1 ((s.handles place.1).set place.2 (some { slot with used := s.tick }))
        tick := s.tick + 1 }, slot.file)
    else s.openFile place write
  | none => s.openFile place write

/-- Where the bytes of a file are: in its shadow while it is shadowed and there is a directory for shadows. -/
def home (s : FilesystemStorage) (idx : Nat) : Place := if s.isShadowed idx && s.partsDir then (.shadow, idx) else (.real, idx)

/-- `span_handle`. -/
def spanHandle (s : FilesystemStorage) (idx : Nat) (write : Bool) : Except StorageError (FilesystemStorage × Nat) :=
  s.openCached (s.home idx) write

/-- One read or write of a file: the handle, the offset in the file, the position in the buffer and the length. -/
structure Job where
  file : Nat
  fileOffset : Nat
  cursor : Nat
  len : Nat

/-- The loop over the spans that `read_owned` and `write_at_owned` share: a handle for each span outside padding. -/
def collectJobs (s : FilesystemStorage) (write : Bool) : List Span → Nat → Except StorageError (FilesystemStorage × List Job)
  | [], _ => .ok (s, [])
  | span :: rest, cursor =>
    if s.layout.isPadding span.fileIndex then s.collectJobs write rest (cursor + span.len)
    else
      match s.spanHandle span.fileIndex write with
      | .error e => .error e
      | .ok (s, file) =>
        match s.collectJobs write rest (cursor + span.len) with
        | .error e => .error e
        | .ok (s, jobs) => .ok (s, { file := file, fileOffset := span.fileOffset, cursor := cursor, len := span.len } :: jobs)

/-- The writes of `write_at_owned`. -/
def writeJobs (disk : Disk Place) (data : List UInt8) (jobs : List Job) : Disk Place :=
  jobs.foldl (fun disk job => disk.pwriteAll job.file job.fileOffset ((data.drop job.cursor).take job.len)) disk

/-- The reads of `read_owned`, into a buffer. -/
def readJobs (disk : Disk Place) : List Job → List UInt8 → Except StorageError (List UInt8)
  | [], out => .ok out
  | job :: rest, out =>
    match disk.preadExact job.file job.fileOffset job.len with
    | none => .error .io
    | some bytes => readJobs disk rest (overwrite out job.cursor bytes)

/-- The range check of `read_owned` and `write_at_owned`; sums past 64 bits fail as well. -/
def inRange (s : FilesystemStorage) (offset len : Nat) : Bool :=
  decide (offset + len < 2 ^ 64) && decide (offset + len ≤ s.layout.totalLength)

/-- `write_at_owned`. -/
def writeAtOwned (s : FilesystemStorage) (offset : Nat) (data : List UInt8) : Except StorageError FilesystemStorage :=
  if !s.inRange offset data.length then .error (.outOfRange offset s.layout.totalLength)
  else
    match s.collectJobs true (s.layout.spansFor offset data.length) 0 with
    | .error e => .error e
    | .ok (s, jobs) => if jobs.isEmpty then .ok s else .ok { s with dirty := true, disk := writeJobs s.disk data jobs }

/-- `read_owned`. -/
def readOwned (s : FilesystemStorage) (offset len : Nat) : Except StorageError (FilesystemStorage × List UInt8) :=
  if !s.inRange offset len then .error (.outOfRange offset s.layout.totalLength)
  else
    match s.collectJobs false (s.layout.spansFor offset len) 0 with
    | .error e => .error e
    | .ok (s, jobs) =>
      match readJobs s.disk jobs (List.replicate len 0) with
      | .error e => .error e
      | .ok out => .ok (s, out)

/-- Whether `set_selection` shadows a file: it has bytes, none of them on disk yet, and it is not selected or has a shadow. -/
def becomesShadowed (s : FilesystemStorage) (selected : Option (Finset Nat)) (idx : Nat) (f : FileInfo) : Bool :=
  !f.padding && decide (0 < f.length) && !s.isShadowed idx && (s.disk.links (.real, idx)).isNone &&
    (selected.elim false (fun set => decide (idx ∉ set)) || (s.disk.links (.shadow, idx)).isSome)

/-- `set_selection`: the storage, and the files to promote. -/
def setSelection (s : FilesystemStorage) (selected : Option (Finset Nat)) : FilesystemStorage × List Nat :=
  if !s.partsDir then (s, [])
  else
    let shadowed := s.shadowed.zipIdx.map (fun e => e.1 || s.layout.files[e.2]?.elim false (s.becomesShadowed selected e.2))
    ({ s with shadowed := shadowed },
      (shadowed.zipIdx.filter (fun e => e.1 && selected.elim true (fun set => decide (e.2 ∈ set)))).map Prod.snd)

/-- The loop of `promote_file` that copies each range, as far as the shadow goes. -/
def copyRanges (shadow real shadowLen : Nat) (ranges : List (Nat × Nat)) (disk : Disk Place) : Disk Place :=
  ranges.foldl (fun disk r =>
    let stop := min (r.1 + r.2) shadowLen
    if stop ≤ r.1 then disk
    else disk.pwriteAll real r.1 ((disk.preadExact shadow r.1 (stop - r.1)).getD [])) disk

/-- The copy in `promote_file`: nothing to do without a shadow. -/
def copyShadow (disk : Disk Place) (idx real : Nat) (ranges : List (Nat × Nat)) : Disk Place :=
  match disk.links (.shadow, idx) with
  | none => disk
  | some shadow => copyRanges shadow real (disk.contents shadow).length ranges disk

/-- `promote_file`. `removed` says whether the removal of the shadow took place. -/
def promoteFile (s : FilesystemStorage) (idx : Nat) (removed : Bool) : Except StorageError FilesystemStorage :=
  if !s.isShadowed idx || !s.partsDir then .ok s
  else
    match s.layout.files[idx]? with
    | none => .ok s
    | some f =>
      match s.openCached (.real, idx) true with
      | .error e => .error e
      | .ok (s, real) =>
        let disk := copyShadow s.disk idx real (boundaryRanges f.offset f.length s.pieceLength)
        .ok { s with
          dirty := true
          shadowed := s.shadowed.set idx false
          handles := Function.update s.handles .shadow ((s.handles .shadow).set idx none)
          disk := if removed then disk.remove (.shadow, idx) else disk }

/-- `close_handles`: every handle is closed; what was written is flushed, which changes no byte. -/
def closeHandles (s : FilesystemStorage) : FilesystemStorage :=
  let clean := (s.handles .real ++ s.handles .shadow).all Option.isNone && decide (s.unsynced = ∅)
  { s with
    handles := fun store => (s.handles store).map (fun _ => none)
    unsynced := ∅
    dirty := if clean then s.dirty else false }

end FilesystemStorage

end Risuko
