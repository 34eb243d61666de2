import Mathlib.Data.Finset.Sort
import Mathlib.Data.String.Basic

/-!
# Parity files

What `usenet_par2.rs` does with the parity files of a download: it inverts the decode matrix, checks and indexes the packets, and puts the repaired
files in their places.
-/

namespace Risuko

namespace Usenet

inductive Par2Error where
  | missingParity
  | malformed (message : String)
  | unsafePath (path : String)
  | limits (message : String)
  | insufficientRecovery (needed available : UInt32)
  | cancelled
  | repair (message : String)
  | io (error : String)
  deriving DecidableEq

/-!
## Inverting a decode matrix

`invert_matrix_with_cancel` of `usenet_par2.rs`. The multiplication and the inverse of `rust_par2::gf` are parameters.
-/

/-- `rust_par2::matrix::GfMatrix`. -/
structure GfMatrix where
  rows : ℕ
  cols : ℕ
  get : ℕ → ℕ → UInt16

namespace GfMatrix

def zeros (rows cols : ℕ) : GfMatrix := ⟨rows, cols, fun _ _ => 0⟩

def set (a : GfMatrix) (row column : ℕ) (value : UInt16) : GfMatrix :=
  { a with get := fun i j => if i = row ∧ j = column then value else a.get i j }

variable (mul : UInt16 → UInt16 → UInt16) (inv : UInt16 → UInt16)

/-- The matrix beside the identity. -/
def augment (matrix : GfMatrix) : GfMatrix :=
  let size := matrix.rows
  (List.range size).foldl (fun a row =>
    ((List.range size).foldl (fun a column => a.set row column (matrix.get row column)) a).set row (size + row) 1) (zeros size (size * 2))

/-- The first row from the column on that is not zero there. -/
def findPivot (a : GfMatrix) (column size : ℕ) : Option ℕ := (List.range' column (size - column)).find? fun row => a.get row column ≠ 0

/-- Two rows change places. -/
def swapRows (a : GfMatrix) (column pivot width : ℕ) : GfMatrix :=
  (List.range width).foldl (fun a index =>
    let value := a.get column index
    (a.set column index (a.get pivot index)).set pivot index value) a

/-- The row of the pivot is divided by it. -/
def normalise (a : GfMatrix) (column width : ℕ) (inverse : UInt16) : GfMatrix :=
  (List.range width).foldl (fun a index => a.set column index (mul (a.get column index) inverse)) a

/-- A multiple of the row of the pivot is added to a row. -/
def addRow (a : GfMatrix) (column row width : ℕ) (factor : UInt16) : GfMatrix :=
  (List.range width).foldl (fun a index =>
    let value := mul factor (a.get column index)
    a.set row index (a.get row index ^^^ value)) a

/-- The other rows are made zero in the column. -/
def eliminate (a : GfMatrix) (column size : ℕ) : GfMatrix :=
  (List.range size).foldl (fun a row =>
    if row = column then a
    else
      let factor := a.get row column
      if factor = 0 then a else addRow mul a column row (size * 2) factor) a

/-- What the loop does for one column. -/
def reduceColumn (cancelled : ℕ → Bool) (size : ℕ) (a : GfMatrix) (column : ℕ) : Except Par2Error GfMatrix :=
  if cancelled column then .error .cancelled
  else
    match findPivot a column size with
    | none => .error (.repair "Decode matrix is singular")
    | some pivot =>
      let a := if pivot ≠ column then swapRows a column pivot (size * 2) else a
      let inverse := inv (a.get column column)
      let a := normalise mul a column (size * 2) inverse
      .ok (eliminate mul a column size)

/-- `invert_matrix_with_cancel`. `cancelled` tells whether the token is cancelled when a column begins. -/
def invertMatrixWithCancel (matrix : GfMatrix) (cancelled : ℕ → Bool) : Except Par2Error GfMatrix :=
  if matrix.rows ≠ matrix.cols then .error (.repair "Decode matrix is not square")
  else
    let size := matrix.rows
    match (List.range size).foldlM (reduceColumn mul inv cancelled size) (augment matrix) with
    | .error e => .error e
    | .ok a =>
      .ok ((List.range size).foldl (fun inverse row =>
        (List.range size).foldl (fun inverse column => inverse.set row column (a.get row (size + column))) inverse) (zeros size size))

end GfMatrix

/-!
## The packets of a parity file

`validate_par2_packets` and `index_recovery_packets` of `usenet_par2.rs`. The MD5 is a parameter. Both loops also return where they have looked for a
packet (`starts`), which nothing reads.
-/

/-- A little-endian number. -/
def fromLe (bytes : List UInt8) : ℕ := bytes.foldr (fun b n => b.toNat + 256 * n) 0

/-- The lowest `k` bytes of a number, little-endian. -/
def toLe : ℕ → ℕ → List UInt8
  | 0, _ => []
  | k + 1, n => UInt8.ofNat n :: toLe k (n / 256)

def ascii (text : String) : List UInt8 := text.toList.map fun c => UInt8.ofNat c.toNat

/-- `PAR2_MAGIC`. -/
def par2Magic : List UInt8 := ascii "PAR2\x00PKT"

/-- `PAR2_HEADER_BYTES`. -/
def par2HeaderBytes : ℕ := 64

/-- `PAR2_TYPE_MAIN`. -/
def par2TypeMain : List UInt8 := ascii "PAR 2.0\x00Main\x00\x00\x00\x00"

/-- `PAR2_TYPE_FILE_DESC`. -/
def par2TypeFileDesc : List UInt8 := ascii "PAR 2.0\x00FileDesc"

/-- `PAR2_TYPE_IFSC`. -/
def par2TypeIfsc : List UInt8 := ascii "PAR 2.0\x00IFSC\x00\x00\x00\x00"

/-- `PAR2_TYPE_RECOVERY`. -/
def par2TypeRecovery : List UInt8 := ascii "PAR 2.0\x00RecvSlic"

/-- `MAX_PAR2_PACKET_COUNT`. -/
def maxPar2PacketCount : ℕ := 100000

/-- `MAX_PAR2_SLICE_BYTES`. -/
def maxPar2SliceBytes : ℕ := 64 * 1024 * 1024

/-- `MAX_PAR2_METADATA_PACKET_BYTES`. -/
def maxPar2MetadataPacketBytes : ℕ := 8 * 1024 * 1024

/-- `MAX_PAR2_SOURCE_BLOCKS`. -/
def maxPar2SourceBlocks : ℕ := 65535

/-- `MAX_PAR2_SOURCE_FILES`. -/
def maxPar2SourceFiles : ℕ := 65535

/-- `metadata_memory_limit`. -/
def metadataMemoryLimit (android : Bool) : ℕ := if android then 16 * 1024 * 1024 else 64 * 1024 * 1024

/-- What `validate_file_set` asks of the slice size. -/
def sliceSizeAccepted (sliceSize : ℕ) : Bool := !(sliceSize = 0 || maxPar2SliceBytes < sliceSize || sliceSize % 2 ≠ 0)

structure ParityFileStats where
  packets : ℕ
  recoveryBlocks : ℕ
  metadataBytes : ℕ
  sourceFileDescriptors : ℕ
  sourceBlocks : ℕ
  deriving DecidableEq

namespace ParityFileStats

/-- `default`. -/
def zero : ParityFileStats := ⟨0, 0, 0, 0, 0⟩

end ParityFileStats

/-- `checked_add` with the error of an overflow. -/
def checkedAdd (a b : ℕ) (message : String) : Except Par2Error ℕ := if a + b < 2 ^ 64 then .ok (a + b) else .error (.limits message)

/-- What `validate_par2_packets` checks of the body of a packet, and counts. -/
def countPacket (path : String) (metadataLimit : ℕ) (kind body : List UInt8) (stats : ParityFileStats) : Except Par2Error ParityFileStats :=
  let packetLen := body.length + par2HeaderBytes
  if kind = par2TypeRecovery then
    if body.length < 4 then .error (.malformed s!"{path} contains a truncated PAR2 recovery packet")
    else do
      let recoveryBlocks ← checkedAdd stats.recoveryBlocks 1 "PAR2 recovery block count overflowed"
      return { stats with recoveryBlocks := recoveryBlocks }
  else if maxPar2MetadataPacketBytes < packetLen then .error (.limits s!"{path} contains an oversized PAR2 metadata packet")
  else do
    let metadataBytes ← checkedAdd stats.metadataBytes packetLen "PAR2 metadata byte count overflowed"
    let stats := { stats with metadataBytes := metadataBytes }
    if metadataLimit < metadataBytes then .error (.limits s!"{path} contains too much PAR2 metadata")
    else if kind = par2TypeFileDesc then
      if body.length < 56 then .error (.malformed s!"{path} contains a truncated PAR2 file description")
      else do
        let files ← checkedAdd stats.sourceFileDescriptors 1 "PAR2 source file count overflowed"
        if maxPar2SourceFiles < files then .error (.limits "PAR2 source set has too many files for in-process repair")
        else return { stats with sourceFileDescriptors := files }
    else if kind = par2TypeIfsc then
      if body.length < 16 ∨ (body.length - 16) % 20 ≠ 0 then .error (.malformed s!"{path} contains malformed PAR2 slice checksums")
      else do
        let blocks ← checkedAdd stats.sourceBlocks ((body.length - 16) / 20) "PAR2 source block count overflowed"
        if maxPar2SourceBlocks < blocks then .error (.limits "PAR2 source set has too many blocks for in-process repair")
        else return { stats with sourceBlocks := blocks }
    else if kind = par2TypeMain then
      if body.length < 12 then .error (.malformed s!"{path} contains a truncated PAR2 main packet")
      else
        -- A `u32`: neither the product nor the sum overflows.
        let sourceFiles := fromLe ((body.drop 8).take 4)
        if maxPar2SourceFiles < sourceFiles ∨ body.length ≠ 12 + sourceFiles * 16 then
          .error (.malformed s!"{path} contains an invalid PAR2 main packet file order")
        else return stats
    else return stats

/-- The loop of `validate_par2_packets`, over what is left of the file. -/
def validateLoop (md5 : List UInt8 → List UInt8) (path : String) (metadataLimit position : ℕ) (rest : List UInt8) (recoverySetId : Option (List UInt8))
    (stats : ParityFileStats) (starts : List ℕ) : Except Par2Error (ParityFileStats × List ℕ) :=
  if rest = [] then .ok (stats, starts)
  else if rest.length < par2HeaderBytes then .error (.malformed s!"{path} ends in a truncated packet header")
  else
    let packetLen := fromLe ((rest.drop 8).take 8)
    if rest.take 8 ≠ par2Magic ∨ packetLen < par2HeaderBytes ∨ packetLen % 4 ≠ 0 ∨ rest.length < packetLen ∨
        maxPar2SliceBytes + par2HeaderBytes < packetLen then
      .error (.malformed s!"{path} contains an invalid PAR2 packet length")
    else
      let packet := rest.take packetLen
      let packetSetId := (packet.drop 32).take 16
      if recoverySetId.any (· ≠ packetSetId) then .error (.malformed s!"{path} mixes PAR2 recovery set IDs")
      else
        match countPacket path metadataLimit ((packet.drop 48).take 16) (packet.drop par2HeaderBytes) stats with
        | .error e => .error e
        | .ok stats =>
          if md5 (packet.drop 32) ≠ (packet.drop 16).take 16 then .error (.malformed s!"{path} contains a PAR2 packet with an invalid MD5")
          else
            let stats := { stats with packets := stats.packets + 1 }
            if maxPar2PacketCount < stats.packets then .error (.limits "too many PAR2 packets")
            else validateLoop md5 path metadataLimit (position + packetLen) (rest.drop packetLen) (some packetSetId) stats (starts ++ [position])
termination_by rest.length
decreasing_by
  rw [List.length_drop]
  simp only [par2HeaderBytes] at *
  omega

/-- `validate_par2_packets`. -/
def validatePar2Packets (md5 : List UInt8 → List UInt8) (path : String) (metadataLimit : ℕ) (file : List UInt8) :
    Except Par2Error (ParityFileStats × List ℕ) :=
  if file.length < par2HeaderBytes then .error (.malformed s!"{path} is smaller than one PAR2 packet")
  else validateLoop md5 path metadataLimit 0 file none .zero []

/-- Where the slice of an exponent is: the file, and the offset in it. -/
abbrev RecoveryIndex := ℕ → Option (ℕ × ℕ)

/-- `entry(..).or_insert(..)`. -/
def RecoveryIndex.orInsert (index : RecoveryIndex) (exponent : ℕ) (place : ℕ × ℕ) : RecoveryIndex :=
  fun e => if e = exponent then some ((index e).getD place) else index e

/-- The loop of `index_recovery_packets` over one file. -/
def indexLoop (setId : List UInt8) (sliceSize pathIndex fileSize position : ℕ) (rest : List UInt8) (index : RecoveryIndex) (starts : List ℕ) :
    Except Par2Error (RecoveryIndex × List ℕ) :=
  if fileSize < (position + par2HeaderBytes) % 2 ^ 64 then .ok (index, starts)
  else if 2 ^ 63 ≤ position then .error (.io "Invalid argument")
  else if rest.length < par2HeaderBytes then .ok (index, starts)
  else
    let packetLength := fromLe ((rest.drop 8).take 8)
    if rest.take 8 ≠ par2Magic ∨ packetLength < par2HeaderBytes ∨ packetLength % 4 ≠ 0 then
      indexLoop setId sliceSize pathIndex fileSize (min (position + 4) (2 ^ 64 - 1)) (rest.drop 4) index (starts ++ [position])
    else
      let next := min (position + packetLength) (2 ^ 64 - 1)
      if (rest.drop 32).take 16 ≠ setId ∨ (rest.drop 48).take 16 ≠ par2TypeRecovery then
        indexLoop setId sliceSize pathIndex fileSize next (rest.drop packetLength) index (starts ++ [position])
      else if min (4 + sliceSize) (2 ^ 64 - 1) ≤ packetLength - par2HeaderBytes then
        let exponent := (rest.drop par2HeaderBytes).take 4
        if exponent.length < 4 then .error (.io "failed to fill whole buffer")
        else
          indexLoop setId sliceSize pathIndex fileSize next (rest.drop packetLength)
            (index.orInsert (fromLe exponent) (pathIndex, position + par2HeaderBytes + 4)) (starts ++ [position])
      else indexLoop setId sliceSize pathIndex fileSize next (rest.drop packetLength) index (starts ++ [position])
termination_by rest.length
decreasing_by
  all_goals
    rw [List.length_drop]
    simp only [par2HeaderBytes] at *
    omega

/-- What `index_recovery_packets` does for one file. -/
def indexFile (setId : List UInt8) (sliceSize pathIndex : ℕ) (file : List UInt8) (index : RecoveryIndex) : Except Par2Error (RecoveryIndex × List ℕ) :=
  indexLoop setId sliceSize pathIndex file.length 0 file index []

/-- `index_recovery_packets`, of the contents of the parity files in the order of their paths. -/
def indexRecoveryPackets (setId : List UInt8) (sliceSize : ℕ) (files : List (List UInt8)) : Except Par2Error RecoveryIndex :=
  files.zipIdx.foldlM (fun index file => (indexFile setId sliceSize file.2 file.1 index).map Prod.fst) fun _ => none

/-! ### The format -/

structure Packet where
  setId : List UInt8
  kind : List UInt8
  body : List UInt8

namespace Packet

def length (p : Packet) : ℕ := par2HeaderBytes + p.body.length

/-- What the MD5 is of. -/
def content (p : Packet) : List UInt8 := p.setId ++ (p.kind ++ p.body)

/-- A packet as it stands in the file. -/
def encode (md5 : List UInt8 → List UInt8) (p : Packet) : List UInt8 := par2Magic ++ (toLe 8 p.length ++ (md5 p.content ++ p.content))

/-- The exponent of a recovery packet. -/
def exponent (p : Packet) : ℕ := fromLe (p.body.take 4)

/-- The number of files in the recovery set that a main packet tells. -/
def sourceFiles (p : Packet) : ℕ := fromLe ((p.body.drop 8).take 4)

/-- A packet whose fields have their lengths. -/
structure Sized (p : Packet) : Prop where
  setId : p.setId.length = 16
  kind : p.kind.length = 16
  length : p.length < 2 ^ 64

/-- A packet of a recovery set with this slice size, as the format has it. Behind the files of the recovery set a main packet may list others. -/
structure WellFormed (sliceSize : ℕ) (p : Packet) : Prop where
  sized : p.Sized
  aligned : p.length % 4 = 0
  recovery : p.kind = par2TypeRecovery → p.body.length = 4 + sliceSize
  metadata : p.kind ≠ par2TypeRecovery → p.length ≤ maxPar2MetadataPacketBytes
  fileDesc : p.kind = par2TypeFileDesc → 56 ≤ p.body.length
  ifsc : p.kind = par2TypeIfsc → 16 ≤ p.body.length ∧ (p.body.length - 16) % 20 = 0
  main : p.kind = par2TypeMain → 12 + p.sourceFiles * 16 ≤ p.body.length ∧ (p.body.length - 12) % 16 = 0 ∧ p.sourceFiles ≤ maxPar2SourceFiles

/-- What `validate_par2_packets` asks of a packet beyond the format: its slice is not among the largest, and it lists no file outside the recovery
set. -/
structure Checked (sliceSize : ℕ) (p : Packet) : Prop where
  slice : p.kind = par2TypeRecovery → sliceSize + 4 ≤ maxPar2SliceBytes
  order : p.kind = par2TypeMain → p.body.length = 12 + p.sourceFiles * 16

end Packet

/-- What a packet adds to the counts. -/
def ParityFileStats.add (stats : ParityFileStats) (p : Packet) : ParityFileStats where
  packets := stats.packets + 1
  recoveryBlocks := stats.recoveryBlocks + if p.kind = par2TypeRecovery then 1 else 0
  metadataBytes := stats.metadataBytes + if p.kind = par2TypeRecovery then 0 else p.length
  sourceFileDescriptors := stats.sourceFileDescriptors + if p.kind = par2TypeFileDesc then 1 else 0
  sourceBlocks := stats.sourceBlocks + if p.kind = par2TypeIfsc then (p.body.length - 16) / 20 else 0

/-- The counts of a row of packets. -/
def countAll (packets : List Packet) (stats : ParityFileStats) : ParityFileStats := packets.foldl .add stats

/-- Whether counts are within the limits of `validate_par2_packets`. -/
structure ParityFileStats.Within (metadataLimit : ℕ) (stats : ParityFileStats) : Prop where
  packets : stats.packets ≤ maxPar2PacketCount
  recoveryBlocks : stats.recoveryBlocks ≤ stats.packets
  metadataBytes : stats.metadataBytes ≤ metadataLimit
  sourceFileDescriptors : stats.sourceFileDescriptors ≤ maxPar2SourceFiles
  sourceBlocks : stats.sourceBlocks ≤ maxPar2SourceBlocks

/-- A row of packets. -/
def encodeAll (md5 : List UInt8 → List UInt8) (packets : List Packet) : List UInt8 := packets.flatMap (·.encode md5)

/-- Whether the slice of a recovery packet with this exponent begins at this place of the files. -/
def SliceAt (md5 : List UInt8 → List UInt8) (files : List (List Packet)) (exponent : ℕ) (place : ℕ × ℕ) : Prop :=
  ∃ packets i p, files[place.1]? = some packets ∧ packets[i]? = some p ∧ p.kind = par2TypeRecovery ∧ p.exponent = exponent ∧
    place.2 = (encodeAll md5 (packets.take i)).length + par2HeaderBytes + 4

/-- An index with a place for every exponent that occurs, and for no other. -/
structure RecoveryIndex.Exact (index : RecoveryIndex) (slices : ℕ → ℕ × ℕ → Prop) : Prop where
  sound : ∀ exponent place, index exponent = some place → slices exponent place
  complete : ∀ exponent place, slices exponent place → index exponent ≠ none

/-!
## Repaired files take their places

`promote_outputs` of `usenet_par2.rs`, over a file system whose calls may fail. What the calls answer is a `Surroundings`, by their number; a rename
that undoes another has an answer of its own. Which backups could not be removed is returned as well, and read by no function.
-/

/-- What is at a path. A link may lead nowhere, and then does not exist for `exists`. -/
inductive Node (Content : Type) where
  | file (content : Content)
  | directory
  | link (target : Content) (leads : Bool)
  deriving DecidableEq

structure FileSystem (Path Content : Type) where
  nodes : Path → Option (Node Content)
  calls : ℕ

/-- The fields that `promote_outputs` reads. -/
structure Par2InputFile (Path : Type) where
  sourcePath : Path
  outputPath : Path

structure OutputPromotion (Path : Type) where
  source : Path
  destination : Path
  backup : Option Path

/-- What the calls answer. `looked` is whether the metadata of a path can be read, without which it does not exist for `exists`, `ancestors` are the
directories a path is in, `made` those that a call of `create_dir_all` has made, whether or not it could make all, and `backup` is the name a
backup gets. -/
structure Surroundings (Path : Type) where
  cancelled : ℕ → Bool
  inspected : ℕ → Bool
  looked : ℕ → Path → Bool
  created : ℕ → Bool
  made : ℕ → List Path
  renamed : ℕ → Bool
  undone : ℕ → Bool
  removed : ℕ → Bool
  ancestors : Path → List Path
  backup : ℕ → Path → Path
  display : Path → String

variable {Path Content : Type} [DecidableEq Path]

namespace FileSystem

/-- `exists`, which is false too when the look at the path fails. -/
def pathExists (s : Surroundings Path) (path : Path) (fs : FileSystem Path Content) : Bool :=
  s.looked fs.calls path &&
    match fs.nodes path with
    | none => false
    | some (.link _ leads) => leads
    | some _ => true

/-- The file system after a call that changed nothing. -/
def called (fs : FileSystem Path Content) : FileSystem Path Content := { fs with calls := fs.calls + 1 }

/-- `create_dir_all` of the parent. -/
def createDirs (s : Surroundings Path) (path : Path) (fs : FileSystem Path Content) : FileSystem Path Content where
  nodes := fun x => if fs.nodes x = none ∧ x ∈ s.made fs.calls ∧ x ∈ s.ancestors path then some .directory else fs.nodes x
  calls := fs.calls + 1

/-- `rename`, and whether it succeeds. -/
def rename (ok : Bool) (source destination : Path) (fs : FileSystem Path Content) : Bool × FileSystem Path Content :=
  match fs.nodes source with
  | none => (false, fs.called)
  | some node =>
    if ok then
      (true, { nodes := fun x => if x = destination then some node else if x = source then none else fs.nodes x, calls := fs.calls + 1 })
    else (false, fs.called)

/-- `remove_file`. -/
def remove (path : Path) (fs : FileSystem Path Content) : FileSystem Path Content where
  nodes := fun x => if x = path then none else fs.nodes x
  calls := fs.calls + 1

end FileSystem

section

variable (s : Surroundings Path)

/-- `check_cancel`. -/
def checkCancel (fs : FileSystem Path Content) : Except Par2Error Unit := if s.cancelled fs.calls then .error .cancelled else .ok ()

/-- `ensure_regular_file`. -/
def ensureRegularFile (path : Path) (fs : FileSystem Path Content) : Except Par2Error Unit :=
  match fs.nodes path with
  | none => .error (.io "No such file or directory")
  | some (.file _) => if s.inspected fs.calls then .ok () else .error (.io "symlink_metadata")
  | some _ => if s.inspected fs.calls then .error (.unsafePath (s.display path)) else .error (.io "symlink_metadata")

/-- `promote_one`. -/
def promoteOne (source destination : Path) (fs : FileSystem Path Content) : Except Par2Error (OutputPromotion Path) × FileSystem Path Content :=
  let made := fs.createDirs s destination
  if !s.created fs.calls then (.error (.io "create_dir_all"), made)
  else if !made.pathExists s destination then
    match made.rename (s.renamed made.calls) source destination with
    | (false, fs) => (.error (.io "rename"), fs)
    | (true, fs) => (.ok ⟨source, destination, none⟩, fs)
  else
    let backup := s.backup made.calls destination
    match made.rename (s.renamed made.calls) destination backup with
    | (false, fs) => (.error (.io "rename"), fs)
    | (true, moved) =>
      match moved.rename (s.renamed moved.calls) source destination with
      | (false, fs) => (.error (.io "rename"), (fs.rename (s.undone fs.calls) backup destination).2)
      | (true, fs) => (.ok ⟨source, destination, some backup⟩, fs)

/-- An iteration of `rollback_promotions`. -/
def rollbackOne (promotion : OutputPromotion Path) (fs : FileSystem Path Content) : FileSystem Path Content :=
  let fs := if fs.pathExists s promotion.destination then (fs.rename (s.undone fs.calls) promotion.destination promotion.source).2 else fs
  match promotion.backup with
  | none => fs
  | some backup => if fs.pathExists s backup then (fs.rename (s.undone fs.calls) backup promotion.destination).2 else fs

/-- `rollback_promotions`: the last promotion first. -/
def rollbackPromotions (promotions : List (OutputPromotion Path)) (fs : FileSystem Path Content) : FileSystem Path Content :=
  promotions.foldr (rollbackOne s) fs

/-- The loop of `promote_outputs`, and the check behind it. -/
def promoteLoop (stage : String → Path) (dataByName : String → Option (Par2InputFile Path)) : List String → List (OutputPromotion Path) →
    FileSystem Path Content → Except Par2Error (List (OutputPromotion Path)) × FileSystem Path Content
  | [], promotions, fs =>
    match checkCancel s fs with
    | .error e => (.error e, rollbackPromotions s promotions fs)
    | .ok () => (.ok promotions, fs)
  | name :: rest, promotions, fs =>
    match checkCancel s fs with
    | .error e => (.error e, rollbackPromotions s promotions fs)
    | .ok () =>
      match dataByName name with
      | none => (.error (.unsafePath name), rollbackPromotions s promotions fs)
      | some input =>
        match ensureRegularFile s (stage name) fs with
        | .error e => (.error e, rollbackPromotions s promotions fs)
        | .ok () =>
          if fs.pathExists s input.outputPath ∧ input.outputPath ≠ input.sourcePath then
            (.error (.repair s!"repair output {s.display input.outputPath} appeared while the task was running"), rollbackPromotions s promotions fs)
          else
            match promoteOne s (stage name) input.outputPath fs with
            | (.error e, fs) => (.error e, rollbackPromotions s promotions fs)
            | (.ok promotion, fs) => promoteLoop stage dataByName rest (promotions ++ [promotion]) fs

/-- The removal of the backup of an output. A failure is ignored. -/
def removeBackup (state : FileSystem Path Content × List Path) (promotion : OutputPromotion Path) : FileSystem Path Content × List Path :=
  match promotion.backup with
  | none => state
  | some backup => if s.removed state.1.calls then (state.1.remove backup, state.2) else (state.1.called, state.2 ++ [backup])

/-- `promote_outputs`: the outputs or the error, the file system, and the backups that could not be removed. -/
def promoteOutputs (stage : String → Path) (names : Finset String) (dataByName : String → Option (Par2InputFile Path)) (fs : FileSystem Path Content) :
    Except Par2Error (List Path) × FileSystem Path Content × List Path :=
  match promoteLoop s stage dataByName names.sort [] fs with
  | (.error e, fs) => (.error e, fs, [])
  | (.ok promotions, fs) => (.ok (promotions.map (·.destination)), promotions.foldl (removeBackup s) (fs, []))

end

/-! ### Where the files are -/

/-- The paths of a promotion: the outputs of a set of names, the staged files, the backups, and the directories that may be made. -/
structure Places (s : Surroundings Path) (stage : String → Path) (names : Finset String) (dataByName : String → Option (Par2InputFile Path))
    (fs : FileSystem Path Content) : Prop where
  staged : ∀ n ∈ names, ∀ m ∈ names, stage n = stage m → n = m
  outputs : ∀ n ∈ names, ∀ m ∈ names, ∀ i ∈ dataByName n, ∀ j ∈ dataByName m, i.outputPath = j.outputPath → n = m
  apart : ∀ n ∈ names, ∀ m ∈ names, ∀ i ∈ dataByName m, stage n ≠ i.outputPath
  fresh : ∀ k p, fs.nodes (s.backup k p) = none
  backups : ∀ k p k' p', s.backup k p = s.backup k' p' → k = k'
  backup_staged : ∀ k p, ∀ n ∈ names, s.backup k p ≠ stage n
  backup_output : ∀ k p, ∀ n ∈ names, ∀ i ∈ dataByName n, s.backup k p ≠ i.outputPath
  directory_staged : ∀ n ∈ names, ∀ i ∈ dataByName n, ∀ m ∈ names, stage m ∉ s.ancestors i.outputPath
  directory_output : ∀ n ∈ names, ∀ i ∈ dataByName n, ∀ m ∈ names, ∀ j ∈ dataByName m, j.outputPath ∉ s.ancestors i.outputPath
  directory_backup : ∀ n ∈ names, ∀ i ∈ dataByName n, ∀ k p, s.backup k p ∉ s.ancestors i.outputPath

end Usenet

end Risuko
