import Risuko.Lib.Lists
import Risuko.Lib.OrdMap

/-!
# The chunks of an ed2k download

`ChunkManager` of `chunks.rs`. The vectors that run over the parts are one list of parts here, and those over the blocks are two. Lengths
and counters are natural numbers. The digest is a parameter. Last comes the sidecar that keeps the chunks.
-/

namespace Risuko

namespace Ed2k

def ed2kChunkSize : ℕ := 9728000

def ed2kBlockSize : ℕ := 184320

def maxDuplicateRequesters : ℕ := 2

def maxPeerStrikes : ℕ := 2

/-- The sixteen bytes of a digest. -/
abbrev Digest := List UInt8

inductive ChunkStatus where
  | missing
  | verifying
  | downloaded
  deriving DecidableEq

/-- `chunk_count`. -/
def chunkCount (fileSize : ℕ) : ℕ := if fileSize = 0 then 0 else (ed2kChunkSize - 1 + fileSize) / ed2kChunkSize

/-- `chunk_range`. -/
def chunkRange (fileSize index : ℕ) : ℕ × ℕ :=
  let start := ed2kChunkSize * index
  (start, min (ed2kChunkSize + start) fileSize)

/-- The bytes of a part of a file. -/
def partOf (content : List UInt8) (p : ℕ) : List UInt8 :=
  (content.drop (chunkRange content.length p).1).take ((chunkRange content.length p).2 - (chunkRange content.length p).1)

/-! ## Ranges -/

/-- The state of the loop of `insert_range`. -/
structure Inserting where
  start : ℕ
  stop : ℕ
  overlap : ℕ
  out : List (ℕ × ℕ)
  placed : Bool

def Inserting.step (s e : ℕ) (t : Inserting) (r : ℕ × ℕ) : Inserting :=
  if r.2 < s ∨ e < r.1 then
    if e < r.1 ∧ t.placed = false then { t with out := t.out ++ [(t.start, t.stop), r], placed := true }
    else { t with out := t.out ++ [r] }
  else
    { t with overlap := t.overlap + (min r.2 e - max r.1 s), start := min t.start r.1, stop := max t.stop r.2 }

/-- `insert_range`: the ranges with a new one, and how many bytes are new. -/
def insertRange (ranges : List (ℕ × ℕ)) (s e : ℕ) : List (ℕ × ℕ) × ℕ :=
  let t := ranges.foldl (Inserting.step s e) ⟨s, e, 0, [], false⟩
  (if t.placed then t.out else t.out ++ [(t.start, t.stop)], (e - s) - t.overlap)

def covers (ranges : List (ℕ × ℕ)) (s e : ℕ) : Bool := ranges.any fun r => r.1 ≤ s && e ≤ r.2

/-! ## Blocks -/

structure Block where
  start : ℕ
  stop : ℕ
  part : ℕ
  deriving DecidableEq

/-- The inner loop of `new`: the blocks of a part from `s` on. No block is empty, so there are no more than bytes. -/
def partBlocks (part pe : ℕ) : ℕ → ℕ → List Block
  | 0, _ => []
  | n + 1, s => if s < pe then ⟨s, min (ed2kBlockSize + s) pe, part⟩ :: partBlocks part pe n (min (ed2kBlockSize + s) pe) else []

/-- The blocks of the first parts. -/
def blocksBefore (fileSize : ℕ) : ℕ → List Block
  | 0 => []
  | n + 1 =>
    let range := chunkRange fileSize n
    blocksBefore fileSize n ++ partBlocks n range.2 (range.2 - range.1) range.1

/-- A part: an index of the vectors `chunk_status`, `hashing`, `covered`, `part_bytes` and `part_sources`. -/
structure Part where
  status : ChunkStatus
  hashing : Bool
  covered : List (ℕ × ℕ)
  bytes : ℕ
  sources : List ℕ
  deriving DecidableEq

def Part.new : Part := ⟨.missing, false, [], 0, []⟩

structure WriteTicket where
  part : ℕ
  offset : ℕ
  stop : ℕ
  deriving DecidableEq

structure VerifyJob where
  index : ℕ
  start : ℕ
  stop : ℕ
  expected : Digest
  deriving DecidableEq

structure ChunkManager where
  fileSize : ℕ
  fileHash : Digest
  chunkHashes : Option (List Digest)
  parts : List Part
  blocks : List Block
  firstBlock : List ℕ
  reqCount : List ℕ
  peerBlocks : OrdMap ℕ (List ℕ)
  completedLength : ℕ
  /-- Whether `init_file` has opened the file. -/
  file : Bool
  strikes : OrdMap ℕ ℕ
  inFlight : List (ℕ × ℕ)

namespace ChunkManager

/-- `new` and `with_file_hash`. -/
def new (fileSize : ℕ) (fileHash : Digest) : ChunkManager where
  fileSize := fileSize
  fileHash := fileHash
  chunkHashes := none
  parts := List.replicate (chunkCount fileSize) .new
  blocks := blocksBefore fileSize (chunkCount fileSize)
  firstBlock := (List.range (chunkCount fileSize + 1)).map fun part => (blocksBefore fileSize part).length
  reqCount := List.replicate (blocksBefore fileSize (chunkCount fileSize)).length 0
  peerBlocks := .empty
  completedLength := 0
  file := false
  strikes := .empty
  inFlight := []

/-- The part at an index; the source only indexes within the vectors. -/
def part (cm : ChunkManager) (i : ℕ) : Part := cm.parts.getD i .new

def setPart (cm : ChunkManager) (i : ℕ) (t : Part) : ChunkManager := { cm with parts := cm.parts.set i t }

def block (cm : ChunkManager) (i : ℕ) : Block := cm.blocks.getD i ⟨0, 0, 0⟩

/-- The indices of the blocks of a part. -/
def blockRange (cm : ChunkManager) (part : ℕ) : List ℕ :=
  List.range' (cm.firstBlock.getD part 0) (cm.firstBlock.getD (part + 1) 0 - cm.firstBlock.getD part 0)

def isComplete (cm : ChunkManager) : Bool := cm.parts.all fun t => t.status == .downloaded

/-- `expected_part_hash`. -/
def expectedPartHash (cm : ChunkManager) (index : ℕ) : Option Digest :=
  if cm.fileSize < ed2kChunkSize then some cm.fileHash else cm.chunkHashes.bind fun hashes => hashes[index]?

/-- `set_chunk_hashes`. -/
def setChunkHashes (md4 : List UInt8 → Digest) (cm : ChunkManager) (hashes : List Digest) : Bool × ChunkManager :=
  if cm.chunkHashes.isSome ∨ cm.fileSize < ed2kChunkSize then (true, cm)
  else if hashes.length ≠ cm.fileSize / ed2kChunkSize + 1 then (false, cm)
  else if md4 hashes.flatten ≠ cm.fileHash then (false, cm)
  else (true, { cm with chunkHashes := some hashes })

/-- `restore_verified`. -/
def restoreVerified (cm : ChunkManager) (part : ℕ) : ChunkManager :=
  if chunkCount cm.fileSize ≤ part ∨ (cm.part part).status ≠ .missing then cm
  else
    let range := chunkRange cm.fileSize part
    { cm.setPart part { cm.part part with status := .downloaded, covered := [range], bytes := range.2 - range.1 } with
      completedLength := cm.completedLength + (range.2 - range.1) }

/-! ## Blocks for peers -/

def peerHas (peerParts : List Bool) (part : ℕ) : Bool := peerParts.isEmpty || peerParts.getD part false

/-- `block_done`. -/
def blockDone (cm : ChunkManager) (i : ℕ) : Bool :=
  let b := cm.block i
  covers (cm.part b.part).covered b.start b.stop

/-- `part_started`. -/
def partStarted (cm : ChunkManager) (part : ℕ) : Bool :=
  0 < (cm.part part).bytes || (cm.blockRange part).any fun i => 0 < cm.reqCount.getD i 0

/-- The parts that a peer could serve. -/
def wantedParts (cm : ChunkManager) (peerParts : List Bool) : List ℕ :=
  (List.range (chunkCount cm.fileSize)).filter fun part => (cm.part part).status == .missing && peerHas peerParts part

/-- The blocks that the loop `'fresh` would pick, in its order: those of the started parts first. -/
def freshBlocks (cm : ChunkManager) (peerParts : List Bool) : List ℕ :=
  [true, false].flatMap fun started =>
    ((cm.wantedParts peerParts).filter fun part => cm.partStarted part == started).flatMap fun part =>
      (cm.blockRange part).filter fun i => cm.reqCount.getD i 0 == 0 && !cm.blockDone i

/-- The same for the loop `'endgame`. -/
def endgameBlocks (cm : ChunkManager) (peerParts : List Bool) : List ℕ :=
  (cm.wantedParts peerParts).flatMap fun part =>
    (cm.blockRange part).filter fun i =>
      0 < cm.reqCount.getD i 0 && cm.reqCount.getD i 0 < maxDuplicateRequesters && !cm.blockDone i

/-- What the loops pick before they break, which they do after a push. -/
def pick (max : ℕ) (candidates : List ℕ) : List ℕ := candidates.take (if max = 0 then 1 else max)

/-- `release_peer`. -/
def releasePeer (cm : ChunkManager) (peer : ℕ) : ChunkManager :=
  { cm with
    peerBlocks := cm.peerBlocks.erase peer
    reqCount := ((cm.peerBlocks.get? peer).getD []).foldl (fun rc i => rc.modify i (· - 1)) cm.reqCount }

/-- The first part of `assign_blocks`: the peer gives up the blocks that are done. -/
def releaseDone (cm : ChunkManager) (peer : ℕ) : List ℕ × ChunkManager :=
  let mine := (cm.peerBlocks.get? peer).getD []
  (mine.filter fun i => !cm.blockDone i,
    { cm with
      peerBlocks := cm.peerBlocks.erase peer
      reqCount := (mine.filter cm.blockDone).foldl (fun rc i => rc.modify i (· - 1)) cm.reqCount })

/-- The rest of `assign_blocks`, for a peer that holds no block. -/
def assignFresh (cm : ChunkManager) (peer : ℕ) (peerParts : List Bool) (max : ℕ) : List (ℕ × ℕ) × ChunkManager :=
  let fresh := pick max (cm.freshBlocks peerParts)
  let picked := if fresh = [] then pick max (cm.endgameBlocks peerParts) else fresh
  if picked = [] then ([], cm)
  else
    (picked.map fun i => ((cm.block i).start, (cm.block i).stop),
      { cm with
        reqCount := picked.foldl (fun rc i => rc.modify i (· + 1)) cm.reqCount
        peerBlocks := cm.peerBlocks.insert peer picked })

/-- `assign_blocks`. -/
def assignBlocks (cm : ChunkManager) (peer : ℕ) (peerParts : List Bool) (max : ℕ) : List (ℕ × ℕ) × ChunkManager :=
  let (mine, cm) := cm.releaseDone peer
  if mine ≠ [] then ([], { cm with peerBlocks := cm.peerBlocks.insert peer mine })
  else cm.assignFresh peer peerParts max

/-! ## Writes -/

/-- `writable_part`. -/
def writablePart (cm : ChunkManager) (peer offset stop : ℕ) : Option ℕ :=
  ((((cm.peerBlocks.get? peer).getD []).map cm.block).find? fun b => b.start ≤ offset && stop ≤ b.stop).bind fun b =>
    if (cm.part b.part).status = .missing ∧ covers (cm.part b.part).covered offset stop = false then some b.part else none

/-- `begin_write`: a ticket, if the write may start. -/
def beginWrite (cm : ChunkManager) (peer offset len : ℕ) : Except String (Option WriteTicket × ChunkManager) :=
  if len = 0 then .ok (none, cm)
  else if cm.fileSize < offset + len then
    .error ("Write out of bounds: offset " ++ toString offset ++ " + len " ++ toString len ++ " exceeds file size " ++ toString cm.fileSize)
  else
    match cm.writablePart peer offset (offset + len) with
    | none => .ok (none, cm)
    | some part =>
      if cm.file = false then .error "Output file not open"
      else if cm.inFlight.any fun r => r.1 < offset + len && offset < r.2 then .ok (none, cm)
      else .ok (some ⟨part, offset, offset + len⟩, { cm with inFlight := cm.inFlight ++ [(offset, offset + len)] })

/-- `commit_write`. -/
def commitWrite (cm : ChunkManager) (peer : ℕ) (ticket : WriteTicket) : Bool × ChunkManager :=
  if cm.writablePart peer ticket.offset ticket.stop ≠ some ticket.part then (false, cm)
  else
    let t := cm.part ticket.part
    let (covered, added) := insertRange t.covered ticket.offset ticket.stop
    let range := chunkRange cm.fileSize ticket.part
    (true, { cm.setPart ticket.part
        { t with
          status := if range.2 - range.1 ≤ t.bytes + added then .verifying else t.status
          covered := covered
          bytes := t.bytes + added
          sources := if t.sources.contains peer then t.sources else t.sources ++ [peer] } with
      completedLength := cm.completedLength + added })

/-- The destructor of a ticket. -/
def dropTicket (cm : ChunkManager) (ticket : WriteTicket) : ChunkManager :=
  match cm.inFlight.findIdx? fun r => r == (ticket.offset, ticket.stop) with
  | none => cm
  | some i => { cm with inFlight := swapRemove cm.inFlight i }

/-! ## Verification -/

def isBanned (cm : ChunkManager) (peer : ℕ) : Bool := maxPeerStrikes ≤ (cm.strikes.get? peer).getD 0

/-- The loop of `take_verify_jobs` at one part. -/
def takeVerifyJob (acc : List VerifyJob × ChunkManager) (part : ℕ) : List VerifyJob × ChunkManager :=
  let t := acc.2.part part
  if t.status ≠ .verifying ∨ t.hashing then acc
  else
    match acc.2.expectedPartHash part with
    | none => acc
    | some expected =>
      let range := chunkRange acc.2.fileSize part
      (acc.1 ++ [⟨part, range.1, range.2, expected⟩], acc.2.setPart part { t with hashing := true })

/-- `take_verify_jobs`. -/
def takeVerifyJobs (cm : ChunkManager) : List VerifyJob × ChunkManager :=
  (List.range (chunkCount cm.fileSize)).foldl takeVerifyJob ([], cm)

/-- Whom `finish_verify` blames for a part that failed. -/
def strike (cm : ChunkManager) (sources : List ℕ) : ChunkManager :=
  match sources with
  | [peer] => { cm with strikes := cm.strikes.insert peer ((cm.strikes.get? peer).getD 0 + 1) }
  | _ => cm

/-- `finish_verify`. -/
def finishVerify (cm : ChunkManager) (part : ℕ) (ok : Bool) : ChunkManager :=
  if cm.parts.length ≤ part then cm
  else
    let t := cm.part part
    if ok then cm.setPart part { t with hashing := false, sources := [], status := .downloaded }
    else
      let lo := cm.firstBlock.getD part 0
      let hi := cm.firstBlock.getD (part + 1) 0
      { (cm.strike t.sources).setPart part { status := .missing, hashing := false, covered := [], bytes := 0, sources := [] } with
        completedLength := cm.completedLength - t.bytes
        peerBlocks := cm.peerBlocks.mapVal fun _ held => held.filter fun i => !(lo ≤ i && i < hi)
        reqCount := cm.reqCount.mapIdx fun i c => if lo ≤ i ∧ i < hi then 0 else c }

end ChunkManager

/-!
## The sidecar of an ed2k download

`partial.rs`: what a sidecar says, and whether it is that of a link.
-/

/-- What a download takes of an `Ed2kFileLink`. -/
structure Ed2kFileLink where
  fileSize : ℕ
  fileHash : Digest
  /-- `parse_ed2k_link` refuses an empty file. -/
  pos : 0 < fileSize
  deriving DecidableEq

/-! ### Hexadecimal digits -/

def hexDigit (n : ℕ) : Char := if n < 10 then Char.ofNat (48 + n) else Char.ofNat (87 + n)

/-- `hex::encode`. -/
def hexEncode (bytes : List UInt8) : List Char := bytes.flatMap fun b => [hexDigit (b.toNat / 16), hexDigit (b.toNat % 16)]

def hexValue (c : Char) : Option ℕ :=
  if '0' ≤ c ∧ c ≤ '9' then some (c.toNat - 48)
  else if 'a' ≤ c ∧ c ≤ 'f' then some (c.toNat - 87)
  else if 'A' ≤ c ∧ c ≤ 'F' then some (c.toNat - 55)
  else none

/-- `hex::decode`. -/
def hexDecode : List Char → Option (List UInt8)
  | [] => some []
  | [_] => none
  | high :: low :: rest => do
    let high ← hexValue high
    let low ← hexValue low
    let bytes ← hexDecode rest
    return UInt8.ofNat (16 * high + low) :: bytes

/-! ### The sidecar -/

def metVersion : ℕ := 1

structure Met where
  version : ℕ
  fileHash : List Char
  fileSize : ℕ
  hashset : Option (List (List Char))
  verified : List ℕ
  deriving DecidableEq

namespace Met

/-- A digest has sixteen bytes. -/
def decodeHash (text : List Char) : Option Digest := (hexDecode text).filter fun bytes => bytes.length == 16

def decodedHashset (met : Met) : Option (List Digest) := met.hashset.bind fun hashes => hashes.mapM decodeHash

/-- `matches`. -/
def isOf (met : Met) (link : Ed2kFileLink) : Bool :=
  met.version == metVersion && met.fileSize == link.fileSize &&
    met.fileHash.map Char.toLower == (hexEncode link.fileHash).map Char.toLower

end Met

/-- `load_met`, for what the sidecar holds. There is no sidecar, too, when the bytes of one are no `Met`. -/
def loadMet (sidecar : Option Met) (link : Ed2kFileLink) : Option Met := sidecar.filter fun met => met.isOf link

/-- The loop of `restore_jobs` at a part that the sidecar claims. -/
def ChunkManager.restoreJob (cm : ChunkManager) (acc : List ℕ × List VerifyJob) (index : ℕ) : List ℕ × List VerifyJob :=
  if chunkCount cm.fileSize ≤ index ∨ (cm.part index).status ≠ .missing ∨ index ∈ acc.1 then acc
  else
    match cm.expectedPartHash index with
    | none => (acc.1 ++ [index], acc.2)
    | some expected =>
      let range := chunkRange cm.fileSize index
      (acc.1 ++ [index], acc.2 ++ [⟨index, range.1, range.2, expected⟩])

/-- `restore_jobs`. -/
def ChunkManager.restoreJobs (cm : ChunkManager) (claimed : List ℕ) : List VerifyJob := (claimed.foldl cm.restoreJob ([], [])).2

end Ed2k

end Risuko
