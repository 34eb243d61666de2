import Risuko.Metainfo.Torrent

/-!
# Piece verifiers

`PieceVerifier` of `core/merkle.rs`: the check of a piece against the v1 hashes, the Merkle trees of the files, or both. Where files
start in the data says to which file a piece belongs. SHA-1 and SHA-256 are parameters.
-/

namespace Risuko

open Metainfo

inductive VerifyError where
  | hashMismatch
  | pieceOutOfRange (pieceIndex : UInt32)
  | merkle (e : MerkleError)
  | inconsistentHashes
  deriving DecidableEq

inductive PieceVerifier where
  | v1Sha1 (pieces : List UInt8)
  | hybrid (pieces : List UInt8) (tables : List (Option MerkleProofTable)) (fileStarts : List ℕ) (pieceLength : UInt32)
  | v2Merkle (tables : List MerkleProofTable) (fileOffsets : List ℕ) (pieceLength : UInt32)

namespace PieceVerifier

variable (sha1 : List UInt8 → List UInt8) (sha256 : List UInt8 → Id32)

/-! ## Construction -/

/-- `build_v2_table`. -/
def buildV2Table (torrent : TorrentMeta) (pieceLength : UInt32) (file : TorrentMetaInfoV2) : Except MerkleError MerkleProofTable :=
  MerkleProofTable.fromLayerBytes sha256 file.piecesRoot (UInt64.ofNat file.length) pieceLength
    ((torrent.pieceLayers file.piecesRoot).getD [])

/-- `build_v2_tables`: the tables of all files, or the first error. -/
def buildV2Tables (torrent : TorrentMeta) (pieceLength : UInt32) : List TorrentMetaInfoV2 → Except MerkleError (List MerkleProofTable)
  | [] => .ok []
  | file :: rest =>
    match buildV2Table sha256 torrent pieceLength file with
    | .error e => .error e
    | .ok table =>
      match buildV2Tables torrent pieceLength rest with
      | .error e => .error e
      | .ok tables => .ok (table :: tables)

/-- The loop of `from_meta` over the files of a v2 torrent: where each starts, and at last where the last one ends. -/
def fileOffsetsFrom (pieceLength : UInt32) : List TorrentMetaInfoV2 → ℕ → Except MerkleError (List ℕ)
  | [], acc => .ok [acc]
  | f :: rest, acc =>
    let start := acc + v2AlignmentPadding acc f.length pieceLength
    if 2 ^ 64 ≤ start + f.length then .error (.layerLengthMismatch f.length (2 ^ 64 - 1))
    else
      match fileOffsetsFrom pieceLength rest (start + f.length) with
      | .error e => .error e
      | .ok offsets => .ok (start :: offsets)

/-- The loop of `hybrid` over the files of the v1 list: where each file with data starts. -/
def fileStartsFrom : List Metainfo.TorrentMetaInfo → ℕ → List ℕ
  | [], _ => []
  | f :: rest, offset =>
    if !f.padding && 0 < f.length then offset :: fileStartsFrom rest (offset + f.length) else fileStartsFrom rest (offset + f.length)

/-- `hybrid`. -/
def hybridOf (torrent : TorrentMeta) (pieces : List UInt8) : Option PieceVerifier :=
  match torrent.infoV2 with
  | none => none
  | some v2 =>
    let fileStarts := fileStartsFrom torrent.info.files 0
    if fileStarts.length ≠ v2.files.length then none
    else
      let tables := v2.files.map fun file => (buildV2Table sha256 torrent v2.pieceLength file).toOption
      if tables.all Option.isNone then none else some (.hybrid pieces tables fileStarts v2.pieceLength)

/-- `from_meta`. A torrent without a v1 part has a v2 part. -/
def fromMeta (torrent : TorrentMeta) : Except MerkleError PieceVerifier :=
  match torrent.metaVersion, torrent.infoV2 with
  | .v2, some v2 =>
    match buildV2Tables sha256 torrent v2.pieceLength v2.files with
    | .error e => .error e
    | .ok tables =>
      match fileOffsetsFrom v2.pieceLength v2.files 0 with
      | .error e => .error e
      | .ok fileOffsets => .ok (.v2Merkle tables fileOffsets v2.pieceLength)
  | _, _ => .ok ((hybridOf sha256 torrent torrent.info.pieces).getD (.v1Sha1 torrent.info.pieces))

/-! ## Verification -/

/-- `partition_point` of the files that start at an offset or before it; their starts increase. -/
def filesUpTo (starts : List ℕ) (offset : ℕ) : ℕ := (starts.takeWhile fun start => start ≤ offset).length

/-- The piece of a file that a piece of the torrent is. -/
def localPieceIdx (starts : List ℕ) (pieceLength : UInt32) (pieceOffset fileIdx : ℕ) : UInt32 :=
  UInt32.ofNat ((pieceOffset - starts.getD fileIdx 0) / pieceLength.toNat)

end PieceVerifier

end Risuko
