import Risuko.Merkle.Tree
import Risuko.Wire.Message

/-!
# Merkle proof tables

`MerkleProofTable` of `core/merkle.rs`: the piece layer of one file, checked against the root of the file, the answers to requests for
its hashes, and the check of a layer that arrives in chunks. The layers above the piece layer are computed on first use in the source
and on every use here. The keys of the map of blocks are pieces, and the map is a function.
-/

namespace Risuko

def maxServedHashes : ℕ := 8192

def maxServedLeafHashes : ℕ := 512

inductive MerkleError where
  | layerLengthMismatch (got expected : ℕ)
  | layerNotAligned
  | pieceOutOfRange (pieceIndex : UInt32)
  | rootMismatch
  deriving DecidableEq

structure MerkleProofTable where
  fileRoot : Id32
  fileLength : UInt64
  pieceLength : UInt32
  pieceCount : UInt32
  blocksPerPiece : UInt32
  pieceRootHashes : List Id32
  deriving DecidableEq

/-- `file_length.div_ceil(piece_length as u64) as u32`. -/
def pieceCountOf (fileLength : UInt64) (pieceLength : UInt32) : UInt32 :=
  UInt32.ofNat (divCeil fileLength.toNat pieceLength.toNat)

variable (sha256 : List UInt8 → Id32)

namespace MerkleProofTable

/-- `from_layer_bytes`. -/
def fromLayerBytes (fileRoot : Id32) (fileLength : UInt64) (pieceLength : UInt32) (layerBytes : List UInt8) :
    Except MerkleError MerkleProofTable :=
  if !isPowerOfTwo pieceLength.toNat || pieceLength.toNat < blockSize then
    .error (.layerLengthMismatch pieceLength.toNat blockSize)
  else
    let blocksPerPiece := UInt32.ofNat (pieceLength.toNat / blockSize)
    let pieceCount := pieceCountOf fileLength pieceLength
    if fileLength.toNat ≤ pieceLength.toNat then
      if layerBytes ≠ [] then .error (.layerLengthMismatch layerBytes.length 0)
      else .ok ⟨fileRoot, fileLength, pieceLength, pieceCount, blocksPerPiece, []⟩
    else if layerBytes.length % 32 ≠ 0 then .error .layerNotAligned
    else
      let layerLen := layerBytes.length / 32
      if layerLen ≠ pieceCount.toNat then .error (.layerLengthMismatch layerLen pieceCount.toNat)
      else
        let pieceRootHashes := hashesOf layerBytes
        let recomputed := pieceLayerRoot sha256 pieceRootHashes blocksPerPiece.toNat
        if recomputed ≠ fileRoot then .error .rootMismatch
        else .ok ⟨fileRoot, fileLength, pieceLength, pieceCount, blocksPerPiece, pieceRootHashes⟩

/-- `piece_size`. -/
def pieceSize (table : MerkleProofTable) (pieceIndex : UInt32) : Option ℕ :=
  if table.pieceCount ≤ pieceIndex then none
  else
    let start := pieceIndex.toNat * table.pieceLength.toNat
    some (min (start + table.pieceLength.toNat) table.fileLength.toNat - start)

/-- `expected_piece_root`. -/
def expectedPieceRoot (table : MerkleProofTable) (pieceBytes : List UInt8) : Id32 :=
  pieceRoot sha256 pieceBytes table.blocksPerPiece.toNat

/-- `piece_layer_padded_len`. -/
def pieceLayerPaddedLen (table : MerkleProofTable) : UInt32 :=
  if table.pieceRootHashes.isEmpty then 0 else UInt32.ofNat (max (nextPowerOfTwo table.pieceCount.toNat) 2)

/-- `piece_layer_base`. -/
def pieceLayerBase (table : MerkleProofTable) : ℕ := trailingZeros 32 table.blocksPerPiece.toNat

/-- `upper_layers`. -/
def upperLayers (table : MerkleProofTable) : List (List Id32) :=
  let padded := table.pieceLayerPaddedLen.toNat
  Merkle.layers (hashPair sha256) padded (resize table.pieceRootHashes padded (padHash sha256 table.blocksPerPiece.toNat))

/-- `block_count`. -/
def blockCount (table : MerkleProofTable) : ℕ := divCeil table.fileLength.toNat blockSize

/-- `leaf_count`. -/
def leafCount (table : MerkleProofTable) : ℕ :=
  if table.pieceRootHashes.isEmpty then nextPowerOfTwo (max table.blockCount 1)
  else table.blocksPerPiece.toNat * table.pieceLayerPaddedLen.toNat

/-! ## Leaf requests -/

/-- The loop of `leaf_request_pieces`: the range of blocks grows by the siblings beside the path, up to the piece layer. -/
def leafRange (table : MerkleProofTable) : ℕ → ℕ → ℕ → ℕ × ℕ → ℕ × ℕ
  | 0, _, _, range => range
  | uncles + 1, layer, node, (lo, hi) =>
    if !table.pieceRootHashes.isEmpty && table.pieceLayerBase ≤ layer then (lo, hi)
    else
      let sibling := node ^^^ 1
      leafRange table uncles (layer + 1) (node / 2) (min lo (sibling <<< layer), max hi ((sibling + 1) <<< layer))

/-- `leaf_request_pieces`. -/
def leafRequestPieces (table : MerkleProofTable) (index length proofLayers : UInt32) : Option (List UInt32) :=
  if table.fileLength = 0 || length.toNat < 2 || !isPowerOfTwo length.toNat then none
  else if maxServedLeafHashes < length.toNat || index.toNat % length.toNat ≠ 0 then none
  else
    let leaves := table.leafCount
    if leaves < index.toNat + length.toNat then none
    else
      let height := trailingZeros 64 leaves
      let subtreeLayers := trailingZeros 32 length.toNat
      let uncles := hashesUncleCount length proofLayers
      if height < subtreeLayers + uncles then none
      else
        let range := table.leafRange uncles subtreeLayers (index.toNat / length.toNat)
          (index.toNat, index.toNat + length.toNat)
        let lo := range.1
        let hi := min range.2 table.blockCount
        if hi ≤ lo then some []
        else
          let bpp := table.blocksPerPiece.toNat
          let first := UInt32.ofNat (lo / bpp)
          let last := UInt32.ofNat ((hi - 1) / bpp)
          some ((List.range' first.toNat (last.toNat + 1 - first.toNat)).map UInt32.ofNat)

/-- The hash of a block in `answer_leaf_request`: zeros behind the end of the file. -/
def blockHash (table : MerkleProofTable) (pieceBlocks : UInt32 → Option (List Id32)) (b : ℕ) : Option Id32 :=
  if table.blockCount ≤ b then some Id32.zero
  else
    let bpp := table.blocksPerPiece.toNat
    (pieceBlocks (UInt32.ofNat (b / bpp))).bind fun blocks => blocks[b % bpp]?

/-- The node that `answer_leaf_request` reads off the upper layers or computes from the blocks under it. -/
def nodeHash (table : MerkleProofTable) (pieceBlocks : UInt32 → Option (List Id32)) (layer i : ℕ) : Option Id32 :=
  if !table.pieceRootHashes.isEmpty && table.pieceLayerBase ≤ layer then
    ((table.upperLayers sha256)[layer - table.pieceLayerBase]?).bind fun upper => upper[i]?
  else
    ((List.range' (i <<< layer) ((i + 1) <<< layer - i <<< layer)).mapM (table.blockHash pieceBlocks)).bind fun level =>
      (reduceAll sha256 level).head?

/-- The loop of `answer_leaf_request` over the layers of the proof. -/
def leafUncles (table : MerkleProofTable) (pieceBlocks : UInt32 → Option (List Id32)) : ℕ → ℕ → ℕ → Option (List Id32)
  | 0, _, _ => some []
  | uncles + 1, layer, node => do
    let uncle ← table.nodeHash sha256 pieceBlocks layer (node ^^^ 1)
    let rest ← leafUncles table pieceBlocks uncles (layer + 1) (node / 2)
    return uncle :: rest

/-- `answer_leaf_request`. -/
def answerLeafRequest (table : MerkleProofTable) (index length proofLayers : UInt32)
    (pieceBlocks : UInt32 → Option (List Id32)) : Option (List UInt8) := do
  let _ ← table.leafRequestPieces index length proofLayers
  let subtreeLayers := trailingZeros 32 length.toNat
  let base ← (List.range' index.toNat length.toNat).mapM (table.blockHash pieceBlocks)
  let uncles ← table.leafUncles sha256 pieceBlocks (hashesUncleCount length proofLayers) subtreeLayers
    (index.toNat / length.toNat)
  return (base ++ uncles).flatMap Id32.bytes

/-! ## Requests to the piece layer -/

/-- The loop of `hashes_for_request` over the layers of the proof. A node of a layer below the top has a sibling. -/
def layerUncles : List (List Id32) → ℕ → List Id32
  | [], _ => []
  | layer :: rest, node => layer.getD (node ^^^ 1) Id32.zero :: layerUncles rest (node / 2)

/-- `hashes_for_request`. -/
def hashesForRequest (table : MerkleProofTable) (baseLayer index length proofLayers : UInt32) : Option (List UInt8) :=
  if table.pieceRootHashes.isEmpty || baseLayer.toNat ≠ table.pieceLayerBase then none
  else if length.toNat < 2 || !isPowerOfTwo length.toNat || maxServedHashes < length.toNat then none
  else if index.toNat % length.toNat ≠ 0 then none
  else
    let layers := table.upperLayers sha256
    let base := layers.headD []
    if 2 ^ 32 ≤ index.toNat + length.toNat then none
    else if base.length < index.toNat + length.toNat then none
    else
      let subtreeLayers := trailingZeros 32 length.toNat
      let uncles := hashesUncleCount length proofLayers
      let height := layers.length - 1
      if height < subtreeLayers + uncles then none
      else
        let out := (base.drop index.toNat).take length.toNat ++
          layerUncles ((layers.drop subtreeLayers).take uncles) (index.toNat / length.toNat)
        some (out.flatMap Id32.bytes)

/-! ## A layer in chunks -/

/-- The loop of `verify_piece_layer_chunks` over the hashes, which counts them. -/
def foldHashes (pieceCount : ℕ) (pad : Id32) : ℕ → List Id32 → LayerFold → Except MerkleError LayerFold
  | _, [], fold => .ok fold
  | index, leaf :: rest, fold =>
    if pieceCount ≤ index && leaf ≠ pad then .error .rootMismatch
    else foldHashes pieceCount pad (index + 1) rest (fold.push sha256 leaf)

/-- `verify_piece_layer_chunks`. -/
def verifyPieceLayerChunks (fileRoot : Id32) (fileLength : UInt64) (pieceLength : UInt32) (chunks : List (List UInt8)) :
    Except MerkleError Unit :=
  if !isPowerOfTwo pieceLength.toNat || pieceLength.toNat < blockSize then
    .error (.layerLengthMismatch pieceLength.toNat blockSize)
  else
    let pieceCount := (pieceCountOf fileLength pieceLength).toNat
    let receivedBytes := (chunks.map List.length).sum
    if pieceCount ≤ 1 || fileLength.toNat ≤ pieceLength.toNat then .error (.layerLengthMismatch receivedBytes 0)
    else if chunks.any (fun chunk => chunk.length % 32 ≠ 0) then .error .layerNotAligned
    else
      let padded := max (nextPowerOfTwo pieceCount) 2
      let received := receivedBytes / 32
      if received < pieceCount || padded < received then .error (.layerLengthMismatch received padded)
      else
        let pad := padHash sha256 (pieceLength.toNat / blockSize)
        match foldHashes sha256 pieceCount pad 0 (chunks.flatMap hashesOf) LayerFold.empty with
        | .error e => .error e
        | .ok fold => if fold.finish sha256 (trailingZeros 64 padded) pad ≠ fileRoot then .error .rootMismatch else .ok ()

/-! ## Pieces -/

/-- `verify_piece`. -/
def verifyPiece (table : MerkleProofTable) (pieceIndex : UInt32) (pieceBytes : List UInt8) : Except MerkleError Unit :=
  match table.pieceSize pieceIndex with
  | none => .error (.pieceOutOfRange pieceIndex)
  | some expectedSize =>
    if pieceBytes.length ≠ expectedSize then .error (.layerLengthMismatch pieceBytes.length expectedSize)
    else
      let computed := if table.pieceRootHashes.isEmpty then blocksRoot sha256 pieceBytes
        else table.expectedPieceRoot sha256 pieceBytes
      let expected := if table.pieceRootHashes.isEmpty then table.fileRoot
        else table.pieceRootHashes.getD pieceIndex.toNat Id32.zero
      if computed ≠ expected then .error .rootMismatch else .ok ()

end MerkleProofTable

end Risuko
