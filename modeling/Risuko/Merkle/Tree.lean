import Risuko.Id20
import Risuko.Lengths
import Risuko.Lib.Merkle

/-!
# Merkle trees of files

`core/merkle.rs`: the hash of a block and of a pair of nodes, the roots of padded layers, and the fold that computes a root from
leaves as they arrive. SHA-256 is code outside the repository and a parameter of the model.
-/

namespace Risuko

def blockSize : ℕ := 16 * 1024

/-- `Id32([0u8; 32])`. -/
def Id32.zero : Id32 := ⟨List.replicate 32 0, rfl⟩

/-! ## Words -/

/-- `is_power_of_two`. -/
def isPowerOfTwo (n : ℕ) : Bool := 2 ^ Nat.log 2 n == n

/-- `next_power_of_two`. -/
def nextPowerOfTwo (n : ℕ) : ℕ := 2 ^ Nat.clog 2 n

/-- `trailing_zeros` of a word of so many bits. -/
def trailingZeros : ℕ → ℕ → ℕ
  | 0, _ => 0
  | width + 1, n => if n % 2 = 1 then 0 else trailingZeros width (n / 2) + 1

/-- `Vec::resize`. -/
def resize {α : Type} (l : List α) (n : ℕ) (value : α) : List α := l.take n ++ List.replicate (n - l.length) value

/-- `slice::chunks`. -/
def chunks (size : ℕ) (bytes : List UInt8) : List (List UInt8) :=
  (List.range (divCeil bytes.length size)).map fun i => (bytes.drop (size * i)).take size

/-- The hashes in `chunks_exact(32)`. -/
def hashesOf (bytes : List UInt8) : List Id32 :=
  (List.range (bytes.length / 32)).map fun i => Id32.ofSlice (bytes.drop (32 * i))

/-! ## Roots -/

section

variable (sha256 : List UInt8 → Id32)

/-- `hash_block`. -/
def hashBlock (block : List UInt8) : Id32 := sha256 block

/-- `hash_pair`. -/
def hashPair (left right : Id32) : Id32 := sha256 (left.bytes ++ right.bytes)

/-- `reduce_layer`. -/
def reduceLayer (layer : List Id32) : List Id32 := Merkle.reduce (hashPair sha256) layer

/-- The loops that reduce a layer while it has more than one node. -/
def reduceAll (layer : List Id32) : List Id32 := Merkle.collapse (hashPair sha256) layer.length layer

/-- `compute_root`. -/
def computeRoot (leaves : List Id32) : Id32 :=
  match leaves with
  | [] => Id32.zero
  | [leaf] => leaf
  | _ => (reduceAll sha256 (resize leaves (nextPowerOfTwo leaves.length) Id32.zero)).headD Id32.zero

/-- The loop of `pad_hash`. The span doubles, so that 32 turns bring it to any word. -/
def padHashLoop (blocks : ℕ) : ℕ → Id32 → ℕ → Id32
  | 0, pad, _ => pad
  | fuel + 1, pad, span =>
    if span < blocks then padHashLoop blocks fuel (hashPair sha256 pad pad) (min (span * 2) (2 ^ 32 - 1)) else pad

/-- `pad_hash`. -/
def padHash (blocks : ℕ) : Id32 := padHashLoop sha256 blocks 32 Id32.zero 1

/-- `compute_root_with_pad`. Its callers ask for a power of two that is no less than the number of leaves. -/
def computeRootWithPad (leaves : List Id32) (paddedLen : ℕ) (pad : Id32) : Id32 :=
  if paddedLen = 0 then Id32.zero else (reduceAll sha256 (resize leaves paddedLen pad)).headD Id32.zero

/-- `compute_root_padded`. -/
def computeRootPadded (leaves : List Id32) (paddedLen : ℕ) : Id32 := computeRootWithPad sha256 leaves paddedLen Id32.zero

/-- `block_hashes`. -/
def blockHashes (bytes : List UInt8) : List Id32 := (chunks blockSize bytes).map (hashBlock sha256)

/-- `blocks_root`. -/
def blocksRoot (bytes : List UInt8) : Id32 := computeRoot sha256 (blockHashes sha256 bytes)

/-- `piece_root`. -/
def pieceRoot (pieceBytes : List UInt8) (blocksPerPiece : ℕ) : Id32 :=
  computeRootPadded sha256 (blockHashes sha256 pieceBytes) blocksPerPiece

/-- `piece_layer_root`. -/
def pieceLayerRoot (pieceHashes : List Id32) (blocksPerPiece : ℕ) : Id32 :=
  computeRootWithPad sha256 pieceHashes (nextPowerOfTwo pieceHashes.length) (padHash sha256 blocksPerPiece)

end

/-! ## The streaming fold -/

/-- `LayerFold`: complete subtrees with their heights, the last one first. -/
structure LayerFold where
  stack : List (ℕ × Id32)

namespace LayerFold

/-- `LayerFold::default`. -/
def empty : LayerFold := ⟨[]⟩

variable (sha256 : List UInt8 → Id32)

/-- The loop of `push`: a node takes in the subtrees of its height. -/
def pushNode : List (ℕ × Id32) → ℕ × Id32 → List (ℕ × Id32)
  | [], node => [node]
  | (height, left) :: stack, node =>
    if height ≠ node.1 then node :: (height, left) :: stack else pushNode stack (height + 1, hashPair sha256 left node.2)

/-- `push`. -/
def push (fold : LayerFold) (leaf : Id32) : LayerFold := ⟨pushNode sha256 fold.stack (0, leaf)⟩

/-- The padding nodes of the heights below a height, lowest first. -/
def pads : ℕ → Id32 → List Id32
  | 0, _ => []
  | height + 1, subtree => subtree :: pads height (hashPair sha256 subtree subtree)

/-- The loop of `finish`. A turn raises the node by one, so that the height bounds the turns. -/
def finishNode (height : ℕ) (padding : List Id32) : ℕ → List (ℕ × Id32) → ℕ × Id32 → Id32
  | 0, _, node => node.2
  | fuel + 1, stack, node =>
    if node.1 < height then
      match stack with
      | (leftHeight, left) :: rest =>
        if leftHeight = node.1 then finishNode height padding fuel rest (leftHeight + 1, hashPair sha256 left node.2)
        else finishNode height padding fuel stack (node.1 + 1, hashPair sha256 node.2 (padding.getD node.1 Id32.zero))
      | [] => finishNode height padding fuel stack (node.1 + 1, hashPair sha256 node.2 (padding.getD node.1 Id32.zero))
    else node.2

/-- `finish`. -/
def finish (fold : LayerFold) (height : ℕ) (pad : Id32) : Id32 :=
  match fold.stack with
  | [] => Id32.zero
  | node :: stack => finishNode sha256 height (pads sha256 height pad) height stack node

end LayerFold

end Risuko
