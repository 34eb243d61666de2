import Risuko.Lemmas.LeafPlan

/-!
# Merkle trees of files: the piece layer and its proofs

A piece layer that streams in is accepted when the whole layer would be, wherever it was cut between hashes. What a proof table answers
to a request for hashes leads, hash by hash, up the tree of the file.
-/

namespace Risuko

namespace MerkleProofTable

/-- First, chunks are accepted exactly when each is a whole number of hashes, the file has more than one piece, there are no more
hashes than in the padded layer, the first hashes make a layer that the proof table accepts, and the others are padding. Second, chunks
of whole hashes with one concatenation have one outcome. -/
theorem streamed_layer (sha256 : List UInt8 → Id32) (fileRoot : Id32) (fileLength : UInt64) (pieceLength : UInt32) :
    (∀ chunks : List (List UInt8), verifyPieceLayerChunks sha256 fileRoot fileLength pieceLength chunks = .ok () ↔
      (∀ c ∈ chunks, 32 ∣ c.length) ∧ 2 ≤ (pieceCountOf fileLength pieceLength).toNat ∧ pieceLength.toNat < fileLength.toNat ∧
        chunks.flatten.length ≤ 32 * nextPowerOfTwo (pieceCountOf fileLength pieceLength).toNat ∧
        (∃ t, fromLayerBytes sha256 fileRoot fileLength pieceLength
          (chunks.flatten.take (32 * (pieceCountOf fileLength pieceLength).toNat)) = .ok t) ∧
        ∀ hash ∈ (hashesOf chunks.flatten).drop (pieceCountOf fileLength pieceLength).toNat,
          hash = padHash sha256 (pieceLength.toNat / blockSize)) ∧
    ∀ chunks chunks' : List (List UInt8), (∀ c ∈ chunks, 32 ∣ c.length) → (∀ c ∈ chunks', 32 ∣ c.length) →
      chunks.flatten = chunks'.flatten →
      verifyPieceLayerChunks sha256 fileRoot fileLength pieceLength chunks =
        verifyPieceLayerChunks sha256 fileRoot fileLength pieceLength chunks' := by
  constructor
  · intro chunks
    by_cases halign : ∀ c ∈ chunks, 32 ∣ c.length
    · rw [verifyPieceLayerChunks_flatten halign, verifyPieceLayerChunks_singleton_ok_iff (dvd_length_flatten halign)]
      exact ⟨fun h => ⟨halign, h⟩, fun h => h.2⟩
    · constructor
      · intro hok
        push Not at halign
        obtain ⟨c, hc, hnot⟩ := halign
        exact absurd hok (not_ok_of_not_dvd hc hnot)
      · rintro ⟨h, -⟩
        exact absurd h halign
  · intro chunks chunks' h h' heq
    rw [verifyPieceLayerChunks_flatten h, verifyPieceLayerChunks_flatten h', heq]

/-- Two pieces whose layer comes in a chunk of one byte and a chunk of the rest: the layer is accepted as a whole and refused in
these chunks, for every hash function. -/
theorem streamed_layer_cutInside :
    ¬ ∃ sha256 : List UInt8 → Id32, ∀ (fileRoot : Id32) (fileLength : UInt64) (pieceLength : UInt32) (chunks : List (List UInt8)),
      verifyPieceLayerChunks sha256 fileRoot fileLength pieceLength chunks = .ok () ↔
        (∃ t, fromLayerBytes sha256 fileRoot fileLength pieceLength
          (chunks.flatten.take (32 * (pieceCountOf fileLength pieceLength).toNat)) = .ok t) ∧
        ∀ hash ∈ (hashesOf chunks.flatten).drop (pieceCountOf fileLength pieceLength).toNat,
          hash = padHash sha256 (pieceLength.toNat / blockSize) := by
  rintro ⟨sha256, h⟩
  have hcut := (h (hashPair sha256 Id32.zero Id32.zero) 32768 16384 [[0], List.replicate 63 0]).mpr
  have hcount : (pieceCountOf 32768 16384).toNat = 2 := by decide
  have hlayer : hashesOf (List.replicate 64 0) = [Id32.zero, Id32.zero] := by decide
  have hjoin : [[0], List.replicate 63 0].flatten = List.replicate 64 (0 : UInt8) := by decide
  have htake : (List.replicate 64 (0 : UInt8)).take (32 * 2) = List.replicate 64 0 := by decide
  rw [hcount, hjoin, hlayer, htake] at hcut
  refine not_ok_of_not_dvd (c := [0]) List.mem_cons_self (by decide) (hcut ⟨?_, ?_⟩)
  · refine (fromLayerBytes_ok_iff (by decide)).mpr ⟨by decide, by decide, by decide, by decide, ?_⟩
    rw [hlayer]
    rfl
  · intro hash hmem
    exact absurd hmem List.not_mem_nil

/-! ## A file of three blocks of zeros -/

/-- A digest, as it is written in hexadecimal. -/
def digest (n : ℕ) : Id32 := ⟨(List.range 32).map fun i => UInt8.ofNat (n / 256 ^ (31 - i)), by simp⟩

/-- The digest of a block of zeros. -/
def zeroBlock : Id32 := digest 0x4fe7b59af6de3b665b67788cc2f99892ab827efae3a467342b3bb4e3bc8e5bfe

/-- The nodes of the file: two of its blocks, its last block and padding, and the root. -/
def zeroPair : Id32 := digest 0xc36d0dd6a886e1fce758b6b5c531b703a1f21e8f6453785c390931cf8fa8a76d

def zeroTail : Id32 := digest 0xe5c9411f290bdb9ce4307d8b8a35fff254aca7bee9ba4ea843de93c33875e165

def zeroRoot : Id32 := digest 0x1cb5a249f6e721060aae623d21d3eca23056bda8c19e4e89f9a086151553713d

/-- SHA-256 of what is hashed for the file: pairs of nodes, and blocks of zeros. -/
def zeroSha256 (bytes : List UInt8) : Id32 :=
  if bytes = zeroBlock.bytes ++ zeroBlock.bytes then zeroPair
  else if bytes = zeroBlock.bytes ++ Id32.zero.bytes then zeroTail
  else if bytes = zeroPair.bytes ++ zeroTail.bytes then zeroRoot
  else zeroBlock

/-- The table of the file, in pieces of one block. -/
def zeroTable : MerkleProofTable := ⟨zeroRoot, 49152, 16384, 3, 1, [zeroBlock, zeroBlock, zeroBlock]⟩

/-- The table of three blocks of zeros. -/
theorem fromLayerBytes_zeroTable :
    fromLayerBytes zeroSha256 zeroRoot 49152 16384 (zeroBlock.bytes ++ (zeroBlock.bytes ++ zeroBlock.bytes)) = .ok zeroTable := by
  decide +kernel

/-! ## Answers -/

/-- An answered request to the piece layer: the payload is the hashes of the padded layer that were asked for, then the uncles. Folded
and climbed they give the node of the tree above the piece layer, which is the root of the file when the climb ends at its height, and
which is the node of every tree of blocks that the table stands for. -/
theorem hash_proofs_verify {sha256 : List UInt8 → Id32} {fileRoot : Id32} {fileLength : UInt64} {pieceLength : UInt32}
    {layerBytes : List UInt8} {t : MerkleProofTable}
    (ht : fromLayerBytes sha256 fileRoot fileLength pieceLength layerBytes = .ok t)
    (hfit : divCeil fileLength.toNat pieceLength.toNat < 2 ^ 32) {baseLayer index length proofLayers : UInt32} {out : List UInt8}
    (h : t.hashesForRequest sha256 baseLayer index length proofLayers = some out) :
    ∃ base uncles : List Id32, out = (base ++ uncles).flatMap Id32.bytes ∧
      base.length = length.toNat ∧ (∀ i < length.toNat, base[i]? = some (t.upperLeaf sha256 (index.toNat + i))) ∧
      uncles.length = hashesUncleCount length proofLayers ∧
      ∃ node : Id32, node = Merkle.climb (hashPair sha256) (computeRoot sha256 base) (index.toNat / length.toNat) uncles ∧
        node = hashNode sha256 (t.upperLeaf sha256) (Nat.log 2 length.toNat + uncles.length)
          (index.toNat / length.toNat / 2 ^ uncles.length) ∧
        (∀ leaf : ℕ → Id32, t.TreeOf sha256 leaf →
          node = hashNode sha256 leaf (baseLayer.toNat + (Nat.log 2 length.toNat + uncles.length))
            (index.toNat / length.toNat / 2 ^ uncles.length)) ∧
        (t.rootHeight ≤ baseLayer.toNat + max (Nat.log 2 length.toNat) (proofLayers.toNat + 1) → node = fileRoot) := by
  obtain ⟨hs, hroot⟩ := sound_of_fromLayerBytes ht hfit
  obtain ⟨hne, hbase, s, a, hlen, hindex, hheight, hend, hout⟩ := hashesForRequest_some hs h
  have hlog : Nat.log 2 length.toNat = s := by rw [hlen, Nat.log_pow Nat.one_lt_two]
  have hdiv : index.toNat / length.toNat = a := by rw [hindex, hlen, Nat.mul_div_cancel a (Nat.two_pow_pos s)]
  have hcount := hashesUncleCount_eq proofLayers hlen
  have hclimb : Merkle.climb (hashPair sha256) (computeRoot sha256 _) a _ = _ :=
    climb_answer (t.upperLeaf sha256) s a (hashesUncleCount length proofLayers)
  refine ⟨_, _, hout, ?_, ?_, ?_, _, rfl, ?_, ?_, ?_⟩
  · rw [Merkle.length_level, hlen]
  · intro i hi
    rw [hlen] at hi
    rw [Merkle.getElem?_level hi, hindex]
    rfl
  · rw [Merkle.length_uncles]
  · rw [hdiv, hlog, Merkle.length_uncles]
    exact hclimb
  · intro leaf htree
    rw [hdiv, hlog, Merkle.length_uncles, hclimb, htree.hashNode_upperLeaf hs hne, hbase]
  · intro hreach
    have hnot : t.pieceRootHashes.isEmpty = false := by
      rw [List.isEmpty_eq_false_iff]
      exact hne
    rw [rootHeight, hnot, if_neg Bool.false_ne_true, hbase, hlog] at hreach
    have hK : t.upperHeight = s + hashesUncleCount length proofLayers := by omega
    rw [hdiv, hclimb, div_two_pow_eq_zero hend hK, ← hK, hashNode_upperLeaf_root hs hne, hroot]

/-- The first two pieces, proved up to the root. -/
theorem hash_proofs_verify_zeros : ∃ (out : List UInt8) (base uncles : List Id32),
    zeroTable.hashesForRequest zeroSha256 0 0 2 1 = some out ∧ out = (base ++ uncles).flatMap Id32.bytes ∧ base.length = 2 ∧
      uncles.length = 1 ∧ Merkle.climb (hashPair zeroSha256) (computeRoot zeroSha256 base) 0 uncles = zeroRoot := by
  have hout : zeroTable.hashesForRequest zeroSha256 0 0 2 1 = some ([zeroBlock, zeroBlock, zeroTail].flatMap Id32.bytes) := by
    decide +kernel
  obtain ⟨base, uncles, hbytes, hbase, -, huncles, node, hnode, -, -, hroot⟩ :=
    hash_proofs_verify fromLayerBytes_zeroTable (by decide) hout
  have hone : hashesUncleCount 2 1 = 1 := by decide +kernel
  refine ⟨_, base, uncles, hout, hbytes, hbase, huncles.trans hone, ?_⟩
  rw [← hroot (by decide +kernel), hnode]
  rfl

/-- A planned request for leaves: with the hashes of the blocks of the planned pieces, in any tree that the table stands for, the answer
is there. It holds the leaves that were asked for and the uncles, and folded and climbed they give the node of that tree, which is the
root of the file when the climb ends at its height. The blocks of a file whose pieces pass the check make such a tree. -/
theorem leaf_hash_plan {sha256 : List UInt8 → Id32} {fileRoot : Id32} {fileLength : UInt64} {pieceLength : UInt32}
    {layerBytes : List UInt8} {t : MerkleProofTable}
    (ht : fromLayerBytes sha256 fileRoot fileLength pieceLength layerBytes = .ok t)
    (hfit : divCeil fileLength.toNat pieceLength.toNat < 2 ^ 32) {index length proofLayers : UInt32} {pieces : List UInt32}
    (h : t.leafRequestPieces index length proofLayers = some pieces) :
    (∀ leaf : ℕ → Id32, t.TreeOf sha256 leaf → ∀ pieceBlocks : UInt32 → Option (List Id32),
      (∀ p ∈ pieces, pieceBlocks p = some (t.leavesOfPiece leaf p)) →
      ∃ base uncles : List Id32,
        t.answerLeafRequest sha256 index length proofLayers pieceBlocks = some ((base ++ uncles).flatMap Id32.bytes) ∧
        base.length = length.toNat ∧ (∀ i < length.toNat, base[i]? = some (leaf (index.toNat + i))) ∧
        uncles.length = hashesUncleCount length proofLayers ∧
        ∃ node : Id32, node = Merkle.climb (hashPair sha256) (computeRoot sha256 base) (index.toNat / length.toNat) uncles ∧
          node = hashNode sha256 leaf (Nat.log 2 length.toNat + uncles.length) (index.toNat / length.toNat / 2 ^ uncles.length) ∧
          (t.rootHeight ≤ max (Nat.log 2 length.toNat) (proofLayers.toNat + 1) → node = fileRoot)) ∧
    ∀ data : List UInt8, data.length = t.fileLength.toNat →
      (∀ p < t.pieceCount, t.verifyPiece sha256 p (t.pieceBytes data p) = .ok ()) →
      t.TreeOf sha256 (blockLeaf sha256 data) ∧
        ∀ p : UInt32, t.leavesOfPiece (blockLeaf sha256 data) p = blockHashes sha256 (t.pieceBytes data p) := by
  obtain ⟨hs, hroot⟩ := sound_of_fromLayerBytes ht hfit
  constructor
  · intro leaf htree pieceBlocks hblocks
    obtain ⟨s, a, hlen, hindex, hheight, hend, hanswer⟩ := answerLeafRequest_of_plan hs htree h hblocks
    have hlog : Nat.log 2 length.toNat = s := by rw [hlen, Nat.log_pow Nat.one_lt_two]
    have hdiv : index.toNat / length.toNat = a := by rw [hindex, hlen, Nat.mul_div_cancel a (Nat.two_pow_pos s)]
    have hcount := hashesUncleCount_eq proofLayers hlen
    have hclimb : Merkle.climb (hashPair sha256) (computeRoot sha256 _) a _ = _ :=
      climb_answer leaf s a (hashesUncleCount length proofLayers)
    refine ⟨_, _, hanswer, ?_, ?_, ?_, _, rfl, ?_, ?_⟩
    · rw [Merkle.length_level, hlen]
    · intro i hi
      rw [hlen] at hi
      rw [Merkle.getElem?_level hi, hindex]
      rfl
    · rw [Merkle.length_uncles]
    · rw [hdiv, hlog, Merkle.length_uncles]
      exact hclimb
    · intro hreach
      rw [hlog] at hreach
      have hK : t.rootHeight = s + hashesUncleCount length proofLayers := by omega
      rw [hdiv, hclimb, div_two_pow_eq_zero hend hK, ← hK, htree.root hs, hroot]
  · intro data hdata hpieces
    have hpos : 0 < t.fileLength.toNat := by
      rw [Nat.pos_iff_ne_zero]
      intro hzero
      have hempty : t.fileLength = 0 := UInt64.toNat_inj.mp hzero
      unfold leafRequestPieces at h
      rw [hempty] at h
      cases h
    exact ⟨treeOf_blockLeaf hs hdata hpos hpieces, fun p => (blockHashes_pieceBytes hs hdata p).symm⟩

/-- The leaves of the file of zeros. -/
def zeroLeaf (b : ℕ) : Id32 := if b < 3 then zeroBlock else Id32.zero

/-- The last block and the padding beside it, planned with the piece they need and proved up to the root. -/
theorem leaf_hash_plan_zeros : zeroTable.leafRequestPieces 2 2 1 = some [2] ∧ ∃ base uncles : List Id32,
    zeroTable.answerLeafRequest zeroSha256 2 2 1 (fun p => if p = 2 then some [zeroBlock] else none) =
      some ((base ++ uncles).flatMap Id32.bytes) ∧ base.length = 2 ∧ uncles.length = 1 ∧
      Merkle.climb (hashPair zeroSha256) (computeRoot zeroSha256 base) 1 uncles = zeroRoot := by
  have hplan : zeroTable.leafRequestPieces 2 2 1 = some [2] := by decide +kernel
  have htree : zeroTable.TreeOf zeroSha256 zeroLeaf := by
    refine ⟨fun b hb => ?_, fun i hi => ?_, fun hempty => absurd hempty (by decide)⟩
    · have hcount : zeroTable.blockCount = 3 := by decide +kernel
      exact if_neg (by omega)
    · have hlayer : zeroTable.pieceLayerBase = 0 := by decide +kernel
      have hthree : ∀ i < 3, zeroLeaf i = zeroTable.pieceRootHashes.getD i Id32.zero := by decide +kernel
      have hleaf := hthree i hi
      rw [List.getD_eq_getElem?_getD, List.getElem?_eq_getElem hi, Option.getD_some] at hleaf
      rw [hlayer]
      exact hleaf
  have hleaves : zeroTable.leavesOfPiece zeroLeaf 2 = [zeroBlock] := by decide +kernel
  obtain ⟨base, uncles, hanswer, hbase, -, huncles, node, hnode, -, hroot⟩ :=
    (leaf_hash_plan fromLayerBytes_zeroTable (by decide) hplan).1 zeroLeaf htree
      (fun p => if p = 2 then some [zeroBlock] else none) (fun p hp => by
        rw [List.mem_singleton.mp hp, if_pos rfl, hleaves])
  have hone : hashesUncleCount 2 1 = 1 := by decide +kernel
  refine ⟨hplan, base, uncles, hanswer, hbase, huncles.trans hone, ?_⟩
  rw [← hroot (by decide +kernel), hnode]
  rfl

end MerkleProofTable

end Risuko
