import Risuko.Lemmas.ProofTable

/-!
# The plan of a leaf request

`leafRequestPieces` says which pieces to read, and `answerLeafRequest` reads blocks of them. The range of the plan holds the blocks
asked for and those under every sibling below the piece layer (`leafRange_spec`), so that with the hashes of these pieces the answer
is complete (`answerLeafRequest_of_plan`).
-/

namespace Risuko

namespace MerkleProofTable

variable {sha256 : List UInt8 → Id32} {t : MerkleProofTable}
variable {leaf : ℕ → Id32} {pieceBlocks : UInt32 → Option (List Id32)} {i : ℕ} {data : List UInt8}

/-- Whether the node at a layer is read off the layers above the pieces. -/
def Upper (t : MerkleProofTable) (layer : ℕ) : Prop := t.pieceRootHashes ≠ [] ∧ t.pieceLayerBase ≤ layer

theorem upper_iff {layer : ℕ} : (!t.pieceRootHashes.isEmpty && decide (t.pieceLayerBase ≤ layer)) = true ↔ t.Upper layer := by
  simp [Upper]

/-- The range grows, and it covers the blocks under every sibling that is not read off the upper layers. -/
theorem leafRange_spec (t : MerkleProofTable) (u layer node lo hi : ℕ) :
    (t.leafRange u layer node (lo, hi)).1 ≤ lo ∧ hi ≤ (t.leafRange u layer node (lo, hi)).2 ∧
      ∀ j < u, ¬ t.Upper (layer + j) →
        (t.leafRange u layer node (lo, hi)).1 ≤ (node / 2 ^ j ^^^ 1) * 2 ^ (layer + j) ∧
          ((node / 2 ^ j ^^^ 1) + 1) * 2 ^ (layer + j) ≤ (t.leafRange u layer node (lo, hi)).2 := by
  induction u generalizing layer node lo hi with
  | zero => exact ⟨le_rfl, le_rfl, fun j hj => absurd hj (Nat.not_lt_zero j)⟩
  | succ u ih =>
    unfold leafRange
    by_cases hup : (!t.pieceRootHashes.isEmpty && decide (t.pieceLayerBase ≤ layer)) = true
    · rw [if_pos hup]
      obtain ⟨hne, hle⟩ := upper_iff.mp hup
      refine ⟨le_rfl, le_rfl, fun j _ hnot => ?_⟩
      exact absurd ⟨hne, hle.trans (Nat.le_add_right _ _)⟩ hnot
    · rw [if_neg hup]
      dsimp only
      obtain ⟨hlo, hhi, hsib⟩ := ih (layer + 1) (node / 2) (min lo ((node ^^^ 1) <<< layer)) (max hi (((node ^^^ 1) + 1) <<< layer))
      rw [Nat.shiftLeft_eq, Nat.shiftLeft_eq] at hlo hhi hsib ⊢
      refine ⟨hlo.trans (min_le_left _ _), (le_max_left _ _).trans hhi, fun j hj hnot => ?_⟩
      cases j with
      | zero =>
        rw [pow_zero, Nat.div_one, Nat.add_zero]
        exact ⟨hlo.trans (min_le_right _ _), (le_max_right _ _).trans hhi⟩
      | succ j =>
        have hnext := hsib j (by omega)
        rw [Nat.add_assoc, Nat.add_comm 1 j, Nat.div_div_eq_div_mul, ← pow_succ'] at hnext
        exact hnext hnot

/-! ## Blocks -/

/-- The hashes of the blocks of a piece. -/
def leavesOfPiece (t : MerkleProofTable) (leaf : ℕ → Id32) (p : UInt32) : List Id32 :=
  (List.range' (p.toNat * t.blocksPerPiece.toNat)
    (min t.blocksPerPiece.toNat (t.blockCount - p.toNat * t.blocksPerPiece.toNat))).map leaf

/-- Where the pieces of a range of blocks are there, each block of the range has its hash. -/
theorem blockHash_of_pieces (hs : t.Sound sha256) (hbeyond : ∀ b, t.blockCount ≤ b → leaf b = Id32.zero)
    {b : ℕ}
    (hblocks : b < t.blockCount →
      pieceBlocks (UInt32.ofNat (b / t.blocksPerPiece.toNat)) =
        some (t.leavesOfPiece leaf (UInt32.ofNat (b / t.blocksPerPiece.toNat)))) :
    t.blockHash pieceBlocks b = some (leaf b) := by
  unfold blockHash
  by_cases hb : t.blockCount ≤ b
  · rw [if_pos hb, hbeyond b hb]
  · rw [not_le] at hb
    obtain ⟨-, hbpp, -⟩ := hs.pieceLayerBase
    have hpiece : (UInt32.ofNat (b / t.blocksPerPiece.toNat)).toNat = b / t.blocksPerPiece.toNat := by
      have hlt := hs.piece_lt hb
      rw [← hbpp] at hlt
      rw [UInt32.toNat_ofNat']
      exact Nat.mod_eq_of_lt (hlt.trans t.pieceCount.toNat_lt)
    have hpos : 0 < t.blocksPerPiece.toNat := hbpp ▸ Nat.two_pow_pos _
    have hmod := Nat.mod_lt b hpos
    have hsplit := Nat.div_add_mod' b t.blocksPerPiece.toNat
    rw [if_neg (not_le.mpr hb)]
    dsimp only
    rw [hblocks hb, Option.bind_some, leavesOfPiece, hpiece, List.getElem?_map, List.getElem?_range' (by omega), Option.map_some,
      one_mul, hsplit]

/-- The range is read block by block. -/
theorem mapM_blockHash (sha256 : List UInt8 → Id32) (start count : ℕ)
    (h : ∀ b, start ≤ b → b < start + count → t.blockHash pieceBlocks b = some (leaf b)) :
    (List.range' start count).mapM (t.blockHash pieceBlocks) = some (Merkle.level (hashPair sha256) leaf 0 start count) := by
  induction count generalizing start with
  | zero => rfl
  | succ count ih =>
    have hfirst := h start le_rfl (by omega)
    have hrest := ih (start + 1) (fun b hb hb' => h b (by omega) (by omega))
    rw [List.range'_succ, List.mapM_cons, hfirst, hrest]
    rfl

/-! ## Nodes -/

/-- A node is computed from the blocks under it, or read off the upper layers. -/
theorem nodeHash_eq (hs : t.Sound sha256) (htree : t.TreeOf sha256 leaf)
    {layer : ℕ} (hlayer : layer < t.rootHeight) (hi : i < 2 ^ (t.rootHeight - layer))
    (hpad : t.pieceRootHashes ≠ [] → t.pieceLayerPaddedLen.toNat = 2 ^ t.upperHeight)
    (hblocks : ¬ t.Upper layer → ∀ b, i * 2 ^ layer ≤ b → b < (i + 1) * 2 ^ layer → t.blockHash pieceBlocks b = some (leaf b)) :
    t.nodeHash sha256 pieceBlocks layer i = some (hashNode sha256 leaf layer i) := by
  unfold nodeHash
  by_cases hup : (!t.pieceRootHashes.isEmpty && decide (t.pieceLayerBase ≤ layer)) = true
  · rw [if_pos hup]
    obtain ⟨hne, hle⟩ := upper_iff.mp hup
    have hnot : t.pieceRootHashes.isEmpty = false := by
      rw [List.isEmpty_eq_false_iff]
      exact hne
    rw [rootHeight, hnot, if_neg Bool.false_ne_true] at hlayer hi
    have hwidth : t.pieceLayerBase + t.upperHeight - layer = t.upperHeight - (layer - t.pieceLayerBase) := by omega
    rw [hwidth] at hi
    rw [upperLayers_eq hs hne (hpad hne), List.getElem?_map, List.getElem?_range (by omega), Option.map_some, Option.bind_some,
      Merkle.getElem?_level hi, Nat.zero_add]
    have hnode := htree.hashNode_upperLeaf hs hne (layer - t.pieceLayerBase) i
    rw [Nat.add_sub_cancel' hle] at hnode
    rw [← hnode]
  · rw [if_neg hup, Nat.shiftLeft_eq, Nat.shiftLeft_eq, Nat.succ_mul, Nat.add_sub_cancel_left]
    have hlevel := mapM_blockHash sha256 (i * 2 ^ layer) (2 ^ layer)
      (fun b hb hb' => hblocks (mt upper_iff.mpr hup) b hb (by rw [Nat.succ_mul]; exact hb'))
    rw [hlevel, Option.bind_some, reduceAll_level, Nat.zero_add]
    rfl

/-- The siblings that the answer reads are those beside the path. -/
theorem leafUncles_eq {u s : ℕ}
    (h : ∀ j < u, t.nodeHash sha256 pieceBlocks (s + j) (i / 2 ^ j ^^^ 1) = some (hashNode sha256 leaf (s + j) (i / 2 ^ j ^^^ 1))) :
    t.leafUncles sha256 pieceBlocks u s i = some (Merkle.uncles (hashPair sha256) leaf s i u) := by
  induction u generalizing s i with
  | zero => rfl
  | succ u ih =>
    have hfirst := h 0 (Nat.succ_pos u)
    rw [pow_zero, Nat.div_one, Nat.add_zero] at hfirst
    have hrest := ih (s := s + 1) (i := i / 2) (fun j hj => by
      have hnext := h (j + 1) (by omega)
      rw [Nat.add_assoc, Nat.add_comm 1 j, Nat.div_div_eq_div_mul, ← pow_succ']
      exact hnext)
    rw [leafUncles, hfirst, hrest]
    rfl

/-! ## The plan -/

theorem leafCount_eq (hs : t.Sound sha256) (hpos : 0 < t.leafCount) :
    t.leafCount = 2 ^ t.rootHeight ∧ t.rootHeight ≤ 64 ∧
      (t.pieceRootHashes ≠ [] → t.pieceLayerPaddedLen.toNat = 2 ^ t.upperHeight) := by
  obtain ⟨hk, hbpp, -⟩ := hs.pieceLayerBase
  unfold leafCount rootHeight at *
  by_cases hempty : t.pieceRootHashes = []
  · have hyes : t.pieceRootHashes.isEmpty = true := List.isEmpty_iff.mpr hempty
    rw [if_pos hyes, if_pos hyes]
    refine ⟨rfl, ?_, fun hne => absurd hempty hne⟩
    rw [Nat.clog_le_iff_le_pow Nat.one_lt_two]
    have hfile : t.blockCount ≤ t.fileLength.toNat := (divCeil_le_iff (by decide)).mpr (Nat.le_mul_of_pos_right _ (by decide))
    have hlt := t.fileLength.toNat_lt
    exact max_le (by omega) (by decide)
  · have hnot : t.pieceRootHashes.isEmpty = false := by
      rw [List.isEmpty_eq_false_iff]
      exact hempty
    rw [hnot, if_neg Bool.false_ne_true] at hpos
    rw [hnot, if_neg Bool.false_ne_true, if_neg Bool.false_ne_true]
    rcases toNat_pieceLayerPaddedLen hs hempty with ⟨hlt, hpad⟩ | hzero
    · refine ⟨?_, by omega, fun _ => hpad⟩
      rw [hbpp, hpad, pow_add]
    · rw [hzero, Nat.mul_zero] at hpos
      exact absurd hpos (lt_irrefl 0)

/-- The pieces from that of the first block of a range to that of the last one are the pieces of its blocks. -/
theorem mem_pieces (hs : t.Sound sha256) {lo hi b : ℕ} (hlo : lo ≤ b) (hhi : b < hi) (hend : hi ≤ t.blockCount) :
    UInt32.ofNat (b / t.blocksPerPiece.toNat) ∈
      (List.range' (UInt32.ofNat (lo / t.blocksPerPiece.toNat)).toNat
        ((UInt32.ofNat ((hi - 1) / t.blocksPerPiece.toNat)).toNat + 1 -
          (UInt32.ofNat (lo / t.blocksPerPiece.toNat)).toNat)).map UInt32.ofNat := by
  have hword : ∀ x < t.blockCount, (UInt32.ofNat (x / t.blocksPerPiece.toNat)).toNat = x / t.blocksPerPiece.toNat := by
    intro x hx
    have hlt := hs.piece_lt hx
    rw [← hs.pieceLayerBase.2.1] at hlt
    rw [UInt32.toNat_ofNat']
    exact Nat.mod_eq_of_lt (hlt.trans t.pieceCount.toNat_lt)
  rw [hword lo (by omega), hword (hi - 1) (by omega)]
  apply List.mem_map_of_mem
  have hfirst : lo / t.blocksPerPiece.toNat ≤ b / t.blocksPerPiece.toNat := Nat.div_le_div_right hlo
  have hlast : b / t.blocksPerPiece.toNat ≤ (hi - 1) / t.blocksPerPiece.toNat := Nat.div_le_div_right (by omega)
  rw [List.mem_range'_1]
  omega

/-- What the plan has checked, and that it names the piece of every block in the range. -/
theorem leafRequestPieces_some (hs : t.Sound sha256) {index length proofLayers : UInt32} {pieces : List UInt32}
    (h : t.leafRequestPieces index length proofLayers = some pieces) :
    ∃ s a, length.toNat = 2 ^ s ∧ index.toNat = a * 2 ^ s ∧ s + hashesUncleCount length proofLayers ≤ t.rootHeight ∧
      a * 2 ^ s + 2 ^ s ≤ 2 ^ t.rootHeight ∧ (t.pieceRootHashes ≠ [] → t.pieceLayerPaddedLen.toNat = 2 ^ t.upperHeight) ∧
      ∀ b < t.blockCount,
        (t.leafRange (hashesUncleCount length proofLayers) s a (a * 2 ^ s, a * 2 ^ s + 2 ^ s)).1 ≤ b →
        b < (t.leafRange (hashesUncleCount length proofLayers) s a (a * 2 ^ s, a * 2 ^ s + 2 ^ s)).2 →
        UInt32.ofNat (b / t.blocksPerPiece.toNat) ∈ pieces := by
  unfold leafRequestPieces at h
  split at h
  · cases h
  rename_i hpow
  simp only [Bool.or_eq_true, decide_eq_true_eq, Bool.not_eq_true', not_or, Bool.not_eq_false, not_lt] at hpow
  obtain ⟨s, hlen⟩ := isPowerOfTwo_iff.mp hpow.2
  split at h
  · cases h
  rename_i hmod
  simp only [Bool.or_eq_true, decide_eq_true_eq, not_or, not_not, not_lt] at hmod
  dsimp only at h
  split at h
  · cases h
  rename_i hend
  obtain ⟨hleaves, h64, hpad⟩ := leafCount_eq hs (by omega)
  obtain ⟨a, ha⟩ := Nat.dvd_of_mod_eq_zero hmod.2
  rw [hlen, Nat.mul_comm] at ha
  have hs32 : s ≤ 32 := by
    apply (Nat.pow_le_pow_iff_right Nat.one_lt_two).mp
    rw [← hlen]
    exact length.toNat_lt.le
  rw [hleaves, hlen, ha, not_lt] at hend
  rw [hleaves, trailingZeros_two_pow h64, hlen, trailingZeros_two_pow hs32, ha, Nat.mul_div_cancel a (Nat.two_pow_pos s)] at h
  split at h
  · cases h
  rename_i hheight
  refine ⟨s, a, hlen, ha, not_lt.mp hheight, hend, hpad, ?_⟩
  generalize t.leafRange (hashesUncleCount length proofLayers) s a (a * 2 ^ s, a * 2 ^ s + 2 ^ s) = range at h ⊢
  intro b hb hlo hhi
  split at h
  · rename_i hnone
    omega
  · cases h
    exact mem_pieces hs hlo (lt_min hhi hb) (min_le_right _ _)

/-- With the hashes of the blocks of the planned pieces the answer is complete. -/
theorem answerLeafRequest_of_plan (hs : t.Sound sha256) (htree : t.TreeOf sha256 leaf)
    {index length proofLayers : UInt32} {pieces : List UInt32} (h : t.leafRequestPieces index length proofLayers = some pieces)
    (hpieces : ∀ p ∈ pieces, pieceBlocks p = some (t.leavesOfPiece leaf p)) :
    ∃ s a, length.toNat = 2 ^ s ∧ index.toNat = a * 2 ^ s ∧ s + hashesUncleCount length proofLayers ≤ t.rootHeight ∧
      a * 2 ^ s + 2 ^ s ≤ 2 ^ t.rootHeight ∧
      t.answerLeafRequest sha256 index length proofLayers pieceBlocks =
        some ((Merkle.level (hashPair sha256) leaf 0 (a * 2 ^ s) (2 ^ s) ++
          Merkle.uncles (hashPair sha256) leaf s a (hashesUncleCount length proofLayers)).flatMap Id32.bytes) := by
  obtain ⟨s, a, hlen, hindex, hheight, hend, hpad, hcover⟩ := leafRequestPieces_some hs h
  refine ⟨s, a, hlen, hindex, hheight, hend, ?_⟩
  obtain ⟨hlo, hhi, hsib⟩ := leafRange_spec t (hashesUncleCount length proofLayers) s a (a * 2 ^ s) (a * 2 ^ s + 2 ^ s)
  generalize t.leafRange (hashesUncleCount length proofLayers) s a (a * 2 ^ s, a * 2 ^ s + 2 ^ s) = range at hlo hhi hsib hcover
  have hblock : ∀ b, range.1 ≤ b → b < range.2 → t.blockHash pieceBlocks b = some (leaf b) :=
    fun b hb hb' => blockHash_of_pieces hs htree.beyond (fun hlt => hpieces _ (hcover b hlt hb hb'))
  have hs32 : s ≤ 32 := by
    apply (Nat.pow_le_pow_iff_right Nat.one_lt_two).mp
    rw [← hlen]
    exact length.toNat_lt.le
  have hbase := mapM_blockHash sha256 (a * 2 ^ s) (2 ^ s)
    (fun b hb hb' => hblock b (hlo.trans hb) (hb'.trans_le hhi))
  have hinside := Merkle.lt_two_pow_sub (K := t.rootHeight) (by omega) hend
  have huncles : t.leafUncles sha256 pieceBlocks (hashesUncleCount length proofLayers) s a =
      some (Merkle.uncles (hashPair sha256) leaf s a (hashesUncleCount length proofLayers)) := leafUncles_eq (fun j hj => by
      have hwidth := Merkle.div_xor_lt (h := 0) (k := t.rootHeight - s) (j := j) (i := a) (by rwa [Nat.zero_add]) (by omega)
      rw [Nat.zero_add, Nat.sub_sub] at hwidth
      refine nodeHash_eq hs htree (by omega) hwidth hpad (fun hnot b hb hb' => ?_)
      obtain ⟨hl, hr⟩ := hsib j hj hnot
      exact hblock b (hl.trans hb) (hb'.trans_le hr))
  unfold answerLeafRequest
  rw [h, hlen, trailingZeros_two_pow hs32, hindex, Nat.mul_div_cancel a (Nat.two_pow_pos s), hbase]
  dsimp only
  rw [huncles]
  rfl

/-! ## Files that pass the check of pieces -/

/-- The hashes of the blocks of a file, with zeros behind its end. -/
def blockLeaf (sha256 : List UInt8 → Id32) (data : List UInt8) : ℕ → Id32 := leavesOf (blockHashes sha256 data) Id32.zero

/-- The bytes of a piece, as they are read to answer a request. -/
def pieceBytes (t : MerkleProofTable) (data : List UInt8) (p : UInt32) : List UInt8 :=
  (data.drop (p.toNat * t.pieceLength.toNat)).take t.pieceLength.toNat

theorem length_blockHashes (bytes : List UInt8) : (blockHashes sha256 bytes).length = divCeil bytes.length blockSize := by
  rw [blockHashes, List.length_map, chunks, List.length_map, List.length_range]

theorem getElem?_blockHashes {bytes : List UInt8} (hi : i < divCeil bytes.length blockSize) :
    (blockHashes sha256 bytes)[i]? = some (hashBlock sha256 ((bytes.drop (blockSize * i)).take blockSize)) := by
  rw [blockHashes, List.getElem?_map, chunks, List.getElem?_map, List.getElem?_range hi]
  rfl

theorem divCeil_sub_mul (a b c : ℕ) (hb : 0 < b) : divCeil (a - c * b) b = divCeil a b - c := by
  apply eq_of_forall_lt_iff
  intro i
  rw [lt_divCeil_iff hb, Nat.lt_sub_iff_add_lt, Nat.lt_sub_iff_add_lt, lt_divCeil_iff hb, Nat.add_mul]

theorem divCeil_min (a b c : ℕ) (hb : 0 < b) : divCeil (min (c * b) a) b = min c (divCeil a b) := by
  apply eq_of_forall_lt_iff
  intro i
  rw [lt_divCeil_iff hb, lt_min_iff, lt_min_iff, lt_divCeil_iff hb, Nat.mul_lt_mul_right hb]

/-- The blocks of a piece are blocks of the file. -/
theorem blockHashes_pieceBytes (hs : t.Sound sha256) (hdata : data.length = t.fileLength.toNat) (p : UInt32) :
    blockHashes sha256 (t.pieceBytes data p) = t.leavesOfPiece (blockLeaf sha256 data) p := by
  obtain ⟨-, hbpp, hpl⟩ := hs.pieceLayerBase
  rw [← hbpp] at hpl
  have hB : 0 < blockSize := by decide
  have hcount : divCeil (t.pieceBytes data p).length blockSize =
      min t.blocksPerPiece.toNat (t.blockCount - p.toNat * t.blocksPerPiece.toNat) := by
    rw [pieceBytes, List.length_take, List.length_drop, hdata, hpl, divCeil_min _ _ _ hB, ← Nat.mul_assoc,
      divCeil_sub_mul _ _ _ hB]
    rfl
  apply List.ext_getElem?
  intro i
  by_cases hi : i < divCeil (t.pieceBytes data p).length blockSize
  · rw [getElem?_blockHashes hi]
    rw [hcount, lt_min_iff] at hi
    have hin : p.toNat * t.blocksPerPiece.toNat + i < divCeil data.length blockSize := by
      rw [hdata]
      exact Nat.add_lt_of_lt_sub' hi.2
    rw [leavesOfPiece, List.getElem?_map, List.getElem?_range' (lt_min hi.1 hi.2), Option.map_some, one_mul, blockLeaf, leavesOf,
      List.getD_eq_getElem?_getD, getElem?_blockHashes hin, Option.getD_some]
    congr 2
    rw [pieceBytes, List.drop_take, List.take_take, List.drop_drop, hpl]
    congr 1
    · apply min_eq_left
      apply Nat.le_sub_of_add_le
      calc blockSize + blockSize * i = (i + 1) * blockSize := by ring
        _ ≤ t.blocksPerPiece.toNat * blockSize := Nat.mul_le_mul_right _ hi.1
    · congr 1
      ring
  · rw [List.getElem?_eq_none (by rw [length_blockHashes]; omega), List.getElem?_eq_none]
    rw [leavesOfPiece, List.length_map, List.length_range', ← hcount]
    omega

theorem root_of_verifyPiece {p : UInt32} {bytes : List UInt8} (h : t.verifyPiece sha256 p bytes = .ok ()) :
    (if t.pieceRootHashes.isEmpty then blocksRoot sha256 bytes else t.expectedPieceRoot sha256 bytes) =
      if t.pieceRootHashes.isEmpty then t.fileRoot else t.pieceRootHashes.getD p.toNat Id32.zero := by
  unfold verifyPiece at h
  split at h
  · cases h
  split at h
  · cases h
  · dsimp only at h
    by_contra hroot
    rw [if_pos hroot] at h
    cases h

/-- The root over the blocks of a piece is the node over them in the tree of the file. -/
theorem expectedPieceRoot_eq (hs : t.Sound sha256) (hdata : data.length = t.fileLength.toNat) (p : UInt32) :
    t.expectedPieceRoot sha256 (t.pieceBytes data p) = hashNode sha256 (blockLeaf sha256 data) t.pieceLayerBase p.toNat := by
  obtain ⟨-, hbpp, -⟩ := hs.pieceLayerBase
  have hfit : (t.leavesOfPiece (blockLeaf sha256 data) p).length ≤ 2 ^ t.pieceLayerBase := by
    rw [leavesOfPiece, List.length_map, List.length_range', hbpp]
    exact min_le_left _ _
  unfold expectedPieceRoot pieceRoot computeRootPadded
  rw [blockHashes_pieceBytes hs hdata, hbpp, computeRootWithPad_eq_node hfit, hashNode, hashNode, Merkle.node_shift _ p.toNat]
  apply Merkle.node_congr
  intro b _ hb
  rw [Nat.zero_add, one_mul] at hb
  by_cases hin : p.toNat * 2 ^ t.pieceLayerBase + b < t.blockCount
  · have hlt : b < min t.blocksPerPiece.toNat (t.blockCount - p.toNat * t.blocksPerPiece.toNat) := by
      rw [hbpp]
      omega
    rw [leavesOf, List.getD_eq_getElem?_getD, leavesOfPiece, List.getElem?_map, List.getElem?_range' hlt, Option.map_some, one_mul,
      hbpp, Option.getD_some]
  · have hbeyond : blockLeaf sha256 data (p.toNat * 2 ^ t.pieceLayerBase + b) = Id32.zero := by
      apply leavesOf_of_le
      rw [length_blockHashes, hdata]
      exact not_lt.mp hin
    rw [hbeyond]
    apply leavesOf_of_le
    rw [leavesOfPiece, List.length_map, List.length_range', hbpp]
    omega

/-- A file whose pieces all pass the check has the tree that its table stands for. -/
theorem treeOf_blockLeaf (hs : t.Sound sha256) (hdata : data.length = t.fileLength.toNat)
    (hpos : 0 < t.fileLength.toNat)
    (hpieces : ∀ p < t.pieceCount, t.verifyPiece sha256 p (t.pieceBytes data p) = .ok ()) :
    t.TreeOf sha256 (blockLeaf sha256 data) where
  beyond := by
    intro b hb
    apply leavesOf_of_le
    rw [length_blockHashes, hdata]
    exact hb
  pieces := by
    intro i hi
    have hne : t.pieceRootHashes ≠ [] := List.ne_nil_of_length_pos (Nat.zero_lt_of_lt hi)
    have hnot : t.pieceRootHashes.isEmpty = false := by
      rw [List.isEmpty_eq_false_iff]
      exact hne
    have hcount := hs.length_eq hne
    have hword : (UInt32.ofNat i).toNat = i := by
      rw [UInt32.toNat_ofNat']
      exact Nat.mod_eq_of_lt ((hcount ▸ hi).trans t.pieceCount.toNat_lt)
    have hlt : UInt32.ofNat i < t.pieceCount := by
      rw [UInt32.lt_iff_toNat_lt, hword, ← hcount]
      exact hi
    have hroot := root_of_verifyPiece (hpieces _ hlt)
    rw [hnot, if_neg Bool.false_ne_true, if_neg Bool.false_ne_true, expectedPieceRoot_eq hs hdata, hword,
      List.getD_eq_getElem?_getD, List.getElem?_eq_getElem hi, Option.getD_some] at hroot
    exact hroot
  whole := by
    intro hempty
    have hyes : t.pieceRootHashes.isEmpty = true := List.isEmpty_iff.mpr hempty
    have hblocks : 0 < t.blockCount := (lt_divCeil_iff (by decide)).mpr (by omega)
    obtain ⟨-, -, hpl⟩ := hs.pieceLayerBase
    have hplpos : 0 < t.pieceLength.toNat := by
      rw [hpl]
      exact Nat.mul_pos (Nat.two_pow_pos _) (by decide)
    have hlt : (0 : UInt32) < t.pieceCount := by
      rw [UInt32.lt_iff_toNat_lt, hs.count, lt_divCeil_iff hplpos]
      exact (Nat.zero_mul _).trans_lt hpos
    have hwhole : t.pieceBytes data 0 = data := by
      have hfirst : (0 : UInt32).toNat * t.pieceLength.toNat = 0 := Nat.zero_mul _
      rw [pieceBytes, hfirst, List.drop_zero, List.take_of_length_le (by rw [hdata]; exact hs.single hempty)]
    have hheight : Nat.clog 2 (blockHashes sha256 data).length = t.rootHeight := by
      rw [length_blockHashes, hdata, rootHeight, if_pos hyes]
      exact congrArg _ (max_eq_left hblocks).symm
    have hne : blockHashes sha256 data ≠ [] := by
      apply List.ne_nil_of_length_pos
      rw [length_blockHashes, hdata]
      exact hblocks
    have hroot := root_of_verifyPiece (hpieces 0 hlt)
    rw [if_pos hyes, if_pos hyes, hwhole, blocksRoot, computeRoot_eq_node hheight hne] at hroot
    exact hroot

end MerkleProofTable

end Risuko
