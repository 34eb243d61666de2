import Risuko.Lemmas.LayerChunks

/-!
# Answers of proof tables

A proof table that was built from a layer (`Sound`) knows the tree of its file from the piece layer up. The answers to requests are
nodes of one height and the nodes beside the path above them, so that they lead to the node they meet (`climb_answer`). For requests
below the piece layer the blocks that the plan asks for are those the answer reads (`answerLeafRequest_of_plan`).
-/

namespace Risuko

theorem lt_divCeil_iff {a b i : ℕ} (hb : 0 < b) : i < divCeil a b ↔ i * b < a := by
  unfold divCeil
  rw [Nat.lt_iff_add_one_le, Nat.le_div_iff_mul_le hb, Nat.succ_mul]
  omega

theorem divCeil_le_iff {a b i : ℕ} (hb : 0 < b) : divCeil a b ≤ i ↔ a ≤ i * b := by
  rw [← not_lt, lt_divCeil_iff hb, not_lt]

/-! ## Levels -/

namespace Merkle

variable {H : Type*} {pair : H → H → H} {leaf : ℕ → H}

/-- An interval of a level is a level. -/
theorem take_drop_level {h start count a b : ℕ} (hab : a + b ≤ count) :
    ((level pair leaf h start count).drop a).take b = level pair leaf h (start + a) b := by
  unfold level
  rw [← List.map_drop, ← List.map_take, List.drop_range', List.take_range'_of_length_ge (by omega), Nat.mul_one]

/-- Which subtree of a height an interval of leaves is. -/
theorem lt_two_pow_sub {a s K : ℕ} (hs : s ≤ K) (h : a * 2 ^ s + 2 ^ s ≤ 2 ^ K) : a < 2 ^ (K - s) := by
  have hsplit : 2 ^ K = 2 ^ (K - s) * 2 ^ s := by rw [← pow_add, Nat.sub_add_cancel hs]
  rw [← Nat.succ_mul, hsplit] at h
  exact Nat.le_of_mul_le_mul_right h (Nat.two_pow_pos s)

/-- A path that starts inside a tree has a sibling at every step below the top. -/
theorem div_xor_lt {i h k j : ℕ} (hi : i < 2 ^ (h + k)) (hj : j < k) : i / 2 ^ j ^^^ 1 < 2 ^ (h + k - j) := by
  have hsplit : h + k = h + k - j + j := by omega
  have hpow : 2 ^ (h + k - j) = 2 * 2 ^ (h + k - j - 1) := by
    rw [← pow_succ']
    congr 1
    omega
  have hdiv : i / 2 ^ j < 2 ^ (h + k - j) := by
    rw [Nat.div_lt_iff_lt_mul (Nat.two_pow_pos j), ← pow_add, ← hsplit]
    exact hi
  generalize 2 ^ (h + k - j) = width at hpow hdiv ⊢
  generalize i / 2 ^ j = node at hdiv ⊢
  rcases Nat.mod_two_eq_zero_or_one node with hpar | hpar
  · rw [Nat.xor_one_of_even (Nat.even_iff.mpr hpar)]
    omega
  · rw [Nat.xor_one_of_odd (Nat.odd_iff.mpr hpar)]
    omega

end Merkle

/-! ## What a table knows -/

/-- The root of neighbours is the node above them. -/
theorem computeRoot_level {sha256 : List UInt8 → Id32} (leaf : ℕ → Id32) (h i k : ℕ) :
    computeRoot sha256 (Merkle.level (hashPair sha256) leaf h (i * 2 ^ k) (2 ^ k)) = hashNode sha256 leaf (h + k) i := by
  have hlen : (Merkle.level (hashPair sha256) leaf h (i * 2 ^ k) (2 ^ k)).length = 2 ^ k := Merkle.length_level _ _ _
  have hall : reduceAll sha256 (Merkle.level (hashPair sha256) leaf h (i * 2 ^ k) (2 ^ k)) = [hashNode sha256 leaf (h + k) i] :=
    reduceAll_level leaf h i
  generalize Merkle.level (hashPair sha256) leaf h (i * 2 ^ k) (2 ^ k) = l at hlen hall
  match l with
  | [] =>
    have := Nat.two_pow_pos k
    rw [List.length_nil] at hlen
    omega
  | [x] =>
    exact List.head_eq_of_cons_eq hall
  | a :: b :: rest =>
    have hsame : resize (a :: b :: rest) (nextPowerOfTwo (a :: b :: rest).length) Id32.zero = a :: b :: rest := by
      unfold nextPowerOfTwo resize
      rw [hlen, Nat.clog_pow 2 k Nat.one_lt_two, ← hlen, List.take_length, Nat.sub_self, List.replicate_zero, List.append_nil]
    unfold computeRoot
    rw [hsame, hall]
    rfl

namespace MerkleProofTable

variable {sha256 : List UInt8 → Id32} {t : MerkleProofTable}

/-- The height of the root over the piece layer. -/
abbrev upperHeight (t : MerkleProofTable) : ℕ := Nat.clog 2 t.pieceCount.toNat

/-- The height of the root over the blocks. -/
def rootHeight (t : MerkleProofTable) : ℕ :=
  if t.pieceRootHashes.isEmpty then Nat.clog 2 (max t.blockCount 1) else t.pieceLayerBase + t.upperHeight

/-- The piece layer, padded without end. -/
abbrev upperLeaf (sha256 : List UInt8 → Id32) (t : MerkleProofTable) : ℕ → Id32 :=
  leavesOf t.pieceRootHashes (padHash sha256 t.blocksPerPiece.toNat)

/-- What `fromLayerBytes` makes sure of, when the number of pieces fits its word. -/
structure Sound (sha256 : List UInt8 → Id32) (t : MerkleProofTable) : Prop where
  blocks : ∃ k < 18, t.blocksPerPiece.toNat = 2 ^ k ∧ t.pieceLength.toNat = 2 ^ k * blockSize
  count : t.pieceCount.toNat = divCeil t.fileLength.toNat t.pieceLength.toNat
  single : t.pieceRootHashes = [] → t.fileLength.toNat ≤ t.pieceLength.toNat
  length_eq : t.pieceRootHashes ≠ [] → t.pieceRootHashes.length = t.pieceCount.toNat
  many : t.pieceRootHashes ≠ [] → 2 ≤ t.pieceCount.toNat
  root : t.pieceRootHashes ≠ [] → pieceLayerRoot sha256 t.pieceRootHashes t.blocksPerPiece.toNat = t.fileRoot

/-- A table is built only from a layer that leads to the root of its file. -/
theorem sound_of_fromLayerBytes {fileRoot : Id32} {fileLength : UInt64} {pieceLength : UInt32} {layerBytes : List UInt8}
    (h : fromLayerBytes sha256 fileRoot fileLength pieceLength layerBytes = .ok t)
    (hfit : divCeil fileLength.toNat pieceLength.toNat < 2 ^ 32) : t.Sound sha256 ∧ t.fileRoot = fileRoot := by
  unfold fromLayerBytes at h
  split at h
  · cases h
  rename_i hbad
  simp only [Bool.or_eq_true, Bool.not_eq_true', decide_eq_true_eq, not_or, Bool.not_eq_false, not_lt] at hbad
  obtain ⟨⟨e, he⟩, hblock⟩ := And.imp_left isPowerOfTwo_iff.mp hbad
  have hblocks : ∃ k < 18, pieceLength.toNat / blockSize = 2 ^ k ∧ pieceLength.toNat = 2 ^ k * blockSize := by
    have hbs : blockSize = 2 ^ 14 := rfl
    have hlt := pieceLength.toNat_lt
    have h14 : 14 ≤ e := by
      apply (Nat.pow_le_pow_iff_right Nat.one_lt_two).mp
      rw [← he]
      exact hblock
    have h32 : e < 32 := by
      apply (Nat.pow_lt_pow_iff_right Nat.one_lt_two).mp
      rw [← he]
      exact hlt
    refine ⟨e - 14, by omega, ?_, ?_⟩
    · rw [he, hbs, Nat.pow_div h14 (Nat.succ_pos 1)]
    · rw [he, hbs, ← pow_add]
      congr 1
      omega
  have hcount : (pieceCountOf fileLength pieceLength).toNat = divCeil fileLength.toNat pieceLength.toNat := by
    rw [pieceCountOf, UInt32.toNat_ofNat']
    exact Nat.mod_eq_of_lt hfit
  dsimp only at h
  split at h
  · rename_i hshort
    split at h
    · cases h
    · cases h
      refine ⟨⟨?_, hcount, fun _ => hshort, fun hne => absurd rfl hne, fun hne => absurd rfl hne, fun hne => absurd rfl hne⟩, rfl⟩
      dsimp only
      rw [toNat_blocksPerPiece]
      exact hblocks
  · rename_i hlong
    split at h
    · cases h
    split at h
    · cases h
    rename_i hlen
    split at h
    · cases h
    · rename_i hroot
      cases h
      have htwo : 2 ≤ (pieceCountOf fileLength pieceLength).toNat := by
        rw [hcount, Nat.succ_le_iff, lt_divCeil_iff (Nat.lt_of_lt_of_le (by decide) hblock), one_mul]
        exact not_le.mp hlong
      have hne : hashesOf layerBytes ≠ [] := by
        intro hnil
        have hz := length_hashesOf layerBytes
        rw [hnil, List.length_nil] at hz
        omega
      refine ⟨⟨?_, hcount, fun hnil => absurd hnil hne, fun _ => ?_, fun _ => htwo, fun _ => not_not.mp hroot⟩, rfl⟩
      · dsimp only
        rw [toNat_blocksPerPiece]
        exact hblocks
      · dsimp only
        rw [length_hashesOf]
        exact not_not.mp hlen

/-- A table is of the file and the piece length that it was asked for. -/
theorem geometry_of_fromLayerBytes {fileRoot : Id32} {fileLength : UInt64} {pieceLength : UInt32} {layerBytes : List UInt8}
    (h : fromLayerBytes sha256 fileRoot fileLength pieceLength layerBytes = .ok t) :
    t.fileLength = fileLength ∧ t.pieceLength = pieceLength ∧ t.pieceCount = pieceCountOf fileLength pieceLength := by
  unfold fromLayerBytes at h
  split at h
  · cases h
  dsimp only at h
  split at h
  · split at h
    · cases h
    · cases h
      exact ⟨rfl, rfl, rfl⟩
  · split at h
    · cases h
    split at h
    · cases h
    split at h
    · cases h
    · cases h
      exact ⟨rfl, rfl, rfl⟩

/-! ## The upper layers -/

/-- The width of the padded piece layer. Where it does not fit its word it becomes zero, and no request is answered. -/
theorem toNat_pieceLayerPaddedLen (hs : t.Sound sha256) (hne : t.pieceRootHashes ≠ []) :
    (t.upperHeight < 32 ∧ t.pieceLayerPaddedLen.toNat = 2 ^ t.upperHeight) ∨
      t.pieceLayerPaddedLen.toNat = 0 := by
  have hmany := hs.many hne
  have hempty : t.pieceRootHashes.isEmpty = false := by
    rw [List.isEmpty_eq_false_iff]
    exact hne
  have hmax : max (nextPowerOfTwo t.pieceCount.toNat) 2 = 2 ^ t.upperHeight := by
    apply max_eq_left
    exact hmany.trans (Nat.le_pow_clog Nat.one_lt_two _)
  unfold pieceLayerPaddedLen
  rw [hempty, if_neg Bool.false_ne_true, hmax, UInt32.toNat_ofNat']
  have hle : t.upperHeight ≤ 32 := (Nat.clog_le_iff_le_pow Nat.one_lt_two).mpr t.pieceCount.toNat_lt.le
  rcases Nat.lt_or_eq_of_le hle with hlt | heq
  · left
    exact ⟨hlt, Nat.mod_eq_of_lt (Nat.pow_lt_pow_right Nat.one_lt_two hlt)⟩
  · right
    rw [heq]
    rfl

theorem upperLayers_eq (hs : t.Sound sha256) (hne : t.pieceRootHashes ≠ [])
    (hpad : t.pieceLayerPaddedLen.toNat = 2 ^ t.upperHeight) :
    t.upperLayers sha256 = (List.range (t.upperHeight + 1)).map (fun j =>
      Merkle.level (hashPair sha256) (t.upperLeaf sha256) j 0
        (2 ^ (t.upperHeight - j))) := by
  have hlen : t.pieceRootHashes.length ≤ 2 ^ t.upperHeight := by
    rw [hs.length_eq hne]
    exact Nat.le_pow_clog Nat.one_lt_two _
  unfold upperLayers
  dsimp only
  rw [hpad, resize_eq_level (hashPair sha256) hlen]
  have hlayers : Merkle.layers (hashPair sha256) (2 ^ t.upperHeight)
      (Merkle.level (hashPair sha256) (t.upperLeaf sha256) 0 0 (2 ^ t.upperHeight)) = _ :=
    Merkle.layers_level (Nat.le_of_lt Nat.lt_two_pow_self) 0
  simp only [Nat.zero_add] at hlayers
  exact hlayers

/-- The top of the upper layers is the root of the file. -/
theorem hashNode_upperLeaf_root (hs : t.Sound sha256) (hne : t.pieceRootHashes ≠ []) :
    hashNode sha256 (t.upperLeaf sha256) t.upperHeight 0 = t.fileRoot := by
  have hroot := hs.root hne
  unfold pieceLayerRoot nextPowerOfTwo at hroot
  rw [computeRootWithPad_eq_node (Nat.le_pow_clog Nat.one_lt_two _), hs.length_eq hne] at hroot
  exact hroot

/-! ## Requests to the piece layer -/

/-- The siblings that the loop reads are those beside the path. -/
theorem layerUncles_levels (leaf : ℕ → Id32) {K s u i : ℕ} (hu : s + u ≤ K) (hi : i < 2 ^ (K - s)) :
    layerUncles ((List.range' s u).map fun j => Merkle.level (hashPair sha256) leaf j 0 (2 ^ (K - j))) i =
      Merkle.uncles (hashPair sha256) leaf s i u := by
  induction u generalizing s i with
  | zero => rfl
  | succ u ih =>
    have hsib := Merkle.div_xor_lt (h := 0) (k := K - s) (j := 0) (i := i) (by rwa [Nat.zero_add]) (by omega)
    rw [pow_zero, Nat.div_one, Nat.zero_add, Nat.sub_zero] at hsib
    have hnext : i / 2 < 2 ^ (K - (s + 1)) := by
      have hpow : 2 ^ (K - s) = 2 ^ (K - (s + 1)) * 2 := by
        rw [← pow_succ]
        congr 1
        omega
      rw [Nat.div_lt_iff_lt_mul (Nat.succ_pos 1), ← hpow]
      exact hi
    rw [List.range'_succ, List.map_cons, layerUncles, List.getD_eq_getElem?_getD, Merkle.getElem?_level hsib, Option.getD_some,
      Nat.zero_add, ih (by omega) hnext]
    rfl

/-- What `hashes_for_request` answers, and what it has checked. -/
theorem hashesForRequest_some (hs : t.Sound sha256) {baseLayer index length proofLayers : UInt32} {out : List UInt8}
    (h : t.hashesForRequest sha256 baseLayer index length proofLayers = some out) :
    t.pieceRootHashes ≠ [] ∧ baseLayer.toNat = t.pieceLayerBase ∧ ∃ s a, length.toNat = 2 ^ s ∧ index.toNat = a * 2 ^ s ∧
      s + hashesUncleCount length proofLayers ≤ t.upperHeight ∧
      a * 2 ^ s + 2 ^ s ≤ 2 ^ t.upperHeight ∧
      out = (Merkle.level (hashPair sha256) (t.upperLeaf sha256) 0 (a * 2 ^ s) (2 ^ s) ++
        Merkle.uncles (hashPair sha256) (t.upperLeaf sha256) s a
          (hashesUncleCount length proofLayers)).flatMap Id32.bytes := by
  unfold hashesForRequest at h
  split at h
  · cases h
  rename_i hbase
  simp only [Bool.or_eq_true, List.isEmpty_iff, decide_eq_true_eq, not_or, not_not] at hbase
  split at h
  · cases h
  rename_i hpow
  simp only [Bool.or_eq_true, decide_eq_true_eq, Bool.not_eq_true', not_or, Bool.not_eq_false, not_lt] at hpow
  obtain ⟨s, hlen⟩ := isPowerOfTwo_iff.mp hpow.1.2
  split at h
  · cases h
  rename_i hmod
  dsimp only at h
  split at h
  · cases h
  split at h
  · cases h
  rename_i hend
  split at h
  · cases h
  · rename_i hheight
    obtain ⟨a, ha⟩ := Nat.dvd_of_mod_eq_zero (not_not.mp hmod)
    rw [hlen, Nat.mul_comm] at ha
    refine ⟨hbase.1, hbase.2, s, a, hlen, ha, ?_⟩
    have hs32 : s ≤ 32 := by
      apply (Nat.pow_le_pow_iff_right Nat.one_lt_two).mp
      rw [← hlen]
      exact length.toNat_lt.le
    rw [hlen, trailingZeros_two_pow hs32, ha, Nat.mul_div_cancel a (Nat.two_pow_pos s)] at h
    rw [hlen, trailingZeros_two_pow hs32] at hheight
    rw [hlen, ha] at hend
    rcases toNat_pieceLayerPaddedLen hs hbase.1 with ⟨-, hpad⟩ | hzero
    · have hhead : (t.upperLayers sha256).headD [] =
          Merkle.level (hashPair sha256) (t.upperLeaf sha256) 0 0 (2 ^ t.upperHeight) := by
        rw [upperLayers_eq hs hbase.1 hpad, List.range_succ_eq_map]
        rfl
      rw [hhead, Merkle.length_level, not_lt] at hend
      rw [upperLayers_eq hs hbase.1 hpad, List.length_map, List.length_range, Nat.add_sub_cancel, not_lt] at hheight
      refine ⟨hheight, hend, ?_⟩
      have hinside := Merkle.lt_two_pow_sub (by omega) hend
      have hslice : ((t.upperLayers sha256).drop s).take (hashesUncleCount length proofLayers) =
          (List.range' s (hashesUncleCount length proofLayers)).map fun j =>
            Merkle.level (hashPair sha256) (t.upperLeaf sha256) j 0 (2 ^ (t.upperHeight - j)) := by
        rw [upperLayers_eq hs hbase.1 hpad, ← List.map_drop, ← List.map_take, List.range_eq_range', List.drop_range',
          List.take_range'_of_length_ge (by omega), Nat.zero_add, Nat.mul_one]
      rw [hhead, Merkle.take_drop_level hend, Nat.zero_add, hslice, layerUncles_levels _ hheight hinside] at h
      exact (Option.some.inj h).symm
    · have hnone : t.upperLayers sha256 = [[]] := by
        unfold upperLayers
        dsimp only
        rw [hzero, resize, List.take_zero, Nat.zero_sub]
        rfl
      rw [hnone] at hend
      have := Nat.two_pow_pos s
      rw [List.headD_cons, List.length_nil] at hend
      omega

/-! ## The tree over the blocks -/

/-- Hashes of blocks whose tree is that of the file: zeros behind its end, over the blocks of a piece the hash of the layer, and over
all blocks of a file without a layer its root. -/
structure TreeOf (sha256 : List UInt8 → Id32) (t : MerkleProofTable) (leaf : ℕ → Id32) : Prop where
  beyond : ∀ b, t.blockCount ≤ b → leaf b = Id32.zero
  pieces : ∀ i (h : i < t.pieceRootHashes.length), hashNode sha256 leaf t.pieceLayerBase i = t.pieceRootHashes[i]
  whole : t.pieceRootHashes = [] → hashNode sha256 leaf t.rootHeight 0 = t.fileRoot

theorem Sound.pieceLayerBase (hs : t.Sound sha256) : t.pieceLayerBase < 18 ∧ t.blocksPerPiece.toNat = 2 ^ t.pieceLayerBase ∧
    t.pieceLength.toNat = 2 ^ t.pieceLayerBase * blockSize := by
  obtain ⟨k, hk, hblocks, hlength⟩ := hs.blocks
  have hbase : t.pieceLayerBase = k := by
    unfold MerkleProofTable.pieceLayerBase
    rw [hblocks]
    exact trailingZeros_two_pow (by omega)
  rw [hbase]
  exact ⟨hk, hblocks, hlength⟩

/-- The pieces hold all blocks. -/
theorem Sound.blockCount_le (hs : t.Sound sha256) : t.blockCount ≤ t.pieceCount.toNat * 2 ^ t.pieceLayerBase := by
  obtain ⟨-, -, hlength⟩ := hs.pieceLayerBase
  have hpos : 0 < 2 ^ t.pieceLayerBase * blockSize := Nat.mul_pos (Nat.two_pow_pos _) (by decide)
  have hall : t.fileLength.toNat ≤ t.pieceCount.toNat * (2 ^ t.pieceLayerBase * blockSize) := by
    rw [← divCeil_le_iff hpos, ← hlength, hs.count]
  unfold blockCount
  rw [divCeil_le_iff (by decide), Nat.mul_assoc]
  exact hall

/-- A block of the file lies in one of its pieces. -/
theorem Sound.piece_lt (hs : t.Sound sha256) {b : ℕ} (hb : b < t.blockCount) : b / 2 ^ t.pieceLayerBase < t.pieceCount.toNat := by
  rw [Nat.div_lt_iff_lt_mul (Nat.two_pow_pos _)]
  exact hb.trans_le hs.blockCount_le

/-- The padded piece layer is a layer of the tree over the blocks. -/
theorem TreeOf.upperLeaf_eq {leaf : ℕ → Id32} (htree : t.TreeOf sha256 leaf) (hs : t.Sound sha256) (hne : t.pieceRootHashes ≠ []) :
    t.upperLeaf sha256 = hashNode sha256 leaf t.pieceLayerBase := by
  obtain ⟨hk, hblocks, -⟩ := hs.pieceLayerBase
  funext i
  by_cases hi : i < t.pieceRootHashes.length
  · rw [htree.pieces i hi, upperLeaf, leavesOf, List.getD_eq_getElem?_getD, List.getElem?_eq_getElem hi, Option.getD_some]
  · rw [not_lt] at hi
    rw [upperLeaf, leavesOf_of_le hi, hblocks, padHash_eq_node (by omega)]
    have hconst : Merkle.node (hashPair sha256) (fun _ => Id32.zero) t.pieceLayerBase i = padNode sha256 Id32.zero t.pieceLayerBase :=
      Merkle.node_const _ _ _
    rw [← hconst]
    apply Merkle.node_congr
    intro b hb _
    refine (htree.beyond b (hs.blockCount_le.trans (le_trans ?_ hb))).symm
    rw [hs.length_eq hne] at hi
    exact Nat.mul_le_mul_right _ hi

theorem TreeOf.hashNode_upperLeaf {leaf : ℕ → Id32} (htree : t.TreeOf sha256 leaf) (hs : t.Sound sha256)
    (hne : t.pieceRootHashes ≠ []) (j i : ℕ) :
    hashNode sha256 (t.upperLeaf sha256) j i = hashNode sha256 leaf (t.pieceLayerBase + j) i := by
  rw [htree.upperLeaf_eq hs hne]
  exact Merkle.node_node _ _ _

/-- The tree over the blocks leads to the root of the file. -/
theorem TreeOf.root {leaf : ℕ → Id32} (htree : t.TreeOf sha256 leaf) (hs : t.Sound sha256) :
    hashNode sha256 leaf t.rootHeight 0 = t.fileRoot := by
  by_cases hempty : t.pieceRootHashes = []
  · exact htree.whole hempty
  · have hnot : t.pieceRootHashes.isEmpty = false := by
      rw [List.isEmpty_eq_false_iff]
      exact hempty
    unfold rootHeight
    rw [hnot, if_neg Bool.false_ne_true, ← htree.hashNode_upperLeaf hs hempty]
    exact hashNode_upperLeaf_root hs hempty

/-! ## Answers -/

theorem hashesUncleCount_eq {length : UInt32} (proofLayers : UInt32) {s : ℕ} (hlen : length.toNat = 2 ^ s) :
    hashesUncleCount length proofLayers = proofLayers.toNat + 1 - s := by
  have hmax : max (2 ^ s) 1 = 2 ^ s := max_eq_left (Nat.two_pow_pos s)
  rw [hashesUncleCount, hlen, hmax, Nat.clog_pow 2 s Nat.one_lt_two]

/-- Neighbours and the nodes beside the path above them lead to the node of the tree where the path ends. -/
theorem climb_answer (leaf : ℕ → Id32) (s a u : ℕ) :
    Merkle.climb (hashPair sha256) (computeRoot sha256 (Merkle.level (hashPair sha256) leaf 0 (a * 2 ^ s) (2 ^ s))) a
      (Merkle.uncles (hashPair sha256) leaf s a u) = hashNode sha256 leaf (s + u) (a / 2 ^ u) := by
  rw [computeRoot_level, Nat.zero_add]
  exact Merkle.climb_uncles s a u

/-- A path that ends at the height of the root ends at the root. -/
theorem div_two_pow_eq_zero {a s u K : ℕ} (h : a * 2 ^ s + 2 ^ s ≤ 2 ^ K) (hK : K = s + u) : a / 2 ^ u = 0 := by
  have hlt := Merkle.lt_two_pow_sub (by omega) h
  rw [hK, Nat.add_sub_cancel_left] at hlt
  exact Nat.div_eq_of_lt hlt

end MerkleProofTable

end Risuko
