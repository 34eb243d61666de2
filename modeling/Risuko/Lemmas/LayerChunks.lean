import Risuko.Lemmas.MerkleTree
import Risuko.Merkle.ProofTable

/-!
# Piece layers in chunks

Statements about `fromLayerBytes` and `verifyPieceLayerChunks`: both compare one node with the root of the file, over the same leaves.
-/

namespace Risuko

/-! ## Hashes in bytes -/

theorem length_hashesOf (bytes : List UInt8) : (hashesOf bytes).length = bytes.length / 32 := by
  rw [hashesOf, List.length_map, List.length_range]

theorem getElem?_hashesOf {bytes : List UInt8} {i : ℕ} (h : i < bytes.length / 32) :
    (hashesOf bytes)[i]? = some (Id32.ofSlice (bytes.drop (32 * i))) := by
  rw [hashesOf, List.getElem?_map, List.getElem?_range h, Option.map_some]

theorem Id32.ofSlice_congr {s t : List UInt8} (hs : 32 ≤ s.length) (ht : 32 ≤ t.length) (h : s.take 32 = t.take 32) :
    Id32.ofSlice s = Id32.ofSlice t := by
  ext1
  rw [Id32.bytes_ofSlice hs, Id32.bytes_ofSlice ht, h]

theorem hashesOf_append {a : List UInt8} (h : 32 ∣ a.length) (b : List UInt8) : hashesOf (a ++ b) = hashesOf a ++ hashesOf b := by
  obtain ⟨n, hn⟩ := h
  apply List.ext_getElem?
  intro i
  by_cases hi : i < (a ++ b).length / 32
  · rw [getElem?_hashesOf hi]
    rw [List.length_append] at hi
    by_cases hin : i < n
    · have hia : i < a.length / 32 := by omega
      rw [List.getElem?_append_left (by rw [length_hashesOf]; exact hia), getElem?_hashesOf hia]
      congr 1
      have hdrop : (a ++ b).drop (32 * i) = a.drop (32 * i) ++ b := List.drop_append_of_le_length (by omega)
      apply Id32.ofSlice_congr
      · rw [List.length_drop, List.length_append]
        omega
      · rw [List.length_drop]
        omega
      · rw [hdrop, List.take_append_of_le_length (by rw [List.length_drop]; omega)]
    · have hlen : (hashesOf a).length = n := by
        rw [length_hashesOf]
        omega
      have hdrop : (a ++ b).drop (32 * i) = b.drop (32 * (i - n)) := by
        rw [List.drop_append, List.drop_of_length_le (by omega), List.nil_append]
        congr 1
        omega
      rw [List.getElem?_append_right (by omega), hlen, getElem?_hashesOf (by omega), hdrop]
  · have hlen : (hashesOf a ++ hashesOf b).length ≤ i := by
      rw [List.length_append, length_hashesOf, length_hashesOf]
      rw [List.length_append] at hi
      omega
    rw [List.getElem?_eq_none (by rw [length_hashesOf]; exact not_lt.mp hi), List.getElem?_eq_none hlen]

/-- Chunks of whole hashes hold the hashes of their concatenation. -/
theorem flatMap_hashesOf {chunks : List (List UInt8)} (h : ∀ c ∈ chunks, 32 ∣ c.length) :
    chunks.flatMap hashesOf = hashesOf chunks.flatten := by
  induction chunks with
  | nil => rfl
  | cons c rest ih =>
    obtain ⟨hc, hrest⟩ := List.forall_mem_cons.mp h
    rw [List.flatMap_cons, List.flatten_cons, hashesOf_append hc, ih hrest]

theorem hashesOf_take {bytes : List UInt8} {n : ℕ} (h : 32 * n ≤ bytes.length) :
    hashesOf (bytes.take (32 * n)) = (hashesOf bytes).take n := by
  have hlen : (bytes.take (32 * n)).length = 32 * n := by
    rw [List.length_take]
    omega
  have hsplit := hashesOf_append (hlen ▸ Dvd.intro n rfl) (bytes.drop (32 * n))
  rw [List.take_append_drop] at hsplit
  rw [hsplit, List.take_left' (by rw [length_hashesOf, hlen]; omega)]

theorem dvd_length_flatten {chunks : List (List UInt8)} (h : ∀ c ∈ chunks, 32 ∣ c.length) : 32 ∣ chunks.flatten.length := by
  induction chunks with
  | nil => exact Dvd.intro 0 rfl
  | cons c rest ih =>
    obtain ⟨hc, hrest⟩ := List.forall_mem_cons.mp h
    rw [List.flatten_cons, List.length_append]
    exact Dvd.dvd.add hc (ih hrest)

/-! ## The whole layer -/

namespace MerkleProofTable

variable {sha256 : List UInt8 → Id32} {fileRoot : Id32} {fileLength : UInt64} {pieceLength : UInt32}

/-- The number of blocks in a piece fits its word. -/
theorem toNat_blocksPerPiece (pieceLength : UInt32) :
    (UInt32.ofNat (pieceLength.toNat / blockSize)).toNat = pieceLength.toNat / blockSize := by
  have hlt := pieceLength.toNat_lt
  have hle := Nat.div_le_self pieceLength.toNat blockSize
  rw [UInt32.toNat_ofNat']
  exact Nat.mod_eq_of_lt (by omega)

/-- A file of more than one piece: its layer is accepted when it has a hash for every piece and the root is that of the file. -/
theorem fromLayerBytes_ok_iff {layerBytes : List UInt8} (hlong : pieceLength.toNat < fileLength.toNat) :
    (∃ t, fromLayerBytes sha256 fileRoot fileLength pieceLength layerBytes = .ok t) ↔
      isPowerOfTwo pieceLength.toNat = true ∧ blockSize ≤ pieceLength.toNat ∧ 32 ∣ layerBytes.length ∧
        layerBytes.length / 32 = (pieceCountOf fileLength pieceLength).toNat ∧
        pieceLayerRoot sha256 (hashesOf layerBytes) (pieceLength.toNat / blockSize) = fileRoot := by
  unfold fromLayerBytes
  by_cases hbad : (!isPowerOfTwo pieceLength.toNat || decide (pieceLength.toNat < blockSize)) = true
  · rw [if_pos hbad]
    simp only [Bool.or_eq_true, Bool.not_eq_true', decide_eq_true_eq] at hbad
    constructor
    · rintro ⟨t, ht⟩
      cases ht
    · rintro ⟨hpow, hblock, -⟩
      rcases hbad with hbad | hbad
      · rw [hpow] at hbad
        cases hbad
      · omega
  · rw [if_neg hbad]
    simp only [Bool.or_eq_true, Bool.not_eq_true', decide_eq_true_eq, not_or, Bool.not_eq_false, not_lt] at hbad
    dsimp only
    rw [if_neg (not_le.mpr hlong), toNat_blocksPerPiece]
    by_cases halign : layerBytes.length % 32 ≠ 0
    · rw [if_pos halign]
      constructor
      · rintro ⟨t, ht⟩
        cases ht
      · rintro ⟨-, -, hdvd, -⟩
        exact absurd (Nat.mod_eq_zero_of_dvd hdvd) halign
    · rw [if_neg halign]
      rw [not_not] at halign
      by_cases hcount : layerBytes.length / 32 ≠ (pieceCountOf fileLength pieceLength).toNat
      · rw [if_pos hcount]
        constructor
        · rintro ⟨t, ht⟩
          cases ht
        · rintro ⟨-, -, -, heq, -⟩
          exact absurd heq hcount
      · rw [if_neg hcount]
        rw [not_not] at hcount
        by_cases hroot : pieceLayerRoot sha256 (hashesOf layerBytes) (pieceLength.toNat / blockSize) ≠ fileRoot
        · rw [if_pos hroot]
          constructor
          · rintro ⟨t, ht⟩
            cases ht
          · rintro ⟨-, -, -, -, heq⟩
            exact absurd heq hroot
        · rw [if_neg hroot]
          rw [not_not] at hroot
          exact ⟨fun _ => ⟨hbad.1, hbad.2, Nat.dvd_of_mod_eq_zero halign, hcount, hroot⟩, fun _ => ⟨_, rfl⟩⟩

/-! ## The layer in chunks -/

/-- The loop over the hashes pushes them all when those behind the pieces are padding, and fails otherwise. -/
theorem foldHashes_eq {pieceCount : ℕ} {pad : Id32} {index : ℕ} {l : List Id32} {fold : LayerFold} :
    foldHashes sha256 pieceCount pad index l fold =
      if ∀ leaf ∈ l.drop (pieceCount - index), leaf = pad then .ok (l.foldl (LayerFold.push sha256) fold) else .error .rootMismatch := by
  induction l generalizing index fold with
  | nil =>
    rw [List.drop_nil, if_pos (fun leaf h => absurd h List.not_mem_nil)]
    rfl
  | cons leaf rest ih =>
    unfold foldHashes
    rw [List.foldl_cons]
    by_cases hidx : pieceCount ≤ index
    · have hz : pieceCount - index = 0 := Nat.sub_eq_zero_of_le hidx
      have hz' : pieceCount - (index + 1) = 0 := by omega
      simp only [hz, List.drop_zero, List.forall_mem_cons]
      by_cases hleaf : leaf = pad
      · have hcond : ¬ (decide (pieceCount ≤ index) && decide (leaf ≠ pad)) = true := by simp [hleaf]
        rw [if_neg hcond, ih, hz', List.drop_zero]
        simp only [hleaf, true_and]
      · have hcond : (decide (pieceCount ≤ index) && decide (leaf ≠ pad)) = true := by simp [hidx, hleaf]
        rw [if_pos hcond, if_neg (fun h => hleaf h.1)]
    · have hs : pieceCount - index = pieceCount - (index + 1) + 1 := by omega
      have hcond : ¬ (decide (pieceCount ≤ index) && decide (leaf ≠ pad)) = true := by simp [hidx]
      rw [if_neg hcond, ih, hs, List.drop_succ_cons]

/-- Chunks of whole hashes are checked as their concatenation is. -/
theorem verifyPieceLayerChunks_flatten {chunks : List (List UInt8)} (h : ∀ c ∈ chunks, 32 ∣ c.length) :
    verifyPieceLayerChunks sha256 fileRoot fileLength pieceLength chunks =
      verifyPieceLayerChunks sha256 fileRoot fileLength pieceLength [chunks.flatten] := by
  have haligned : (chunks.any fun chunk => decide (chunk.length % 32 ≠ 0)) = false := by
    rw [List.any_eq_false]
    intro c hc
    simp [Nat.mod_eq_zero_of_dvd (h c hc)]
  have hwhole : ([chunks.flatten].any fun chunk => decide (chunk.length % 32 ≠ 0)) = false := by
    rw [List.any_cons, List.any_nil, Nat.mod_eq_zero_of_dvd (dvd_length_flatten h)]
    rfl
  have hsum : ([chunks.flatten].map List.length).sum = (chunks.map List.length).sum := by
    rw [List.map_singleton, List.sum_singleton, List.length_flatten]
  have hhashes : [chunks.flatten].flatMap hashesOf = chunks.flatMap hashesOf := by
    rw [List.flatMap_singleton, flatMap_hashesOf h]
  unfold verifyPieceLayerChunks
  simp only [haligned, hwhole, hsum, hhashes]

/-- A chunk that is no whole number of hashes is refused. -/
theorem not_ok_of_not_dvd {chunks : List (List UInt8)} {c : List UInt8} (hc : c ∈ chunks) (h : ¬ 32 ∣ c.length) :
    verifyPieceLayerChunks sha256 fileRoot fileLength pieceLength chunks ≠ .ok () := by
  have hany : (chunks.any fun chunk => decide (chunk.length % 32 ≠ 0)) = true := by
    rw [List.any_eq_true]
    exact ⟨c, hc, decide_eq_true (fun hz => h (Nat.dvd_of_mod_eq_zero hz))⟩
  unfold verifyPieceLayerChunks
  intro hok
  split at hok
  · cases hok
  dsimp only at hok
  split at hok
  · cases hok
  · cases hok

/-- The leaves of a layer are those of its pieces when the rest is padding. -/
theorem leavesOf_take {l : List Id32} {n : ℕ} {pad : Id32} (h : ∀ leaf ∈ l.drop n, leaf = pad) :
    leavesOf (l.take n) pad = leavesOf l pad := by
  funext i
  unfold leavesOf
  rw [List.getD_eq_getElem?_getD, List.getD_eq_getElem?_getD]
  by_cases hi : i < n
  · rw [List.getElem?_take_of_lt hi]
  · rw [List.getElem?_eq_none (by rw [List.length_take]; omega), Option.getD_none]
    cases hget : l[i]? with
    | none => rfl
    | some leaf =>
      have hmem : leaf ∈ l.drop n := by
        refine List.mem_of_getElem? (i := i - n) ?_
        rw [List.getElem?_drop, ← hget]
        congr 1
        omega
      rw [Option.getD_some, h leaf hmem]

/-- The fold over a layer with padding behind its pieces ends at the root of the pieces. -/
theorem finish_eq_pieceLayerRoot {l : List Id32} {n blocks : ℕ} (hn : 1 < n) (hl : n ≤ l.length ∧ l.length ≤ nextPowerOfTwo n)
    (hpad : ∀ leaf ∈ l.drop n, leaf = padHash sha256 blocks) (hword : n < 2 ^ 64) :
    (l.foldl (LayerFold.push sha256) LayerFold.empty).finish sha256 (trailingZeros 64 (nextPowerOfTwo n)) (padHash sha256 blocks) =
      pieceLayerRoot sha256 (l.take n) blocks := by
  have hne : l ≠ [] := by
    rintro rfl
    exact absurd hl.1 (by rw [List.length_nil]; omega)
  have hlen : (l.take n).length = n := by
    rw [List.length_take]
    exact min_eq_left hl.1
  have hheight : trailingZeros 64 (nextPowerOfTwo n) = Nat.clog 2 n :=
    trailingZeros_two_pow ((Nat.clog_le_iff_le_pow Nat.one_lt_two).mpr hword.le)
  have htake : (l.take n).length ≤ 2 ^ Nat.clog 2 n := by
    rw [hlen]
    exact Nat.le_pow_clog Nat.one_lt_two n
  unfold pieceLayerRoot
  rw [hlen, hheight, LayerFold.finish_eq_node hne hl.2, nextPowerOfTwo, computeRootWithPad_eq_node htake, leavesOf_take hpad]

/-- The check of one chunk of whole hashes. -/
theorem verifyPieceLayerChunks_singleton_ok_iff {bytes : List UInt8} (hdvd : 32 ∣ bytes.length) :
    verifyPieceLayerChunks sha256 fileRoot fileLength pieceLength [bytes] = .ok () ↔
      2 ≤ (pieceCountOf fileLength pieceLength).toNat ∧ pieceLength.toNat < fileLength.toNat ∧
        bytes.length ≤ 32 * nextPowerOfTwo (pieceCountOf fileLength pieceLength).toNat ∧
        (∃ t, fromLayerBytes sha256 fileRoot fileLength pieceLength
          (bytes.take (32 * (pieceCountOf fileLength pieceLength).toNat)) = .ok t) ∧
        ∀ hash ∈ (hashesOf bytes).drop (pieceCountOf fileLength pieceLength).toNat,
          hash = padHash sha256 (pieceLength.toNat / blockSize) := by
  obtain ⟨received, hreceived⟩ := hdvd
  have hwhole : bytes.length / 32 = received := by omega
  generalize hn : (pieceCountOf fileLength pieceLength).toNat = n
  have hword : n < 2 ^ 64 := by
    have hlt := (pieceCountOf fileLength pieceLength).toNat_lt
    omega
  have hfirst : ∀ hlong : pieceLength.toNat < fileLength.toNat,
      ((∃ t, fromLayerBytes sha256 fileRoot fileLength pieceLength (bytes.take (32 * n)) = .ok t) ↔
        isPowerOfTwo pieceLength.toNat = true ∧ blockSize ≤ pieceLength.toNat ∧ n ≤ received ∧
          pieceLayerRoot sha256 ((hashesOf bytes).take n) (pieceLength.toNat / blockSize) = fileRoot) := by
    intro hlong
    rw [fromLayerBytes_ok_iff hlong, hn]
    by_cases hle : n ≤ received
    · have hlen : (bytes.take (32 * n)).length = 32 * n := by
        rw [List.length_take]
        omega
      rw [hashesOf_take (by omega), hlen]
      simp only [hle, Nat.dvd_mul_right, Nat.mul_div_cancel_left n (show 0 < 32 by decide), true_and]
    · rw [List.take_of_length_le (by omega), hwhole]
      simp only [hle, show ¬ received = n by omega, false_and, and_false]
  unfold verifyPieceLayerChunks
  rw [hn]
  by_cases hbad : (!isPowerOfTwo pieceLength.toNat || decide (pieceLength.toNat < blockSize)) = true
  · rw [if_pos hbad]
    simp only [Bool.or_eq_true, Bool.not_eq_true', decide_eq_true_eq] at hbad
    constructor
    · intro h
      cases h
    · rintro ⟨-, hlong, -, hok, -⟩
      obtain ⟨hpow, hblock, -⟩ := (hfirst hlong).mp hok
      rcases hbad with hbad | hbad
      · rw [hpow] at hbad
        cases hbad
      · omega
  · rw [if_neg hbad]
    simp only [Bool.or_eq_true, Bool.not_eq_true', decide_eq_true_eq, not_or, Bool.not_eq_false, not_lt] at hbad
    dsimp only
    by_cases hfew : (decide (n ≤ 1) || decide (fileLength.toNat ≤ pieceLength.toNat)) = true
    · rw [if_pos hfew]
      simp only [Bool.or_eq_true, decide_eq_true_eq] at hfew
      constructor
      · intro h
        cases h
      · rintro ⟨hn2, hlong, -⟩
        omega
    · rw [if_neg hfew]
      simp only [Bool.or_eq_true, decide_eq_true_eq, not_or, not_le] at hfew
      have haligned : ([bytes].any fun chunk => decide (chunk.length % 32 ≠ 0)) = false := by
        simp [hreceived]
      have hsum : ([bytes].map List.length).sum / 32 = received := by
        rw [List.map_singleton, List.sum_singleton, hwhole]
      have hpadded : max (nextPowerOfTwo n) 2 = nextPowerOfTwo n := by
        apply max_eq_left
        have hle : n ≤ nextPowerOfTwo n := Nat.le_pow_clog Nat.one_lt_two n
        omega
      rw [haligned, hsum, hpadded, if_neg Bool.false_ne_true, hfirst hfew.2, List.flatMap_singleton]
      by_cases hcount : (decide (received < n) || decide (nextPowerOfTwo n < received)) = true
      · rw [if_pos hcount]
        simp only [Bool.or_eq_true, decide_eq_true_eq] at hcount
        constructor
        · intro h
          cases h
        · rintro ⟨-, -, hmax, ⟨-, -, hle, -⟩, -⟩
          omega
      · rw [if_neg hcount, foldHashes_eq, Nat.sub_zero]
        simp only [Bool.or_eq_true, decide_eq_true_eq, not_or, not_lt] at hcount
        by_cases hpad : ∀ hash ∈ (hashesOf bytes).drop n, hash = padHash sha256 (pieceLength.toNat / blockSize)
        · rw [if_pos hpad]
          dsimp only
          rw [finish_eq_pieceLayerRoot hfew.1 (by rw [length_hashesOf, hwhole]; exact hcount) hpad hword]
          constructor
          · intro h
            split at h
            · cases h
            · rename_i hroot
              exact ⟨hfew.1, hfew.2, by omega, ⟨hbad.1, hbad.2, hcount.1, not_not.mp hroot⟩, hpad⟩
          · rintro ⟨-, -, -, ⟨-, -, -, hroot⟩, -⟩
            rw [if_neg (not_not.mpr hroot)]
        · rw [if_neg hpad]
          constructor
          · intro h
            cases h
          · rintro ⟨-, -, -, -, h⟩
            exact absurd h hpad

end MerkleProofTable

end Risuko
