import Risuko.Lib.Ranges
import Risuko.Ed2k.Chunks

/-!
# The accounting of a chunk manager

What the ranges, the counters and the requests of a `ChunkManager` have to do with each other (`ChunkManager.Sound`), and that every
operation keeps it. `insert_range` is `Ranges.insert`, and what it returns is the difference of the totals.
-/

namespace Risuko

namespace Ed2k

variable {s e i fileSize : ℕ} {L : List (ℕ × ℕ)} {rc : List ℕ}

/-! ## Ranges -/

/-- The loop of `insert_range` after the new range was placed. -/
theorem foldl_step_placed (hL : ∀ r ∈ L, e < r.1) {t : Inserting} (ht : t.placed = true) :
    L.foldl (Inserting.step s e) t = { t with out := t.out ++ L } := by
  induction L generalizing t with
  | nil => simp
  | cons r L ih =>
    obtain ⟨hr, hrest⟩ := List.forall_mem_cons.mp hL
    have hstep : Inserting.step s e t r = { t with out := t.out ++ [r] } := by
      rw [Inserting.step, if_pos (.inr hr), if_neg (by simp [ht])]
    rw [List.foldl_cons, hstep, ih hrest (t := { t with out := t.out ++ [r] }) ht]
    simp

theorem sum_overlap_of_after (hL : ∀ r ∈ L, e < r.1) :
    (L.map fun r => min r.2 e - max r.1 s).sum = 0 := by
  refine List.sum_eq_zero fun x hx => ?_
  obtain ⟨r, hr, rfl⟩ := List.mem_map.mp hx
  have := hL r hr
  omega

/-- The loop before that: it has joined the new range with the ranges that touch it, and what it sees of the rest is the same from the
joined range as from the new one. -/
theorem foldl_step (h : Ranges.Normal L) (hse : s < e) {t : Inserting} (ht : t.placed = false)
    (hlo : ∀ r ∈ L, (r.2 < s ↔ r.2 < t.start)) (hhi : ∀ r ∈ L, (e < r.1 ↔ t.stop < r.1)) (hs : t.start ≤ s) (he : e ≤ t.stop) :
    let u := L.foldl (Inserting.step s e) t
    (if u.placed then u.out else u.out ++ [(u.start, u.stop)]) = t.out ++ Ranges.insert t.start t.stop L ∧
      u.overlap = t.overlap + (L.map fun r => min r.2 e - max r.1 s).sum := by
  induction L generalizing t with
  | nil => simp [ht, Ranges.insert]
  | cons r L ih =>
    obtain ⟨hr, hgap, hrest⟩ := Ranges.normal_cons.mp h
    obtain ⟨hlor, hlo⟩ := List.forall_mem_cons.mp hlo
    obtain ⟨hhir, hhi⟩ := List.forall_mem_cons.mp hhi
    dsimp only at ih ⊢
    rw [List.foldl_cons, Ranges.insert, List.map_cons, List.sum_cons]
    by_cases hbefore : r.2 < s
    · have hstep : Inserting.step s e t r = { t with out := t.out ++ [r] } := by
        rw [Inserting.step, if_pos (.inl hbefore)]
        by_cases hafter : e < r.1
        · omega
        · rw [if_neg (by simp [hafter])]
      rw [hstep, if_pos (hlor.mp hbefore)]
      obtain ⟨hout, hoverlap⟩ := ih hrest (t := { t with out := t.out ++ [r] }) ht hlo hhi hs he
      rw [hout, hoverlap]
      exact ⟨by simp, by dsimp only; omega⟩
    · by_cases hafter : e < r.1
      · have hall : ∀ q ∈ L, e < q.1 := fun q hq => hafter.trans (hr.trans (hgap q hq))
        have hstep : Inserting.step s e t r = { t with out := t.out ++ [(t.start, t.stop), r], placed := true } := by
          rw [Inserting.step, if_pos (.inr hafter), if_pos ⟨hafter, ht⟩]
        rw [hstep, if_neg (fun hlt => hbefore (hlor.mpr hlt)), if_pos (hhir.mp hafter), foldl_step_placed hall rfl,
          sum_overlap_of_after hall]
        exact ⟨by simp, by dsimp only; omega⟩
      · have hstep : Inserting.step s e t r =
            { t with overlap := t.overlap + (min r.2 e - max r.1 s), start := min t.start r.1, stop := max t.stop r.2 } := by
          rw [Inserting.step, if_neg (by omega)]
        rw [hstep, if_neg (fun hlt => hbefore (hlor.mpr hlt)), if_neg (fun hlt => hafter (hhir.mpr hlt))]
        have hlo' : ∀ q ∈ L, (q.2 < s ↔ q.2 < min t.start r.1) := by
          intro q hq
          have h1 := hgap q hq
          have h2 := hrest.nonempty q hq
          omega
        have hhi' : ∀ q ∈ L, (e < q.1 ↔ max t.stop r.2 < q.1) := by
          intro q hq
          have h1 := hgap q hq
          have h2 := hhi q hq
          omega
        obtain ⟨hout, hoverlap⟩ := ih hrest
          (t := { t with overlap := t.overlap + (min r.2 e - max r.1 s), start := min t.start r.1, stop := max t.stop r.2 })
          ht hlo' hhi' (by dsimp only; omega) (by dsimp only; omega)
        rw [hout, hoverlap]
        exact ⟨rfl, by dsimp only; omega⟩

/-- `insert_range` adds the range, and returns by how much the total grows. -/
theorem insertRange_eq (h : Ranges.Normal L) (hlt : s < e) :
    (insertRange L s e).1 = Ranges.insert s e L ∧ Ranges.total L + (insertRange L s e).2 = Ranges.total (Ranges.insert s e L) := by
  obtain ⟨hout, hoverlap⟩ := foldl_step h hlt (t := ⟨s, e, 0, [], false⟩) rfl (fun _ _ => Iff.rfl) (fun _ _ => Iff.rfl) le_rfl le_rfl
  refine ⟨by rw [insertRange, hout, List.nil_append], ?_⟩
  rw [insertRange, hoverlap, Nat.zero_add, Ranges.total_insert h hlt]

theorem covers_iff (h : Ranges.Normal L) (hlt : s < e) :
    covers L s e = true ↔ Finset.Ico s e ⊆ Ranges.points L := by
  rw [← Ranges.exists_covering_iff h hlt]
  simp [covers]

/-! ## Tallies -/

theorem length_foldl_modify (f : ℕ → ℕ) (is rc : List ℕ) : (is.foldl (fun rc i => rc.modify i f) rc).length = rc.length := by
  induction is generalizing rc with
  | nil => rfl
  | cons j is ih => rw [List.foldl_cons, ih, List.length_modify]

theorem getD_modify {f : ℕ → ℕ} {j : ℕ} (hi : i < rc.length) :
    (rc.modify j f).getD i 0 = if j = i then f (rc.getD i 0) else rc.getD i 0 := by
  simp only [List.getD_eq_getElem?_getD, List.getElem?_modify, List.getElem?_eq_getElem hi]
  split <;> rfl

theorem getD_foldl_succ (is : List ℕ) (hi : i < rc.length) :
    (is.foldl (fun rc i => rc.modify i (· + 1)) rc).getD i 0 = rc.getD i 0 + is.count i := by
  induction is generalizing rc with
  | nil => rfl
  | cons j is ih =>
    rw [List.foldl_cons, ih (by rwa [List.length_modify]), getD_modify hi, List.count_cons]
    by_cases hji : j = i
    · rw [if_pos hji, if_pos (by simpa using hji)]
      omega
    · rw [if_neg hji, if_neg (by simpa using hji)]
      omega

theorem getD_foldl_pred (is : List ℕ) (hi : i < rc.length) :
    (is.foldl (fun rc i => rc.modify i (· - 1)) rc).getD i 0 = rc.getD i 0 - is.count i := by
  induction is generalizing rc with
  | nil => rfl
  | cons j is ih =>
    rw [List.foldl_cons, ih (by rwa [List.length_modify]), getD_modify hi, List.count_cons]
    by_cases hji : j = i
    · rw [if_pos hji, if_pos (by simpa using hji)]
      omega
    · rw [if_neg hji, if_neg (by simpa using hji)]
      omega

/-! ## Blocks -/

theorem ed2kBlockSize_pos : 0 < ed2kBlockSize := by decide

theorem mem_partBlocks {part pe n : ℕ} {b : Block} (h : b ∈ partBlocks part pe n s) :
    b.part = part ∧ s ≤ b.start ∧ b.start < b.stop ∧ b.stop ≤ pe := by
  have hpos := ed2kBlockSize_pos
  induction n generalizing s with
  | zero => cases h
  | succ n ih =>
    rw [partBlocks] at h
    split at h
    · rcases List.mem_cons.mp h with rfl | h
      · exact ⟨rfl, le_rfl, by dsimp only; omega, by dsimp only; omega⟩
      · obtain ⟨hpart, hstart, hlt, hstop⟩ := ih h
        exact ⟨hpart, by omega, hlt, hstop⟩
    · cases h

theorem mem_blocksBefore {n : ℕ} {b : Block} (h : b ∈ blocksBefore fileSize n) :
    b.part < n ∧ (chunkRange fileSize b.part).1 ≤ b.start ∧ b.start < b.stop ∧ b.stop ≤ (chunkRange fileSize b.part).2 := by
  induction n with
  | zero => cases h
  | succ n ih =>
    rcases List.mem_append.mp h with h | h
    · obtain ⟨hpart, hrest⟩ := ih h
      exact ⟨by omega, hrest⟩
    · obtain ⟨rfl, hrest⟩ := mem_partBlocks h
      exact ⟨Nat.lt_succ_self _, hrest⟩

theorem length_blocksBefore_mono (fileSize : ℕ) : Monotone fun n => (blocksBefore fileSize n).length := by
  refine monotone_nat_of_le_succ fun n => ?_
  simp [blocksBefore]

/-- A part is not empty. -/
theorem chunkRange_lt {part : ℕ} (h : part < chunkCount fileSize) : (chunkRange fileSize part).1 < (chunkRange fileSize part).2 := by
  unfold chunkCount at h
  split at h
  · omega
  · simp only [chunkRange, ed2kChunkSize] at h ⊢
    omega

theorem chunkRange_le (fileSize part : ℕ) : (chunkRange fileSize part).2 ≤ fileSize := Nat.min_le_right ..

/-- A byte of the file is in one part. -/
theorem chunkRange_unique {p q k : ℕ} (hp : (chunkRange fileSize p).1 ≤ k ∧ k < (chunkRange fileSize p).2)
    (hq : (chunkRange fileSize q).1 ≤ k ∧ k < (chunkRange fileSize q).2) : p = q := by
  simp only [chunkRange, ed2kChunkSize] at hp hq
  omega

/-- The accounting of one part, over the bytes of its range. -/
structure Part.Sound (t : Part) (range : ℕ × ℕ) : Prop where
  normal : Ranges.Normal t.covered
  inside : Ranges.points t.covered ⊆ Finset.Ico range.1 range.2
  bytes : t.bytes = Ranges.total t.covered
  full : t.status ≠ .missing → Ranges.points t.covered = Finset.Ico range.1 range.2

/-- Contents that agree on a part. -/
theorem partOf_congr {a b : List UInt8} {p : ℕ} (hlength : a.length = b.length)
    (h : ∀ k, (chunkRange a.length p).1 ≤ k → k < (chunkRange a.length p).2 → a[k]? = b[k]?) : partOf a p = partOf b p := by
  refine List.ext_getElem? fun k => ?_
  rw [partOf, partOf, ← hlength]
  simp only [List.getElem?_take, List.getElem?_drop]
  split
  · exact h _ (Nat.le_add_right ..) (by omega)
  · rfl

theorem length_partOf (content : List UInt8) (p : ℕ) :
    (partOf content p).length = (chunkRange content.length p).2 - (chunkRange content.length p).1 := by
  have hle := chunkRange_le content.length p
  rw [partOf, List.length_take, List.length_drop]
  omega

theorem Part.sound_full {t : Part} {range : ℕ × ℕ} (hlt : range.1 < range.2) (hcovered : t.covered = [range])
    (hbytes : t.bytes = range.2 - range.1) : t.Sound range where
  normal := hcovered ▸ .singleton hlt
  inside := by simp [hcovered]
  bytes := by simp [hcovered, hbytes, Ranges.total]
  full _ := by simp [hcovered]

namespace ChunkManager

variable {cm : ChunkManager} {p i peer : ℕ}

/-- A manager's lists fit together, as `new` builds them. -/
structure Laid (cm : ChunkManager) : Prop where
  parts : cm.parts.length = chunkCount cm.fileSize
  blocks : cm.blocks = blocksBefore cm.fileSize (chunkCount cm.fileSize)
  firstBlock : cm.firstBlock = (List.range (chunkCount cm.fileSize + 1)).map fun part => (blocksBefore cm.fileSize part).length
  reqCount : cm.reqCount.length = cm.blocks.length

/-- The accounting of a manager. -/
structure Sound (cm : ChunkManager) : Prop extends Laid cm where
  sound : ∀ p < chunkCount cm.fileSize, (cm.part p).Sound (chunkRange cm.fileSize p)
  completed : cm.completedLength = (cm.parts.map Part.bytes).sum
  requests : ∀ i < cm.blocks.length, cm.reqCount.getD i 0 = cm.peerBlocks.sumOf fun _ held => held.count i
  duplicates : ∀ i, cm.reqCount.getD i 0 ≤ maxDuplicateRequesters
  held : ∀ peer held, cm.peerBlocks.get? peer = some held → held.Nodup ∧ ∀ i ∈ held, i < cm.blocks.length

@[simp] theorem part_setPart_self (h : p < cm.parts.length) (t : Part) : (cm.setPart p t).part p = t := by
  simp [part, setPart, h]

theorem part_setPart_of_ne {q : ℕ} (h : q ≠ p) (t : Part) : (cm.setPart p t).part q = cm.part q := by
  simp [part, setPart, List.getElem?_set_ne h.symm]

theorem getElem?_parts (h : p < cm.parts.length) : cm.parts[p]? = some (cm.part p) := by
  simp [part, h]

theorem laid_new (fileSize : ℕ) (fileHash : Digest) : Laid (new fileSize fileHash) where
  parts := List.length_replicate
  blocks := rfl
  firstBlock := rfl
  reqCount := List.length_replicate

theorem Laid.getD_firstBlock (h : Laid cm) (hp : p ≤ chunkCount cm.fileSize) :
    cm.firstBlock.getD p 0 = (blocksBefore cm.fileSize p).length := by
  rw [h.firstBlock, List.getD_eq_getElem?_getD, List.getElem?_map, List.getElem?_range (by omega)]
  rfl

theorem Laid.mem_blockRange (h : Laid cm) (hp : p < chunkCount cm.fileSize) :
    i ∈ cm.blockRange p ↔ (blocksBefore cm.fileSize p).length ≤ i ∧ i < (blocksBefore cm.fileSize (p + 1)).length := by
  have hmono := length_blocksBefore_mono cm.fileSize (by omega : p ≤ p + 1)
  dsimp only at hmono
  rw [blockRange, h.getD_firstBlock hp.le, h.getD_firstBlock (by omega : p + 1 ≤ _), List.mem_range'_1]
  omega

theorem Laid.lt_of_mem_blockRange (h : Laid cm) (hp : p < chunkCount cm.fileSize)
    (hi : i ∈ cm.blockRange p) : i < cm.blocks.length := by
  have hmono := length_blocksBefore_mono cm.fileSize (by omega : p + 1 ≤ chunkCount cm.fileSize)
  have hlt := ((h.mem_blockRange hp).mp hi).2
  rw [h.blocks]
  exact hlt.trans_le hmono

/-- No block is in two parts. -/
theorem Laid.disjoint_blockRange (h : Laid cm) {q : ℕ} (hp : p < chunkCount cm.fileSize)
    (hq : q < chunkCount cm.fileSize) (hi : i ∈ cm.blockRange p) (hi' : i ∈ cm.blockRange q) : p = q := by
  obtain ⟨hlo, hhi⟩ := (h.mem_blockRange hp).mp hi
  obtain ⟨hlo', hhi'⟩ := (h.mem_blockRange hq).mp hi'
  rcases lt_trichotomy p q with hlt | rfl | hgt
  · have hmono := length_blocksBefore_mono cm.fileSize (by omega : p + 1 ≤ q)
    dsimp only at hmono
    omega
  · rfl
  · have hmono := length_blocksBefore_mono cm.fileSize (by omega : q + 1 ≤ p)
    dsimp only at hmono
    omega

/-- A block lies in the range of its part. -/
theorem Laid.block (h : Laid cm) (hi : i < cm.blocks.length) :
    (cm.block i).part < chunkCount cm.fileSize ∧ (chunkRange cm.fileSize (cm.block i).part).1 ≤ (cm.block i).start ∧
      (cm.block i).start < (cm.block i).stop ∧ (cm.block i).stop ≤ (chunkRange cm.fileSize (cm.block i).part).2 := by
  have hmem : cm.block i ∈ cm.blocks := by
    rw [ChunkManager.block, List.getD_eq_getElem?_getD, List.getElem?_eq_getElem hi]
    exact List.getElem_mem hi
  rw [h.blocks] at hmem
  exact mem_blocksBefore hmem

/-! ## Requests -/

theorem nodup_blockRange (cm : ChunkManager) (p : ℕ) : (cm.blockRange p).Nodup := List.nodup_range'

/-- Blocks of different parts, chosen by any test. -/
theorem Laid.nodup_flatMap (h : Laid cm) {parts : List ℕ} (hparts : ∀ p ∈ parts, p < chunkCount cm.fileSize)
    (hnodup : parts.Nodup) (test : ℕ → Bool) : (parts.flatMap fun p => (cm.blockRange p).filter test).Nodup := by
  refine List.nodup_flatMap.mpr ⟨fun p _ => (cm.nodup_blockRange p).filter _, ?_⟩
  refine hnodup.imp_of_mem fun hp hq hne => ?_
  intro i hi hi'
  exact hne (h.disjoint_blockRange (hparts _ hp) (hparts _ hq) (List.mem_of_mem_filter hi) (List.mem_of_mem_filter hi'))

theorem lt_of_mem_wantedParts {peerParts : List Bool} (h : p ∈ cm.wantedParts peerParts) :
    p < chunkCount cm.fileSize := List.mem_range.mp (List.mem_of_mem_filter h)

theorem nodup_wantedParts (cm : ChunkManager) (peerParts : List Bool) : (cm.wantedParts peerParts).Nodup := List.nodup_range.filter _

/-- The blocks that a peer may get: each once, and fewer than two peers hold it. -/
theorem Laid.freshBlocks (h : Laid cm) (peerParts : List Bool) :
    (cm.freshBlocks peerParts).Nodup ∧ ∀ i ∈ cm.freshBlocks peerParts, i < cm.blocks.length ∧ cm.reqCount.getD i 0 = 0 := by
  have hparts : ∀ started, ∀ p ∈ (cm.wantedParts peerParts).filter fun part => cm.partStarted part == started, p < chunkCount cm.fileSize :=
    fun _ p hp => lt_of_mem_wantedParts (List.mem_of_mem_filter hp)
  constructor
  · refine List.nodup_flatMap.mpr ⟨fun started _ => h.nodup_flatMap (hparts started) ((cm.nodup_wantedParts _).filter _) _, ?_⟩
    refine List.pairwise_pair.mpr ?_
    intro i hi hi'
    obtain ⟨p, hp, hi⟩ := List.mem_flatMap.mp hi
    obtain ⟨q, hq, hi'⟩ := List.mem_flatMap.mp hi'
    obtain rfl := h.disjoint_blockRange (hparts _ p hp) (hparts _ q hq) (List.mem_of_mem_filter hi) (List.mem_of_mem_filter hi')
    have hstarted := (List.mem_filter.mp hp).2
    have hnot := (List.mem_filter.mp hq).2
    rw [beq_iff_eq] at hstarted hnot
    rw [hstarted] at hnot
    cases hnot
  · intro i hi
    obtain ⟨started, -, hi⟩ := List.mem_flatMap.mp hi
    obtain ⟨p, hp, hi⟩ := List.mem_flatMap.mp hi
    obtain ⟨hi, htest⟩ := List.mem_filter.mp hi
    simp only [Bool.and_eq_true, beq_iff_eq] at htest
    exact ⟨h.lt_of_mem_blockRange (hparts _ p hp) hi, htest.1⟩

theorem Laid.endgameBlocks (h : Laid cm) (peerParts : List Bool) :
    (cm.endgameBlocks peerParts).Nodup ∧
      ∀ i ∈ cm.endgameBlocks peerParts, i < cm.blocks.length ∧ cm.reqCount.getD i 0 < maxDuplicateRequesters := by
  constructor
  · exact h.nodup_flatMap (fun p => lt_of_mem_wantedParts) (cm.nodup_wantedParts _) _
  · intro i hi
    obtain ⟨p, hp, hi⟩ := List.mem_flatMap.mp hi
    obtain ⟨hi, htest⟩ := List.mem_filter.mp hi
    simp only [Bool.and_eq_true, decide_eq_true_eq] at htest
    exact ⟨h.lt_of_mem_blockRange (lt_of_mem_wantedParts hp) hi, htest.1.2⟩

/-- Other requests of the peers, with the counters to match. -/
theorem Sound.requests_set (h : Sound cm) {rc : List ℕ} {pb : OrdMap ℕ (List ℕ)}
    (hlen : rc.length = cm.reqCount.length)
    (hreqs : ∀ i < cm.blocks.length, rc.getD i 0 = pb.sumOf fun _ held => held.count i)
    (hdup : ∀ i < cm.blocks.length, rc.getD i 0 ≤ maxDuplicateRequesters)
    (hheld : ∀ peer held, pb.get? peer = some held → held.Nodup ∧ ∀ i ∈ held, i < cm.blocks.length) :
    Sound { cm with reqCount := rc, peerBlocks := pb } := by
  refine { h with reqCount := hlen.trans h.reqCount, requests := hreqs, duplicates := ?_, held := hheld }
  intro i
  rcases Nat.lt_or_ge i cm.blocks.length with hi | hi
  · exact hdup i hi
  · have hnone : rc.getD i 0 = 0 := by
      rw [List.getD_eq_getElem?_getD, List.getElem?_eq_none (by rw [hlen, h.reqCount]; exact hi)]
      rfl
    exact hnone.le.trans (Nat.zero_le _)

/-- The share of a peer in the counter of a block. -/
theorem Sound.requests_peer (h : Sound cm) (peer : ℕ) (hi : i < cm.blocks.length) :
    cm.reqCount.getD i 0 =
      ((cm.peerBlocks.get? peer).getD []).count i + (cm.peerBlocks.erase peer).sumOf fun _ held => held.count i := by
  rw [h.requests i hi]
  cases hget : cm.peerBlocks.get? peer with
  | none => rw [OrdMap.erase_of_get?_none _ hget, Option.getD_none, List.count_nil, Nat.zero_add]
  | some held => rw [OrdMap.sumOf_erase _ _ hget, Option.getD_some]

theorem Sound.held_peer (h : Sound cm) (peer : ℕ) :
    ((cm.peerBlocks.get? peer).getD []).Nodup ∧ ∀ i ∈ (cm.peerBlocks.get? peer).getD [], i < cm.blocks.length := by
  cases hget : cm.peerBlocks.get? peer with
  | none => exact ⟨.nil, nofun⟩
  | some held => exact h.held peer held hget

theorem Sound.held_erase (h : Sound cm) (peer : ℕ) :
    ∀ p held, (cm.peerBlocks.erase peer).get? p = some held → held.Nodup ∧ ∀ i ∈ held, i < cm.blocks.length := by
  intro p held hget
  rw [OrdMap.get?_erase] at hget
  split at hget
  · cases hget
  · exact h.held p held hget

theorem Sound.held_insert (h : Sound cm) {mine : List ℕ}
    (hmine : mine.Nodup ∧ ∀ i ∈ mine, i < cm.blocks.length) (m : OrdMap ℕ (List ℕ)) (hm : m = cm.peerBlocks ∨ m = cm.peerBlocks.erase peer) :
    ∀ p held, (m.insert peer mine).get? p = some held → held.Nodup ∧ ∀ i ∈ held, i < cm.blocks.length := by
  intro p held hget
  rw [OrdMap.get?_insert] at hget
  split at hget
  · cases hget
    exact hmine
  · rcases hm with rfl | rfl
    · exact h.held p held hget
    · exact h.held_erase peer p held hget

theorem Sound.releasePeer (h : Sound cm) (peer : ℕ) : Sound (cm.releasePeer peer) := by
  have hcount : ∀ i < cm.blocks.length, (((cm.peerBlocks.get? peer).getD []).foldl (fun rc i => rc.modify i (· - 1)) cm.reqCount).getD i 0 =
      (cm.peerBlocks.erase peer).sumOf fun _ held => held.count i := by
    intro i hi
    rw [getD_foldl_pred _ (h.reqCount ▸ hi), h.requests_peer peer hi, Nat.add_sub_cancel_left]
  refine h.requests_set (length_foldl_modify ..) hcount ?_ (h.held_erase peer)
  intro i hi
  rw [getD_foldl_pred _ (h.reqCount ▸ hi)]
  exact (Nat.sub_le _ _).trans (h.duplicates i)

/-- A peer that gives up the blocks that are done keeps the others in its count. -/
theorem Sound.count_releaseDone (h : Sound cm) (peer : ℕ) (hi : i < cm.blocks.length) :
    (cm.releaseDone peer).2.reqCount.getD i 0 =
      (cm.releaseDone peer).1.count i + (cm.peerBlocks.erase peer).sumOf fun _ held => held.count i := by
  rw [releaseDone, getD_foldl_pred _ (h.reqCount ▸ hi), h.requests_peer peer hi]
  have hsplit := (List.filter_append_perm cm.blockDone ((cm.peerBlocks.get? peer).getD [])).count_eq i
  rw [List.count_append] at hsplit
  dsimp only
  omega

theorem Sound.assignFresh (h : Sound cm) (hnone : cm.peerBlocks.get? peer = none) (peerParts : List Bool)
    (max : ℕ) : Sound (cm.assignFresh peer peerParts max).2 := by
  have hpick : ∀ {cands : List ℕ}, (cands.Nodup ∧ ∀ i ∈ cands, i < cm.blocks.length ∧ cm.reqCount.getD i 0 < maxDuplicateRequesters) →
      (pick max cands).Nodup ∧ ∀ i ∈ pick max cands, i < cm.blocks.length ∧ cm.reqCount.getD i 0 < maxDuplicateRequesters :=
    fun hc => ⟨hc.1.sublist (List.take_sublist _ _), fun i hi => hc.2 i (List.mem_of_mem_take hi)⟩
  have hfresh := h.toLaid.freshBlocks peerParts
  have hend := h.toLaid.endgameBlocks peerParts
  unfold ChunkManager.assignFresh
  dsimp only
  generalize hpicked : (if pick max (cm.freshBlocks peerParts) = [] then pick max (cm.endgameBlocks peerParts)
    else pick max (cm.freshBlocks peerParts)) = picked
  have hp : picked.Nodup ∧ ∀ i ∈ picked, i < cm.blocks.length ∧ cm.reqCount.getD i 0 < maxDuplicateRequesters := by
    rw [← hpicked]
    split
    · exact hpick hend
    · exact hpick ⟨hfresh.1, fun i hi => ⟨(hfresh.2 i hi).1, by rw [(hfresh.2 i hi).2]; decide⟩⟩
  split
  · exact h
  · refine h.requests_set (length_foldl_modify ..) ?_ ?_ (h.held_insert ⟨hp.1, fun i hi => (hp.2 i hi).1⟩ _ (.inl rfl))
    · intro i hi
      rw [getD_foldl_succ _ (h.reqCount ▸ hi), h.requests i hi, OrdMap.sumOf_insert, OrdMap.erase_of_get?_none _ hnone, Nat.add_comm]
    · intro i hi
      rw [getD_foldl_succ _ (h.reqCount ▸ hi)]
      by_cases hmem : i ∈ picked
      · rw [List.count_eq_one_of_mem hp.1 hmem]
        exact (hp.2 i hmem).2
      · rw [List.count_eq_zero_of_not_mem hmem]
        exact h.duplicates i

theorem Sound.assignBlocks (h : Sound cm) (peer : ℕ) (peerParts : List Bool) (max : ℕ) :
    Sound (cm.assignBlocks peer peerParts max).2 := by
  have hlen : (cm.releaseDone peer).2.reqCount.length = cm.reqCount.length := length_foldl_modify ..
  have hdup : ∀ i < cm.blocks.length, (cm.releaseDone peer).2.reqCount.getD i 0 ≤ maxDuplicateRequesters := by
    intro i hi
    rw [releaseDone, getD_foldl_pred _ (h.reqCount ▸ hi)]
    exact (Nat.sub_le _ _).trans (h.duplicates i)
  have hmine : (cm.releaseDone peer).1.Nodup ∧ ∀ i ∈ (cm.releaseDone peer).1, i < cm.blocks.length :=
    ⟨(h.held_peer peer).1.filter _, fun i hi => (h.held_peer peer).2 i (List.mem_of_mem_filter hi)⟩
  have hcount := fun (i : ℕ) (hi : i < cm.blocks.length) => h.count_releaseDone peer hi
  unfold ChunkManager.assignBlocks
  dsimp only
  split
  · refine h.requests_set hlen ?_ hdup (h.held_insert hmine _ (.inr rfl))
    intro i hi
    have hpb : (cm.releaseDone peer).2.peerBlocks = cm.peerBlocks.erase peer := rfl
    rw [hcount i hi, hpb, OrdMap.insert_erase, OrdMap.sumOf_insert]
  · rename_i hnil
    have hnil := not_not.mp hnil
    have hsound : Sound (cm.releaseDone peer).2 := by
      refine h.requests_set hlen ?_ hdup (h.held_erase peer)
      intro i hi
      refine (hcount i hi).trans ?_
      rw [hnil, List.count_nil, Nat.zero_add]
    exact hsound.assignFresh (OrdMap.get?_erase_self _ _) peerParts max

theorem assignFresh_eq (cm : ChunkManager) (peer : ℕ) (peerParts : List Bool) (max : ℕ) :
    ∃ rc pb, (cm.assignFresh peer peerParts max).2 = { cm with reqCount := rc, peerBlocks := pb } := by
  unfold ChunkManager.assignFresh
  dsimp only
  generalize (if pick max (cm.freshBlocks peerParts) = [] then pick max (cm.endgameBlocks peerParts)
    else pick max (cm.freshBlocks peerParts)) = picked
  split <;> exact ⟨_, _, rfl⟩

/-- What assigning and releasing blocks leaves as it is. -/
theorem assignBlocks_eq (cm : ChunkManager) (peer : ℕ) (peerParts : List Bool) (max : ℕ) :
    ∃ rc pb, (cm.assignBlocks peer peerParts max).2 = { cm with reqCount := rc, peerBlocks := pb } := by
  unfold ChunkManager.assignBlocks
  dsimp only
  split
  · exact ⟨_, _, rfl⟩
  · obtain ⟨rc, pb, heq⟩ := assignFresh_eq (cm.releaseDone peer).2 peer peerParts max
    exact ⟨rc, pb, heq⟩

theorem setChunkHashes_eq (md4 : List UInt8 → Digest) (cm : ChunkManager) (hashes : List Digest) :
    ∃ ch, (cm.setChunkHashes md4 hashes).2 = { cm with chunkHashes := ch } ∧
      (ch = cm.chunkHashes ∨ ch = some hashes ∧ hashes.length = cm.fileSize / ed2kChunkSize + 1 ∧ md4 hashes.flatten = cm.fileHash) := by
  unfold setChunkHashes
  split
  · exact ⟨_, rfl, .inl rfl⟩
  split
  · exact ⟨_, rfl, .inl rfl⟩
  split
  · exact ⟨_, rfl, .inl rfl⟩
  · rename_i hlen hmd4
    exact ⟨_, rfl, .inr ⟨rfl, not_not.mp hlen, not_not.mp hmd4⟩⟩

/-! ## Parts -/

/-- A manager with another part, accounted for. -/
theorem Sound.part_set (h : Sound cm) {completed : ℕ} {t : Part} (hp : p < chunkCount cm.fileSize)
    (ht : t.Sound (chunkRange cm.fileSize p)) (hcompleted : completed + (cm.part p).bytes = cm.completedLength + t.bytes) :
    Sound { cm.setPart p t with completedLength := completed } := by
  have hlt : p < cm.parts.length := h.parts ▸ hp
  refine { h with parts := ?_, sound := ?_, completed := ?_ }
  · exact List.length_set.trans h.parts
  · intro q hq
    rcases eq_or_ne q p with rfl | hne
    · change Part.Sound ((cm.setPart q t).part q) _
      rw [part_setPart_self hlt]
      exact ht
    · change Part.Sound ((cm.setPart p t).part q) _
      rw [part_setPart_of_ne hne]
      exact h.sound q hq
  · have hsum := sum_map_set Part.bytes (getElem?_parts hlt) t
    have hold := h.completed
    change completed = ((cm.parts.set p t).map Part.bytes).sum
    omega

theorem Sound.part_missing (h : Sound cm) (hp : p < chunkCount cm.fileSize) :
    (cm.part p).bytes ≤ cm.completedLength := by
  rw [h.completed]
  refine List.single_le_sum (fun _ _ => Nat.zero_le _) _ (List.mem_map.mpr ⟨cm.part p, ?_, rfl⟩)
  exact List.mem_of_getElem? (getElem?_parts (h.parts ▸ hp))

theorem part_new {fileSize : ℕ} {fileHash : Digest} : (new fileSize fileHash).part p = .new := by
  simp [part, new, List.getD_eq_getElem?_getD, List.getElem?_replicate]
  split <;> rfl

theorem sound_new (fileSize : ℕ) (fileHash : Digest) : Sound (new fileSize fileHash) where
  toLaid := laid_new fileSize fileHash
  sound p _ := by
    rw [part_new]
    exact ⟨.nil, Finset.empty_subset _, rfl, fun hne => absurd rfl hne⟩
  completed := by simp [new, Part.new]
  requests i hi := by
    simp [new, List.getD_eq_getElem?_getD, List.getElem?_replicate, OrdMap.sumOf, OrdMap.empty]
    split <;> rfl
  duplicates i := by
    simp [new, List.getD_eq_getElem?_getD, List.getElem?_replicate]
    split <;> decide
  held _ _ hget := nomatch hget

/-- Before the download starts, a part that is not there has no bytes. -/
def Fresh (cm : ChunkManager) : Prop := ∀ p, (cm.part p).status = .missing → cm.part p = .new

theorem restoreVerified_cases (cm : ChunkManager) (p : ℕ) :
    cm.restoreVerified p = cm ∨ p < chunkCount cm.fileSize ∧ (cm.part p).status = .missing ∧
      ∃ t : Part, t.status = .downloaded ∧ t.covered = [chunkRange cm.fileSize p] ∧
        t.bytes = (chunkRange cm.fileSize p).2 - (chunkRange cm.fileSize p).1 ∧
        cm.restoreVerified p = { cm.setPart p t with
          completedLength := cm.completedLength + ((chunkRange cm.fileSize p).2 - (chunkRange cm.fileSize p).1) } := by
  unfold ChunkManager.restoreVerified
  split
  · exact .inl rfl
  · rename_i hcond
    obtain ⟨hp, hmissing⟩ := not_or.mp hcond
    exact .inr ⟨Nat.lt_of_not_le hp, not_not.mp hmissing, _, rfl, rfl, rfl, rfl⟩

theorem Sound.restoreVerified (h : Sound cm) (hfresh : cm.Fresh) (p : ℕ) :
    Sound (cm.restoreVerified p) ∧ (cm.restoreVerified p).Fresh := by
  rcases cm.restoreVerified_cases p with hsame | ⟨hp, hmissing, t, hstatus, hcovered, hbytes, heq⟩
  · rw [hsame]
    exact ⟨h, hfresh⟩
  · rw [heq]
    constructor
    · refine h.part_set hp (Part.sound_full (chunkRange_lt hp) hcovered hbytes) ?_
      rw [hfresh p hmissing, hbytes]
      exact Nat.add_zero _
    · intro q hq
      change ((cm.setPart p t).part q).status = .missing at hq
      change (cm.setPart p t).part q = .new
      rcases eq_or_ne q p with rfl | hne
      · rw [part_setPart_self (h.parts ▸ hp), hstatus] at hq
        cases hq
      · rw [part_setPart_of_ne hne] at hq ⊢
        exact hfresh q hq

/-- A new manager with any parts restored. -/
theorem sound_restored (fileSize : ℕ) (fileHash : Digest) (restored : List ℕ) :
    Sound (restored.foldl ChunkManager.restoreVerified (new fileSize fileHash)) := by
  have hfold : ∀ (L : List ℕ) (cm : ChunkManager), Sound cm → cm.Fresh → Sound (L.foldl ChunkManager.restoreVerified cm) := by
    intro L
    induction L with
    | nil => exact fun _ h _ => h
    | cons p L ih =>
      intro cm h hfresh
      obtain ⟨hsound, hfresh⟩ := h.restoreVerified hfresh p
      exact ih _ hsound hfresh
  exact hfold restored _ (sound_new _ _) fun _ _ => part_new

/-! ## Writes -/

/-- What a peer may write: a range of one of its blocks, in a part that is not complete, with a byte that is new. -/
theorem Sound.writablePart_eq_some (h : Sound cm) {offset stop part : ℕ} (hlt : offset < stop)
    (hw : cm.writablePart peer offset stop = some part) :
    part < chunkCount cm.fileSize ∧ (chunkRange cm.fileSize part).1 ≤ offset ∧ stop ≤ (chunkRange cm.fileSize part).2 ∧
      (cm.part part).status = .missing ∧ ¬ Finset.Ico offset stop ⊆ Ranges.points (cm.part part).covered := by
  obtain ⟨b, hfind, hb⟩ := Option.bind_eq_some_iff.mp hw
  split at hb
  · rename_i hcond
    cases hb
    obtain ⟨i, hi, rfl⟩ := List.mem_map.mp (List.mem_of_find?_eq_some hfind)
    have hin := List.find?_some hfind
    simp only [Bool.and_eq_true, decide_eq_true_eq] at hin
    obtain ⟨hpart, hlo, -, hhi⟩ := h.toLaid.block ((h.held_peer peer).2 i hi)
    refine ⟨hpart, hlo.trans hin.1, hin.2.trans hhi, hcond.1, ?_⟩
    rw [← covers_iff (h.sound _ hpart).normal hlt, hcond.2]
    decide
  · cases hb

/-- A ticket, and the only thing it changes. -/
theorem beginWrite_eq_some {cm' : ChunkManager} {offset len : ℕ} {ticket : WriteTicket}
    (h : cm.beginWrite peer offset len = .ok (some ticket, cm')) :
    0 < len ∧ offset + len ≤ cm.fileSize ∧ cm.writablePart peer offset (offset + len) = some ticket.part ∧ ticket.offset = offset ∧
      ticket.stop = offset + len ∧ (∀ r ∈ cm.inFlight, ¬ (r.1 < offset + len ∧ offset < r.2)) ∧
      cm' = { cm with inFlight := cm.inFlight ++ [(offset, offset + len)] } := by
  unfold beginWrite at h
  split at h
  · cases h
  rename_i hlen
  split at h
  · cases h
  rename_i hsize
  split at h
  · cases h
  rename_i part hpart
  split at h
  · cases h
  split at h
  · cases h
  · rename_i hany
    cases h
    refine ⟨Nat.pos_of_ne_zero hlen, Nat.le_of_not_lt hsize, hpart, rfl, rfl, ?_, rfl⟩
    simpa using hany

/-- A commit: nothing, or the range is added to its part. -/
theorem commitWrite_cases (cm : ChunkManager) (peer : ℕ) (ticket : WriteTicket) :
    (cm.commitWrite peer ticket).2 = cm ∧ (cm.commitWrite peer ticket).1 = false ∨
      cm.writablePart peer ticket.offset ticket.stop = some ticket.part ∧ (cm.commitWrite peer ticket).1 = true ∧
        ∃ covered added status sources, insertRange (cm.part ticket.part).covered ticket.offset ticket.stop = (covered, added) ∧
          (status = (cm.part ticket.part).status ∨ (status = .verifying ∧
            (chunkRange cm.fileSize ticket.part).2 - (chunkRange cm.fileSize ticket.part).1 ≤ (cm.part ticket.part).bytes + added)) ∧
          (∀ p, p ∈ sources ↔ p = peer ∨ p ∈ (cm.part ticket.part).sources) ∧
          (cm.commitWrite peer ticket).2 =
            { cm.setPart ticket.part ⟨status, (cm.part ticket.part).hashing, covered, (cm.part ticket.part).bytes + added, sources⟩ with
              completedLength := cm.completedLength + added } := by
  unfold commitWrite
  split
  · exact .inl ⟨rfl, rfl⟩
  rename_i hw
  refine .inr ⟨not_not.mp hw, rfl, _, _, _, _, rfl, ?_, ?_, rfl⟩
  · split
    · rename_i hfull
      exact .inr ⟨rfl, hfull⟩
    · exact .inl rfl
  · intro p
    by_cases hmem : peer ∈ (cm.part ticket.part).sources
    · rw [if_pos (by simpa using hmem)]
      exact ⟨.inr, fun hp => hp.elim (fun hp => hp ▸ hmem) id⟩
    · rw [if_neg (by simpa using hmem), List.mem_append, List.mem_singleton, or_comm]

theorem Sound.commitWrite (h : Sound cm) {ticket : WriteTicket} (hlt : ticket.offset < ticket.stop) :
    Sound (cm.commitWrite peer ticket).2 := by
  rcases cm.commitWrite_cases peer ticket with ⟨hsame, -⟩ | ⟨hw, -, covered, added, status, sources, hinsert, hstatus, -, heq⟩
  · rw [hsame]
    exact h
  · rw [heq]
    obtain ⟨hpart, hlo, hhi, hmissing, -⟩ := h.writablePart_eq_some hlt hw
    have hsound := h.sound _ hpart
    obtain ⟨hcovered, hadded⟩ := insertRange_eq hsound.normal hlt
    rw [hinsert] at hcovered hadded
    dsimp only at hcovered hadded
    subst hcovered
    have hnormal := hsound.normal.insert hlt
    have hpoints := Ranges.points_insert hsound.normal.nonempty hlt
    have hinside : Ranges.points (Ranges.insert ticket.offset ticket.stop (cm.part ticket.part).covered) ⊆
        Finset.Ico (chunkRange cm.fileSize ticket.part).1 (chunkRange cm.fileSize ticket.part).2 := by
      rw [hpoints]
      exact Finset.union_subset (Finset.Ico_subset_Ico hlo hhi) hsound.inside
    have hbytes : (cm.part ticket.part).bytes + added =
        Ranges.total (Ranges.insert ticket.offset ticket.stop (cm.part ticket.part).covered) := by
      rw [hsound.bytes, hadded]
    refine h.part_set hpart ⟨hnormal, hinside, hbytes, ?_⟩ ?_
    · intro hne
      rcases hstatus with rfl | ⟨rfl, hfull⟩
      · exact absurd hmissing hne
      · refine Finset.eq_of_subset_of_card_le hinside ?_
        rw [Nat.card_Ico, ← Ranges.total_eq_card hnormal, ← hbytes]
        exact hfull
    · dsimp only
      omega

/-! ## Verification -/

/-- A job for a part: it is complete, and the job is to find the hash that is expected. -/
structure JobFor (cm : ChunkManager) (job : VerifyJob) : Prop where
  index : job.index < chunkCount cm.fileSize
  status : (cm.part job.index).status = .verifying
  range : (job.start, job.stop) = chunkRange cm.fileSize job.index
  expected : cm.expectedPartHash job.index = some job.expected

/-- What the loop of `take_verify_jobs` has done: it has taken jobs for parts that are not hashed yet, and marked these. -/
structure Taken (cm : ChunkManager) (acc : List VerifyJob × ChunkManager) : Prop where
  rest : ∃ ps, acc.2 = { cm with parts := ps }
  length : acc.2.parts.length = cm.parts.length
  parts : ∀ p, acc.2.part p = { cm.part p with hashing := (cm.part p).hashing || (acc.1.map VerifyJob.index).contains p }
  jobs : ∀ job ∈ acc.1, cm.JobFor job ∧ (cm.part job.index).hashing = false
  nodup : (acc.1.map VerifyJob.index).Nodup

theorem Taken.refl (cm : ChunkManager) : cm.Taken ([], cm) where
  rest := ⟨_, rfl⟩
  length := rfl
  parts p := by simp
  jobs := nofun
  nodup := .nil

theorem Taken.takeVerifyJob {acc : List VerifyJob × ChunkManager} (h : cm.Taken acc)
    (hp : p < chunkCount cm.fileSize) (hlen : cm.parts.length = chunkCount cm.fileSize) : cm.Taken (takeVerifyJob acc p) := by
  obtain ⟨ps, hps⟩ := h.rest
  have hpart := h.parts p
  unfold ChunkManager.takeVerifyJob
  dsimp only
  split
  · exact h
  rename_i hcond
  obtain ⟨hstatus, hhashing⟩ := not_or.mp hcond
  rw [hpart] at hstatus hhashing
  have hstatus : (cm.part p).status = .verifying := not_not.mp hstatus
  obtain ⟨hold, hnew⟩ := Bool.or_eq_false_iff.mp (Bool.eq_false_iff.mpr hhashing)
  split
  · exact h
  · rename_i expected hexpected
    have hlt : p < acc.2.parts.length := by rw [h.length, hlen]; exact hp
    have hsize : acc.2.fileSize = cm.fileSize := by rw [hps]
    refine { rest := ?_, length := ?_, parts := ?_, jobs := ?_, nodup := ?_ }
    · rw [hps]
      exact ⟨_, rfl⟩
    · exact List.length_set.trans h.length
    · intro q
      rcases eq_or_ne q p with rfl | hne
      · dsimp only
        rw [part_setPart_self hlt, hpart]
        simp
      · dsimp only
        rw [part_setPart_of_ne hne, h.parts q]
        simp [hne]
    · refine List.forall_mem_append.mpr ⟨h.jobs, ?_⟩
      rintro job hjob
      rw [List.mem_singleton.mp hjob, hsize]
      refine ⟨⟨hp, hstatus, rfl, ?_⟩, hold⟩
      rw [hps] at hexpected
      exact hexpected
    · rw [List.map_append]
      refine List.nodup_append.mpr ⟨h.nodup, List.nodup_singleton _, ?_⟩
      rintro x hx y hy rfl
      have hxp : x = p := by simpa using hy
      rw [hxp] at hx
      rw [List.contains_iff_mem.mpr hx] at hnew
      cases hnew

/-- What `take_verify_jobs` does. -/
theorem Laid.taken (h : Laid cm) : cm.Taken cm.takeVerifyJobs := by
  have hfold : ∀ (L : List ℕ) (acc : List VerifyJob × ChunkManager), (∀ p ∈ L, p < chunkCount cm.fileSize) → cm.Taken acc →
      cm.Taken (L.foldl ChunkManager.takeVerifyJob acc) := by
    intro L
    induction L with
    | nil => exact fun _ _ hacc => hacc
    | cons p L ih =>
      intro acc hL hacc
      obtain ⟨hp, hrest⟩ := List.forall_mem_cons.mp hL
      exact ih _ hrest (hacc.takeVerifyJob hp h.parts)
  exact hfold _ _ (fun p hp => List.mem_range.mp hp) (.refl cm)

theorem Taken.sound (h : Sound cm) {acc : List VerifyJob × ChunkManager} (ht : cm.Taken acc) : Sound acc.2 := by
  obtain ⟨ps, hps⟩ := ht.rest
  have hlen := ht.length
  have hparts := ht.parts
  rw [hps] at hlen hparts ⊢
  refine { h with parts := hlen.trans h.parts, sound := ?_, completed := ?_ }
  · intro p hp
    rw [hparts p]
    exact ⟨(h.sound p hp).normal, (h.sound p hp).inside, (h.sound p hp).bytes, (h.sound p hp).full⟩
  · have hmap : ps.map Part.bytes = cm.parts.map Part.bytes := by
      refine List.ext_getElem? fun p => ?_
      rw [List.getElem?_map, List.getElem?_map]
      rcases Nat.lt_or_ge p cm.parts.length with hp | hp
      · have hnew : ps[p]? = some (({ cm with parts := ps } : ChunkManager).part p) := getElem?_parts (hlen ▸ hp)
        rw [hnew, getElem?_parts hp, hparts p]
        rfl
      · rw [List.getElem?_eq_none hp, List.getElem?_eq_none (hlen ▸ hp)]
    rw [hmap]
    exact h.completed

theorem strike_eq (cm : ChunkManager) (sources : List ℕ) :
    (cm.strike sources = cm ∧ ∀ peer, sources ≠ [peer]) ∨
      ∃ peer, sources = [peer] ∧ cm.strike sources = { cm with strikes := cm.strikes.insert peer ((cm.strikes.get? peer).getD 0 + 1) } := by
  unfold strike
  split
  · rename_i peer
    exact .inr ⟨peer, rfl, rfl⟩
  · rename_i hne
    exact .inl ⟨rfl, hne⟩

/-- The blocks of a part given up by all peers. -/
theorem Sound.requests_cleared (h : Sound cm) (lo hi : ℕ) :
    Sound { cm with
      reqCount := cm.reqCount.mapIdx fun i c => if lo ≤ i ∧ i < hi then 0 else c
      peerBlocks := cm.peerBlocks.mapVal fun _ held => held.filter fun i => !(lo ≤ i && i < hi) } := by
  have hget : ∀ i < cm.blocks.length, (cm.reqCount.mapIdx fun i c => if lo ≤ i ∧ i < hi then 0 else c).getD i 0 =
      if lo ≤ i ∧ i < hi then 0 else cm.reqCount.getD i 0 := by
    intro i hlt
    simp only [List.getD_eq_getElem?_getD, List.getElem?_mapIdx, List.getElem?_eq_getElem (h.reqCount ▸ hlt)]
    rfl
  refine h.requests_set List.length_mapIdx ?_ ?_ ?_
  · intro i hlt
    rw [hget i hlt, OrdMap.sumOf_mapVal]
    have hcount : ∀ held : List ℕ, (held.filter fun i => !(lo ≤ i && i < hi)).count i = if lo ≤ i ∧ i < hi then 0 else held.count i := by
      intro held
      split
      · rename_i hin
        exact List.count_eq_zero_of_not_mem fun hmem => by simp [hin] at hmem
      · rename_i hout
        refine List.count_filter ?_
        simp only [Bool.not_eq_true', Bool.and_eq_false_iff, decide_eq_false_iff_not]
        omega
    simp only [hcount]
    split
    · simp [OrdMap.sumOf]
    · exact h.requests i hlt
  · intro i hlt
    rw [hget i hlt]
    split
    · exact Nat.zero_le _
    · exact h.duplicates i
  · intro peer held hget
    rw [OrdMap.get?_mapVal] at hget
    obtain ⟨mine, hmine, rfl⟩ := Option.map_eq_some_iff.mp hget
    obtain ⟨hnodup, hlt⟩ := h.held peer mine hmine
    exact ⟨hnodup.filter _, fun i hi => hlt i (List.mem_of_mem_filter hi)⟩

/-- What `finish_verify` makes of a part: it is there, or it starts again and its only source is struck. -/
theorem finishVerify_cases (hp : p < cm.parts.length) (ok : Bool) :
    (ok = true ∧ cm.finishVerify p ok = cm.setPart p ⟨.downloaded, false, (cm.part p).covered, (cm.part p).bytes, []⟩) ∨
      (ok = false ∧ ∃ rc pb, cm.finishVerify p ok =
        { (cm.strike (cm.part p).sources).setPart p .new with
          completedLength := cm.completedLength - (cm.part p).bytes, reqCount := rc, peerBlocks := pb }) := by
  unfold ChunkManager.finishVerify
  rw [if_neg (Nat.not_le_of_lt hp)]
  cases ok with
  | true => exact .inl ⟨rfl, rfl⟩
  | false => exact .inr ⟨rfl, _, _, rfl⟩

theorem Sound.finishVerify (h : Sound cm) (hp : p < chunkCount cm.fileSize)
    (hstatus : (cm.part p).status ≠ .missing) (ok : Bool) : Sound (cm.finishVerify p ok) := by
  have hsound := h.sound p hp
  have hlt : p < cm.parts.length := h.parts ▸ hp
  unfold ChunkManager.finishVerify
  rw [if_neg (Nat.not_le_of_lt hlt)]
  cases ok with
  | true =>
    exact h.part_set hp ⟨hsound.normal, hsound.inside, hsound.bytes, fun _ => hsound.full hstatus⟩ rfl
  | false =>
    have hstruck : ∀ strikes, Sound { cm with strikes := strikes } := fun strikes => { h with }
    have hcm : Sound (cm.strike (cm.part p).sources) := by
      rcases cm.strike_eq (cm.part p).sources with ⟨hsame, -⟩ | ⟨peer, -, heq⟩
      · rw [hsame]
        exact h
      · rw [heq]
        exact hstruck _
    have hkept : (cm.strike (cm.part p).sources).part p = cm.part p ∧ (cm.strike (cm.part p).sources).fileSize = cm.fileSize ∧
        (cm.strike (cm.part p).sources).completedLength = cm.completedLength ∧
        (cm.strike (cm.part p).sources).reqCount = cm.reqCount ∧ (cm.strike (cm.part p).sources).peerBlocks = cm.peerBlocks := by
      rcases cm.strike_eq (cm.part p).sources with ⟨hsame, -⟩ | ⟨peer, -, heq⟩
      · rw [hsame]
        exact ⟨rfl, rfl, rfl, rfl, rfl⟩
      · rw [heq]
        exact ⟨rfl, rfl, rfl, rfl, rfl⟩
    obtain ⟨hpart, hsize, hcompleted, hrc, hpb⟩ := hkept
    have hle := h.part_missing hp
    have hset : Sound { (cm.strike (cm.part p).sources).setPart p .new with completedLength := cm.completedLength - (cm.part p).bytes } := by
      refine hcm.part_set (hsize.symm ▸ hp) ⟨.nil, Finset.empty_subset _, rfl, fun hne => absurd rfl hne⟩ ?_
      rw [hpart, hcompleted, Nat.sub_add_cancel hle]
      rfl
    have hcleared := hset.requests_cleared (cm.firstBlock.getD p 0) (cm.firstBlock.getD (p + 1) 0)
    rw [← hrc, ← hpb]
    exact hcleared

end ChunkManager

end Ed2k

end Risuko
