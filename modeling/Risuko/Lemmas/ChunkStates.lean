import Risuko.Lemmas.ChunkTracker

/-!
# What each call does to the states of the chunks

`statesOf t piece` is the list of the chunk states of a piece whether it is tracked or not: an untracked piece has the states it
would be created with. Beginning to track a piece is invisible in this view, so each call of the chunk tracker is one short
equation between the states before and after it.
-/

namespace Risuko

namespace ChunkTracker

variable {l : Lengths}

/-- The chunk states of a piece, tracked or not. -/
def statesOf (t : ChunkTracker l) (piece : ValidPieceIndex l) : List ChunkState := (t.chunksFor piece).states

/-- The states a piece starts with: padding is there, the rest is missing. -/
def initialStates (t : ChunkTracker l) (piece : ValidPieceIndex l) : List ChunkState :=
  (PieceChunks.new (t.paddingChunks piece)).states

theorem length_statesOf {full : Prop} {t : ChunkTracker l} (h : t.Indexed full) (piece : ValidPieceIndex l) :
    (t.statesOf piece).length = l.chunkCount piece := length_chunksFor h piece

theorem statesOf_of_untracked {t : ChunkTracker l} {piece : ValidPieceIndex l} (h : t.pieces.get? piece.val = none) :
    t.statesOf piece = t.initialStates piece := by
  rw [statesOf, chunksFor_of_untracked h, initialStates]

/-- A piece's states depend on its entry and on the padding only. -/
theorem statesOf_congr {t t' : ChunkTracker l} {piece : ValidPieceIndex l} (hp : t'.padding = t.padding)
    (hg : t'.pieces.get? piece.val = t.pieces.get? piece.val) : t'.statesOf piece = t.statesOf piece := by
  simp only [statesOf, chunksFor, paddingChunks, hg, hp]

theorem statesOf_eq {t : ChunkTracker l} {piece : ValidPieceIndex l} {c : PieceChunks}
    (h : t.pieces.get? piece.val = some c) : t.statesOf piece = c.states := by
  rw [statesOf, chunksFor_of_get? h]

theorem getElem?_initialStates (t : ChunkTracker l) (piece : ValidPieceIndex l) (c : Nat) :
    (t.initialStates piece)[c]? = ((t.paddingChunks piece)[c]?).map (fun pad => if pad then .received else .missing) := by
  simp [initialStates, PieceChunks.new]

theorem not_requested_mem_initialStates (t : ChunkTracker l) (piece : ValidPieceIndex l) (p since : Nat) :
    .requested p since ∉ t.initialStates piece := not_requested_mem_new _ p since

/-- A piece of which no chunk is missing is tracked. -/
theorem tracked_of_not_missing {t : ChunkTracker l} {piece : ValidPieceIndex l} (h : .missing ∉ t.statesOf piece) :
    ∃ c, t.pieces.get? piece.val = some c ∧ .missing ∉ c.states := by
  cases hg : t.pieces.get? piece.val with
  | none =>
    rw [statesOf_of_untracked hg] at h
    exact absurd (missing_mem_new t piece) h
  | some c =>
    rw [statesOf_eq hg] at h
    exact ⟨c, rfl, h⟩

/-- `has_missing` answers whether a chunk of the piece is missing. -/
theorem hasMissing_iff {full : Prop} {t : ChunkTracker l} (h : t.Indexed full) (piece : ValidPieceIndex l) :
    t.hasMissing piece = true ↔ .missing ∈ t.statesOf piece := by
  unfold hasMissing
  cases hg : t.pieces.get? piece.val with
  | none =>
    rw [statesOf_of_untracked hg]
    exact ⟨fun _ => missing_mem_new t piece, fun _ => rfl⟩
  | some c =>
    rw [statesOf_eq hg]
    simp only [decide_eq_true_eq]
    exact (h.counted _ _ hg).missing_pos_iff

/-! ## Stores -/

theorem statesOf_store {t : ChunkTracker l} (piece q : ValidPieceIndex l) (c : PieceChunks) :
    (t.store piece.val c).statesOf q = if q = piece then c.states else t.statesOf q := by
  by_cases hq : q = piece
  · subst hq
    rw [if_pos rfl]
    exact statesOf_eq (by rw [pieces_store, OrdMap.get?_insert_self])
  · rw [if_neg hq]
    exact statesOf_congr rfl (by rw [pieces_store, OrdMap.get?_insert_of_ne _ _ (Fin.val_ne_of_ne hq)])

theorem statesOf_reindex (t : ChunkTracker l) (p : Nat) (q : ValidPieceIndex l) : (t.reindex p).statesOf q = t.statesOf q :=
  statesOf_congr rfl rfl

/-- Beginning to track a piece changes no state. -/
theorem statesOf_store_chunksFor (t : ChunkTracker l) (piece q : ValidPieceIndex l) :
    (t.store piece.val (t.chunksFor piece)).statesOf q = t.statesOf q := by
  rw [statesOf_store]
  split
  · rename_i hq
    rw [hq, statesOf]
  · rfl

theorem statesOf_setEndgame (t : ChunkTracker l) (on : Bool) (q : ValidPieceIndex l) :
    (t.setEndgame on).statesOf q = t.statesOf q := statesOf_congr rfl rfl

/-! ## Requests -/

/-- A chunk the scan may answer with: missing, or in endgame asked of another peer; never one that is skipped. -/
def Scannable (states : List ChunkState) (peer : Nat) (asked : Nat → Bool) (i : Nat) : Prop :=
  asked i = false ∧ (states[i]? = some .missing ∨ ∃ q since, q ≠ peer ∧ states[i]? = some (.requested q since))

theorem scanChunks_scannable {states : List ChunkState} {endgame : Bool} {peer : Nat} {asked : Nat → Bool} {is : List Nat}
    {candidate : Option Nat} {i : Nat} (hc : ∀ j, candidate = some j → Scannable states peer asked j)
    (h : scanChunks states endgame peer asked is candidate = some i) : Scannable states peer asked i := by
  induction is generalizing candidate with
  | nil => exact hc i h
  | cons j is ih =>
    rw [scanChunks] at h
    split at h
    · rename_i hm
      split at h
      · rename_i ha
        cases h
        exact ⟨by simpa using ha, Or.inl hm⟩
      · exact ih hc h
    · rename_i q since hr
      split at h
      · rename_i hcond
        simp only [Bool.and_eq_true, bne_iff_ne, ne_eq, Bool.not_eq_true'] at hcond
        refine ih (fun k hk => ?_) h
        cases hk
        exact ⟨hcond.2, Or.inr ⟨q, since, hcond.1.1.2, hr⟩⟩
      · exact ih hc h
    · exact ih hc h

/-- What `next_chunk_skipping` does to the states: nothing, or it marks one scannable chunk as asked of the peer. -/
theorem nextChunkSkipping_spec {full : Prop} {t : ChunkTracker l} (h : t.Indexed full) (piece : ValidPieceIndex l) (peer : Nat)
    (asked : Nat → Bool) (now : Nat) :
    (∃ t', t.nextChunkSkipping piece peer asked now = (t', none) ∧ t'.padding = t.padding ∧
        ∀ q, t'.statesOf q = t.statesOf q) ∨
      ∃ t' i info prior, t.nextChunkSkipping piece peer asked now = (t', some ⟨info, prior⟩) ∧ t'.padding = t.padding ∧
        l.chunkInfo piece i = some info ∧ i < l.chunkCount piece ∧ Scannable (t.statesOf piece) peer asked i ∧
        (t.statesOf piece)[i]? = some prior ∧
        ∀ q, t'.statesOf q = if q = piece then (t.statesOf piece).set i (.requested peer now) else t.statesOf q := by
  rcases nextChunkSkipping_cases t piece peer asked now with heq | ⟨i, info, hi, hinfo, hscan, heq⟩
  · exact Or.inl ⟨_, heq, rfl, statesOf_store_chunksFor t piece⟩
  · refine Or.inr ⟨_, i, info, _, heq, rfl, hinfo, by rwa [← length_chunksFor h piece], ?_, ?_, fun q => ?_⟩
    · exact scanChunks_scannable (fun _ hj => by cases hj) hscan
    · exact PieceChunks.getElem?_of_lt hi
    · rw [statesOf_reindex, statesOf_store]
      split
      · rfl
      · rename_i hq
        rw [statesOf_store, if_neg hq]

/-- `unrequest_chunk` on a requested chunk gives it the state back. -/
theorem statesOf_unrequestChunk {t : ChunkTracker l} {piece : ValidPieceIndex l} {i : Nat} {p since : Nat}
    (hr : (t.statesOf piece)[i]? = some (.requested p since)) (prior : ChunkState) (q : ValidPieceIndex l) :
    (t.unrequestChunk piece i prior).statesOf q = if q = piece then (t.statesOf piece).set i prior else t.statesOf q := by
  cases hg : t.pieces.get? piece.val with
  | none =>
    rw [statesOf_of_untracked hg] at hr
    exact absurd (List.mem_of_getElem? hr) (not_requested_mem_initialStates t piece p since)
  | some c =>
    rw [statesOf_eq hg] at hr ⊢
    have hreq : (c.states.getD i .received).isRequested = true := by
      simp [List.getD, hr, ChunkState.isRequested]
    unfold unrequestChunk
    simp only [hg, hreq, if_true]
    rw [statesOf_reindex, statesOf_store]
    rfl

@[simp] theorem padding_unrequestChunk (t : ChunkTracker l) (piece : ValidPieceIndex l) (i : Nat) (prior : ChunkState) :
    (t.unrequestChunk piece i prior).padding = t.padding := by
  unfold unrequestChunk
  simp only [padding_reindex]
  split
  · split
    · rfl
    · rfl
  · rfl

/-- `reject_chunk` frees a chunk that is the peer's and changes nothing otherwise. -/
theorem statesOf_rejectChunk (t : ChunkTracker l) (piece : ValidPieceIndex l) (i peer : Nat) :
    ((∃ since, (t.statesOf piece)[i]? = some (.requested peer since)) ∧
        ∀ q, (t.rejectChunk piece i peer).statesOf q =
          if q = piece then (t.statesOf piece).set i .missing else t.statesOf q) ∨
      ((∀ since, (t.statesOf piece)[i]? ≠ some (.requested peer since)) ∧
        ∀ q, (t.rejectChunk piece i peer).statesOf q = t.statesOf q) := by
  unfold rejectChunk
  simp only [statesOf_reindex]
  cases hg : t.pieces.get? piece.val with
  | none =>
    refine Or.inr ⟨fun since hs => ?_, fun q => rfl⟩
    rw [statesOf_of_untracked hg] at hs
    exact not_requested_mem_initialStates t piece peer since (List.mem_of_getElem? hs)
  | some c =>
    rw [statesOf_eq hg]
    simp only
    split
    · rename_i p since hr
      split
      · rename_i hp
        subst hp
        exact Or.inl ⟨⟨since, hr⟩, fun q => by rw [statesOf_store]; rfl⟩
      · rename_i hp
        refine Or.inr ⟨fun s hs => ?_, fun q => rfl⟩
        rw [hr] at hs
        cases hs
        exact hp rfl
    · rename_i hno
      exact Or.inr ⟨fun s hs => hno _ _ hs, fun q => rfl⟩

@[simp] theorem padding_rejectChunk (t : ChunkTracker l) (piece : ValidPieceIndex l) (i peer : Nat) :
    (t.rejectChunk piece i peer).padding = t.padding := by
  unfold rejectChunk
  simp only [padding_reindex]
  split
  · split
    · split
      · rfl
      · rfl
    · rfl
  · rfl

/-! ## Receipts -/

/-- `mark_received` on a chunk of the piece makes it received. -/
theorem statesOf_markReceived {full : Prop} {t : ChunkTracker l} (h : t.Indexed full) (info : ChunkInfo l)
    (hlt : info.chunkIndex < l.chunkCount info.pieceIndex) (q : ValidPieceIndex l) :
    (t.markReceived info).1.statesOf q =
      if q = info.pieceIndex then (t.statesOf info.pieceIndex).set info.chunkIndex .received else t.statesOf q := by
  rw [← length_chunksFor h] at hlt
  unfold markReceived
  simp only [hlt, if_true, statesOf_reindex]
  rw [statesOf_store]
  rfl

theorem padding_markReceived (t : ChunkTracker l) (info : ChunkInfo l) : (t.markReceived info).1.padding = t.padding := by
  unfold markReceived
  simp only
  split
  · rfl
  · rfl

/-- The answer of `mark_received` on a chunk of the piece: whether every chunk is then received. -/
theorem markReceived_done {full : Prop} {t : ChunkTracker l} (h : t.Indexed full) (info : ChunkInfo l)
    (hlt : info.chunkIndex < l.chunkCount info.pieceIndex) :
    (t.markReceived info).2 = true ↔ ∀ s ∈ (t.markReceived info).1.statesOf info.pieceIndex, s = .received := by
  rw [markReceived_done_iff h hlt]
  constructor
  · rintro ⟨c, hc, hall⟩
    rwa [statesOf_eq hc]
  · intro hall
    have hno : .missing ∉ (t.markReceived info).1.statesOf info.pieceIndex := fun hm => by cases hall _ hm
    obtain ⟨c, hc, _⟩ := tracked_of_not_missing hno
    rw [statesOf_eq hc] at hall
    exact ⟨c, hc, hall⟩

/-! ## Resets -/

theorem statesOf_resetPiece (t : ChunkTracker l) (piece q : ValidPieceIndex l) :
    (t.resetPiece piece).statesOf q = if q = piece then t.initialStates piece else t.statesOf q := by
  unfold resetPiece
  simp only [statesOf_reindex]
  cases hg : t.pieces.get? piece.val with
  | some c =>
    simp only
    rw [statesOf_store]
    rfl
  | none =>
    simp only
    split
    · rename_i hq
      rw [hq, statesOf_of_untracked hg]
    · rfl

@[simp] theorem padding_resetPiece (t : ChunkTracker l) (piece : ValidPieceIndex l) : (t.resetPiece piece).padding = t.padding := by
  unfold resetPiece
  simp only [padding_reindex]
  split
  · rfl
  · rfl

theorem statesOf_forgetPiece (t : ChunkTracker l) (piece q : ValidPieceIndex l) :
    (t.forgetPiece piece).statesOf q = if q = piece then t.initialStates piece else t.statesOf q := by
  unfold forgetPiece
  rw [statesOf_reindex]
  split
  · rename_i hq
    subst hq
    rw [statesOf_of_untracked (by rw [OrdMap.get?_erase_self])]
    rfl
  · rename_i hq
    exact statesOf_congr rfl (OrdMap.get?_erase_of_ne _ (Fin.val_ne_of_ne hq))

@[simp] theorem padding_forgetPiece (t : ChunkTracker l) (piece : ValidPieceIndex l) : (t.forgetPiece piece).padding = t.padding := rfl

/-! ## Freed requests -/

theorem statesOf_freeAll (t : ChunkTracker l) (sel : Nat → Nat → Bool) (q : ValidPieceIndex l) :
    (t.freeAll sel).1.statesOf q = (t.statesOf q).map (PieceChunks.freedState sel) := by
  cases hg : t.pieces.get? q.val with
  | some c =>
    rw [statesOf_eq hg, ← PieceChunks.states_free]
    exact statesOf_eq (by simp [freeAll, OrdMap.get?_mapVal, hg])
  | none =>
    rw [statesOf_of_untracked hg, statesOf_of_untracked (by simp [freeAll, OrdMap.get?_mapVal, hg])]
    -- a piece that is not tracked has no request to free
    have hid : ∀ s ∈ t.initialStates q, PieceChunks.freedState sel s = s := by
      intro s hs
      cases s with
      | requested p since => exact absurd hs (not_requested_mem_initialStates t q p since)
      | missing => rfl
      | received => rfl
    rw [List.map_congr_left hid, List.map_id']
    rfl

theorem statesOf_foldl_reindex (ps : List Nat) (t : ChunkTracker l) (q : ValidPieceIndex l) :
    (ps.foldl reindex t).statesOf q = t.statesOf q ∧ (ps.foldl reindex t).padding = t.padding := by
  induction ps generalizing t with
  | nil => exact ⟨rfl, rfl⟩
  | cons p ps ih =>
    rw [List.foldl_cons, (ih _).1, (ih _).2, statesOf_reindex]
    exact ⟨rfl, rfl⟩

theorem statesOf_releasePeer (t : ChunkTracker l) (peer : Nat) (q : ValidPieceIndex l) :
    (t.releasePeer peer).1.statesOf q = (t.statesOf q).map (PieceChunks.freedState (fun p _ => p == peer)) ∧
      (t.releasePeer peer).1.padding = t.padding := by
  unfold releasePeer
  simp only
  rw [(statesOf_foldl_reindex _ _ q).1, (statesOf_foldl_reindex _ _ q).2, statesOf_freeAll]
  exact ⟨rfl, rfl⟩

theorem statesOf_reclaimStale (t : ChunkTracker l) (now timeout : Nat) (q : ValidPieceIndex l) :
    (t.reclaimStale now timeout).1.statesOf q =
        (t.statesOf q).map (PieceChunks.freedState (fun _ since => decide (timeout ≤ now - since))) ∧
      (t.reclaimStale now timeout).1.padding = t.padding := by
  unfold reclaimStale
  simp only
  rw [← List.foldl_map, (statesOf_foldl_reindex _ _ q).1, (statesOf_foldl_reindex _ _ q).2, statesOf_freeAll]
  exact ⟨rfl, rfl⟩

/-- Freeing makes no chunk requested, and keeps the received ones. -/
theorem freedState_eq_received {sel : Nat → Nat → Bool} {s : ChunkState} :
    PieceChunks.freedState sel s = .received ↔ s = .received := by
  cases s with
  | requested p since =>
    unfold PieceChunks.freedState
    simp only
    split <;> simp
  | missing => simp [PieceChunks.freedState]
  | received => simp [PieceChunks.freedState]

theorem freedState_eq_requested {sel : Nat → Nat → Bool} {s : ChunkState} {p since : Nat} :
    PieceChunks.freedState sel s = .requested p since ↔ s = .requested p since ∧ sel p since = false := by
  cases s with
  | requested q t =>
    unfold PieceChunks.freedState
    simp only
    split
    · rename_i hsel
      simp only [reduceCtorEq, false_iff, not_and, ChunkState.requested.injEq, Bool.not_eq_false]
      rintro ⟨rfl, rfl⟩
      exact hsel
    · rename_i hsel
      simp only [ChunkState.requested.injEq]
      constructor
      · rintro ⟨rfl, rfl⟩
        exact ⟨⟨rfl, rfl⟩, by simpa using hsel⟩
      · rintro ⟨h, _⟩
        exact h
  | missing => simp [PieceChunks.freedState]
  | received => simp [PieceChunks.freedState]

/-- A chunk that is missing after freeing was missing or was freed. -/
theorem freedState_eq_missing {sel : Nat → Nat → Bool} {s : ChunkState} (h : PieceChunks.freedState sel s = .missing) :
    s = .missing ∨ ∃ p since, s = .requested p since ∧ sel p since = true := by
  cases s with
  | requested p since =>
    unfold PieceChunks.freedState at h
    simp only at h
    split at h
    · rename_i hsel
      exact Or.inr ⟨p, since, rfl, hsel⟩
    · cases h
  | missing => exact Or.inl rfl
  | received => cases h

/-- A piece with a freed chunk is among those `release_peer` returns. -/
theorem mem_releasePeer {t : ChunkTracker l} {peer : Nat} {q : ValidPieceIndex l} {since : Nat}
    (h : .requested peer since ∈ t.statesOf q) : q.val ∈ (t.releasePeer peer).2 := by
  cases hg : t.pieces.get? q.val with
  | none =>
    rw [statesOf_of_untracked hg] at h
    exact absurd h (not_requested_mem_initialStates t q peer since)
  | some c =>
    rw [statesOf_eq hg] at h
    obtain ⟨j, hj⟩ := List.mem_iff_getElem?.mp h
    have hmem : (j, peer) ∈ (c.free (fun p _ => p == peer)).2 := PieceChunks.mem_free_freed.mpr ⟨since, hj, by simp⟩
    unfold releasePeer
    refine List.mem_map.mpr ⟨(q.val, (c.free (fun p _ => p == peer)).2), List.mem_filter.mpr ⟨?_, ?_⟩, rfl⟩
    · exact List.mem_map.mpr ⟨(q.val, c), OrdMap.get?_eq_some_iff.mp hg, rfl⟩
    · simp only [Bool.not_eq_true', List.isEmpty_eq_false_iff]
      exact List.ne_nil_of_mem hmem

/-- The chunks `reclaim_stale` returns are the requests it frees. -/
theorem mem_reclaimStale {t : ChunkTracker l} {full : Prop} (ht : t.Indexed full) {now timeout : Nat} {r : ReclaimedChunk} :
    r ∈ (t.reclaimStale now timeout).2 ↔
      ∃ (q : ValidPieceIndex l) (c since : Nat), r = ⟨q.val, c * chunkSize, r.peer⟩ ∧
        (t.statesOf q)[c]? = some (.requested r.peer since) ∧ timeout ≤ now - since := by
  unfold reclaimStale freeAll
  simp only [List.mem_flatMap, List.mem_map, exists_exists_and_eq_and]
  constructor
  · rintro ⟨⟨p, c⟩, he, ⟨j, peer⟩, hf, rfl⟩
    have hg := OrdMap.get?_eq_some_iff.mpr he
    obtain ⟨hlt, _⟩ := ht.sized p c hg
    obtain ⟨since, hs, hsel⟩ := PieceChunks.mem_free_freed.mp hf
    refine ⟨⟨p, hlt⟩, j, since, rfl, ?_, by simpa using hsel⟩
    have hst : t.statesOf ⟨p, hlt⟩ = c.states := statesOf_eq hg
    rw [hst]
    exact hs
  · rintro ⟨q, j, since, hr, hs, hsel⟩
    cases hg : t.pieces.get? q.val with
    | none =>
      rw [statesOf_of_untracked hg] at hs
      exact absurd (List.mem_of_getElem? hs) (not_requested_mem_initialStates t q _ since)
    | some c =>
      rw [statesOf_eq hg] at hs
      refine ⟨(q.val, c), OrdMap.get?_eq_some_iff.mp hg, (j, r.peer), ?_, hr.symm⟩
      exact PieceChunks.mem_free_freed.mpr ⟨since, hs, by simpa using hsel⟩

end ChunkTracker

end Risuko
