import Risuko.Piece.ChunkTracker

/-!
# The chunk tracker keeps its counters and indexes

`Indexed full t` is the invariant of the tracker. Its parts on counters, sizes and the contested index, and that `partials`
lists only pieces with a missing chunk, are kept by every call. That `partials` lists all of them (the part under `full`) is
lost by two calls that begin to track a piece and return before they index it; the lemmas carry the condition as a
hypothesis under `full`.
-/

namespace Risuko

namespace PieceChunks

variable {c : PieceChunks} {i : Nat} {sel : Nat → Nat → Bool}

/-! ## One piece -/

/-- The counters of a piece count its chunks, and none of its subtractions went below zero. -/
structure Counted (c : PieceChunks) : Prop where
  missing : c.missing = c.states.countP ChunkState.isMissing
  requested : c.requested = c.states.countP ChunkState.isRequested
  exact : c.underflow = false

theorem counted_new (flags : List Bool) : (PieceChunks.new flags).Counted := by
  refine ⟨?_, ?_, rfl⟩
  · simp only [new, List.countP_map]
    congr 1
    funext b
    cases b <;> rfl
  · simp only [new]
    symm
    rw [List.countP_eq_zero]
    intro s hs
    obtain ⟨b, _, rfl⟩ := List.mem_map.mp hs
    cases b <;> simp [ChunkState.isRequested]

@[simp] theorem length_new (flags : List Bool) : (PieceChunks.new flags).states.length = flags.length := by
  simp [new]

@[simp] theorem length_set (c : PieceChunks) (i : Nat) (s : ChunkState) :
    (c.set i s).states.length = c.states.length := by
  simp [set]

@[simp] theorem states_set (c : PieceChunks) (i : Nat) (s : ChunkState) : (c.set i s).states = c.states.set i s := rfl

theorem getElem?_of_lt (h : i < c.states.length) : c.states[i]? = some (c.stateAt i) := by
  simp [stateAt, List.getD, h]

/-- Setting a chunk of the piece moves the counters with the states. -/
theorem Counted.set (h : c.Counted) (hi : i < c.states.length) (s : ChunkState) :
    (c.set i s).Counted := by
  have hst : c.states[i] = c.stateAt i := by simp [stateAt, List.getD, hi]
  have hm : c.stateAt i ∈ c.states := hst ▸ List.getElem_mem hi
  -- the old state is counted, so its share of the counter is there to be taken
  have hpos : (c.stateAt i).count.1 ≤ c.missing ∧ (c.stateAt i).count.2 ≤ c.requested := by
    rw [h.missing, h.requested]
    cases hs : c.stateAt i with
    | missing =>
      rw [hs] at hm
      exact ⟨List.countP_pos_iff.mpr ⟨_, hm, rfl⟩, Nat.zero_le _⟩
    | requested p t =>
      rw [hs] at hm
      exact ⟨Nat.zero_le _, List.countP_pos_iff.mpr ⟨_, hm, rfl⟩⟩
    | received => exact ⟨Nat.zero_le _, Nat.zero_le _⟩
  refine ⟨?_, ?_, ?_⟩
  · simp only [PieceChunks.set]
    rw [List.countP_set hi, hst, ← h.missing]
    revert hpos
    cases c.stateAt i <;> cases s <;> (simp [ChunkState.count, ChunkState.isMissing]; try omega)
  · simp only [PieceChunks.set]
    rw [List.countP_set hi, hst, ← h.requested]
    revert hpos
    cases c.stateAt i <;> cases s <;> (simp [ChunkState.count, ChunkState.isRequested]; try omega)
  · simp only [PieceChunks.set, h.exact, Bool.false_or, Bool.or_eq_false_iff, decide_eq_false_iff_not]
    omega

/-- A counter is positive exactly when some chunk is in its class. -/
theorem Counted.missing_pos_iff (h : c.Counted) : 0 < c.missing ↔ .missing ∈ c.states := by
  rw [h.missing, List.countP_pos_iff]
  constructor
  · rintro ⟨s, hs, hm⟩
    cases s <;> simp [ChunkState.isMissing] at hm
    exact hs
  · intro hs
    exact ⟨_, hs, rfl⟩

theorem Counted.requested_pos_iff (h : c.Counted) :
    0 < c.requested ↔ ∃ p since, .requested p since ∈ c.states := by
  rw [h.requested, List.countP_pos_iff]
  constructor
  · rintro ⟨s, hs, hm⟩
    cases s with
    | requested p since => exact ⟨p, since, hs⟩
    | missing => simp [ChunkState.isRequested] at hm
    | received => simp [ChunkState.isRequested] at hm
  · rintro ⟨p, since, hs⟩
    exact ⟨_, hs, rfl⟩

/-- Both counters are zero exactly when every chunk is received. -/
theorem Counted.done_iff (h : c.Counted) :
    (c.missing = 0 ∧ c.requested = 0) ↔ ∀ s ∈ c.states, s = .received := by
  rw [h.missing, h.requested, List.countP_eq_zero, List.countP_eq_zero]
  constructor
  · rintro ⟨hm, hr⟩ s hs
    cases s with
    | missing => exact absurd rfl (hm _ hs)
    | requested p t => exact absurd rfl (hr _ hs)
    | received => rfl
  · intro hall
    constructor
    · intro s hs
      rw [hall s hs]
      simp [ChunkState.isMissing]
    · intro s hs
      rw [hall s hs]
      simp [ChunkState.isRequested]

/-! ## Freeing requests -/

/-- What freeing does to one chunk. -/
def freedState (sel : Nat → Nat → Bool) : ChunkState → ChunkState
  | .requested p since => if sel p since then .missing else .requested p since
  | s => s

/-- The freeing loop, when it frees the chunk at the head of the list. -/
theorem freeWhere_cons_of_sel {is : List Nat} {p since : Nat}
    (hs : c.stateAt i = .requested p since) (hsel : sel p since = true) :
    freeWhere sel (i :: is) c = ((freeWhere sel is (c.set i .missing)).1, (i, p) :: (freeWhere sel is (c.set i .missing)).2) := by
  simp [freeWhere, hs, hsel]

/-- The freeing loop, when it leaves the chunk at the head of the list. -/
theorem freeWhere_cons_of_not_sel {is : List Nat}
    (h : ∀ p since, c.stateAt i = .requested p since → sel p since = false) :
    freeWhere sel (i :: is) c = freeWhere sel is c := by
  rw [freeWhere]
  split
  · rename_i p since hs
    simp [h p since hs]
  · rfl

/-- One turn of the freeing loop frees the chunk or leaves it. -/
theorem freeWhere_cons_cases (sel : Nat → Nat → Bool) (i : Nat) (c : PieceChunks) :
    (∃ p since, c.stateAt i = .requested p since ∧ sel p since = true) ∨
      (∀ p since, c.stateAt i = .requested p since → sel p since = false) := by
  by_cases h : ∃ p since, c.stateAt i = .requested p since ∧ sel p since = true
  · exact Or.inl h
  · right
    intro p since hs
    cases hsel : sel p since with
    | false => rfl
    | true => exact absurd ⟨p, since, hs, hsel⟩ h

theorem freeWhere_counted (sel : Nat → Nat → Bool) :
    ∀ (is : List Nat) (c : PieceChunks), c.Counted → (∀ i ∈ is, i < c.states.length) → (freeWhere sel is c).1.Counted
  | [], _, h, _ => h
  | i :: is, c, h, hlt => by
    have hi := hlt i (List.mem_cons_self ..)
    have hrest : ∀ j ∈ is, j < c.states.length := fun j hj => hlt j (List.mem_cons_of_mem _ hj)
    rcases freeWhere_cons_cases sel i c with ⟨p, since, hs, hsel⟩ | hno
    · rw [freeWhere_cons_of_sel hs hsel]
      exact freeWhere_counted sel is _ (h.set hi _) (by simpa using hrest)
    · rw [freeWhere_cons_of_not_sel hno]
      exact freeWhere_counted sel is c h hrest

/-- The states after the freeing loop: the chunks the loop visits are freed, the others are as they were. -/
theorem freeWhere_states (sel : Nat → Nat → Bool) :
    ∀ (is : List Nat) (c : PieceChunks), is.Nodup → (∀ i ∈ is, i < c.states.length) →
      ∀ j, (freeWhere sel is c).1.states[j]? =
        if j ∈ is then (c.states[j]?).map (freedState sel) else c.states[j]?
  | [], c, _, _, j => by simp [freeWhere]
  | i :: is, c, hnd, hlt, j => by
    have hi := hlt i (List.mem_cons_self ..)
    have hrest : ∀ j ∈ is, j < c.states.length := fun j hj => hlt j (List.mem_cons_of_mem _ hj)
    obtain ⟨hni, hnd'⟩ := List.nodup_cons.mp hnd
    have hgi := getElem?_of_lt hi
    rcases freeWhere_cons_cases sel i c with ⟨p, since, hs, hsel⟩ | hno
    · rw [freeWhere_cons_of_sel hs hsel, freeWhere_states sel is _ hnd' (by simpa using hrest) j, states_set,
        List.getElem?_set]
      by_cases hij : i = j
      · subst hij
        rw [hgi, hs]
        simp [hni, hi, freedState, hsel]
      · simp [hij, Ne.symm hij]
    · rw [freeWhere_cons_of_not_sel hno, freeWhere_states sel is c hnd' hrest j]
      by_cases hij : i = j
      · subst hij
        have hkeep : freedState sel (c.stateAt i) = c.stateAt i := by
          cases hs : c.stateAt i with
          | requested p since => simp [freedState, hno p since hs]
          | missing => rfl
          | received => rfl
        simp [hni, hgi, hkeep]
      · simp [Ne.symm hij]

/-- The freed chunks the loop lists: index and peer of each selected request it visits. -/
theorem mem_freeWhere_freed (sel : Nat → Nat → Bool) :
    ∀ (is : List Nat) (c : PieceChunks), is.Nodup → (∀ i ∈ is, i < c.states.length) → ∀ j p,
      (j, p) ∈ (freeWhere sel is c).2 ↔ j ∈ is ∧ ∃ since, c.states[j]? = some (.requested p since) ∧ sel p since = true
  | [], c, _, _, j, p => by simp [freeWhere]
  | i :: is, c, hnd, hlt, j, p => by
    have hi := hlt i (List.mem_cons_self ..)
    have hrest : ∀ j ∈ is, j < c.states.length := fun j hj => hlt j (List.mem_cons_of_mem _ hj)
    obtain ⟨hni, hnd'⟩ := List.nodup_cons.mp hnd
    have hgi := getElem?_of_lt hi
    rcases freeWhere_cons_cases sel i c with ⟨q, since, hs, hsel⟩ | hno
    · rw [freeWhere_cons_of_sel hs hsel, List.mem_cons,
        mem_freeWhere_freed sel is _ hnd' (by simpa using hrest) j p, states_set, List.getElem?_set]
      by_cases hij : i = j
      · subst hij
        simp only [hni, false_and, or_false, Prod.mk.injEq, true_and, List.mem_cons, hgi, hs,
          Option.some.injEq, ChunkState.requested.injEq]
        constructor
        · rintro rfl
          exact ⟨since, ⟨rfl, rfl⟩, hsel⟩
        · rintro ⟨_, ⟨h, _⟩, _⟩
          exact h.symm
      · simp [hij, Ne.symm hij]
    · rw [freeWhere_cons_of_not_sel hno, mem_freeWhere_freed sel is c hnd' hrest j p, List.mem_cons]
      by_cases hij : i = j
      · subst hij
        simp only [hni, false_and, true_or, true_and, hgi, Option.some.injEq, false_iff, not_exists, not_and]
        intro since hs
        simp [hno p since hs]
      · simp [Ne.symm hij]

theorem Counted.free (h : c.Counted) (sel : Nat → Nat → Bool) : (c.free sel).1.Counted :=
  freeWhere_counted sel _ c h (fun _ hi => List.mem_range.mp hi)

theorem getElem?_free (c : PieceChunks) (sel : Nat → Nat → Bool) (j : Nat) :
    (c.free sel).1.states[j]? = (c.states[j]?).map (freedState sel) := by
  rw [free, freeWhere_states sel _ c List.nodup_range (fun _ hi => List.mem_range.mp hi) j]
  by_cases hj : j < c.states.length
  · simp [hj]
  · simp [hj]

/-- Freeing goes through the states one by one. -/
theorem states_free (c : PieceChunks) (sel : Nat → Nat → Bool) :
    (c.free sel).1.states = c.states.map (freedState sel) := by
  apply List.ext_getElem?
  intro j
  rw [getElem?_free, List.getElem?_map]

theorem mem_free_freed {j p : Nat} :
    (j, p) ∈ (c.free sel).2 ↔ ∃ since, c.states[j]? = some (.requested p since) ∧ sel p since = true := by
  rw [free, mem_freeWhere_freed sel _ c List.nodup_range (fun _ hi => List.mem_range.mp hi) j p]
  constructor
  · rintro ⟨_, h⟩
    exact h
  · rintro ⟨since, hs, hsel⟩
    exact ⟨List.mem_range.mpr (List.getElem?_eq_some_iff.mp hs).1, since, hs, hsel⟩

/-- A loop that frees nothing changes nothing. -/
theorem freeWhere_eq_self (sel : Nat → Nat → Bool) :
    ∀ (is : List Nat) (c : PieceChunks), (freeWhere sel is c).2 = [] → (freeWhere sel is c).1 = c
  | [], _, _ => rfl
  | i :: is, c, h => by
    rcases freeWhere_cons_cases sel i c with ⟨p, since, hs, hsel⟩ | hno
    · rw [freeWhere_cons_of_sel hs hsel] at h
      cases h
    · rw [freeWhere_cons_of_not_sel hno] at h ⊢
      exact freeWhere_eq_self sel is c h

end PieceChunks

/-! ## Padding flags -/

theorem length_paddingScan (base pieceEnd : Nat) :
    ∀ (is : List Nat) (rest : List (Nat × Nat)), (paddingScan base pieceEnd is rest).length = is.length
  | [], _ => rfl
  | _ :: is, rest => by simp [paddingScan, length_paddingScan base pieceEnd is]

/-- There is one flag for each chunk of the piece. -/
theorem length_paddingFlags (l : Lengths) (padding : List (Nat × Nat)) (piece : ValidPieceIndex l) :
    (paddingFlags l padding piece).length = l.chunkCount piece := by
  unfold paddingFlags
  simp only
  split
  · simp
  · split
    · simp
    · simp [length_paddingScan]

/-- Some chunk of every piece is not padding: a piece of padding only is downloaded whole. -/
theorem exists_not_padding (l : Lengths) (padding : List (Nat × Nat)) (piece : ValidPieceIndex l) :
    false ∈ paddingFlags l padding piece := by
  have hpos := Lengths.chunkCount_pos piece
  unfold paddingFlags
  simp only
  split
  · simp; omega
  · split
    · simp; omega
    · rename_i hall
      simp only [List.all_eq_true, id, not_forall, Bool.not_eq_true] at hall
      obtain ⟨b, hb, hbf⟩ := hall
      exact hbf ▸ hb

namespace ChunkTracker

variable {l : Lengths}
variable {p q i : Nat} {c : PieceChunks} {asked : Nat → Bool}

/-! ## The invariant -/

/-- A tracked piece has a missing chunk. -/
def MissingAt (t : ChunkTracker l) (p : Nat) : Prop := ∃ c, t.pieces.get? p = some c ∧ .missing ∈ c.states

/-- A tracked piece has a requested chunk. -/
def RequestedAt (t : ChunkTracker l) (p : Nat) : Prop :=
  ∃ c, t.pieces.get? p = some c ∧ ∃ peer since, .requested peer since ∈ c.states

/-- The invariant of the tracker. Under `full`, the index of partial pieces is complete. -/
structure Indexed (full : Prop) (t : ChunkTracker l) : Prop where
  counted : ∀ p c, t.pieces.get? p = some c → c.Counted
  sized : ∀ p c, t.pieces.get? p = some c → ∃ h : p < l.totalPieces, c.states.length = l.chunkCount ⟨p, h⟩
  partials_sound : ∀ p, p ∈ t.partials → t.MissingAt p
  partials_complete : full → ∀ p, t.MissingAt p → p ∈ t.partials
  contested_iff : ∀ p, p ∈ t.contested ↔ t.RequestedAt p

/-- The piece-wise part of the invariant that indexing restores. -/
def IndexedAt (full : Prop) (t : ChunkTracker l) (p : Nat) : Prop :=
  (p ∈ t.partials → t.MissingAt p) ∧ (full → t.MissingAt p → p ∈ t.partials) ∧ (p ∈ t.contested ↔ t.RequestedAt p)

/-- The part of the invariant about the tracked pieces themselves. -/
def Tracked (t : ChunkTracker l) : Prop :=
  ∀ p c, t.pieces.get? p = some c → c.Counted ∧ ∃ h : p < l.totalPieces, c.states.length = l.chunkCount ⟨p, h⟩

theorem indexed_iff {full : Prop} {t : ChunkTracker l} : t.Indexed full ↔ t.Tracked ∧ ∀ p, t.IndexedAt full p := by
  constructor
  · intro h
    exact ⟨fun p c hc => ⟨h.counted p c hc, h.sized p c hc⟩,
      fun p => ⟨h.partials_sound p, fun hf => h.partials_complete hf p, h.contested_iff p⟩⟩
  · rintro ⟨ht, hp⟩
    exact ⟨fun p c hc => (ht p c hc).1, fun p c hc => (ht p c hc).2, fun p => (hp p).1, fun hf p => (hp p).2.1 hf,
      fun p => (hp p).2.2⟩

@[simp] theorem pieces_reindex (t : ChunkTracker l) (p : Nat) : (t.reindex p).pieces = t.pieces := rfl

@[simp] theorem padding_reindex (t : ChunkTracker l) (p : Nat) : (t.reindex p).padding = t.padding := rfl

@[simp] theorem pieces_store (t : ChunkTracker l) (p : Nat) (c : PieceChunks) :
    (t.store p c).pieces = t.pieces.insert p c := rfl

/-- Indexing a piece makes its index entries exact. -/
theorem indexedAt_reindex_self {full : Prop} {t : ChunkTracker l} (ht : t.Tracked) (p : Nat) :
    (t.reindex p).IndexedAt full p := by
  unfold IndexedAt MissingAt RequestedAt reindex
  cases hg : t.pieces.get? p with
  | none => simp
  | some c =>
    have hc := (ht p c hg).1
    simp only [Option.some.injEq, exists_eq_left', decide_eq_true_eq]
    rw [← hc.missing_pos_iff, ← hc.requested_pos_iff]
    by_cases h1 : 0 < c.missing <;> by_cases h2 : 0 < c.requested <;> simp [h1, h2]

/-- Indexing a piece leaves the index entries of the others. -/
theorem indexedAt_reindex_of_ne {full : Prop} {t : ChunkTracker l} (hne : q ≠ p) :
    (t.reindex p).IndexedAt full q ↔ t.IndexedAt full q := by
  have h1 : q ∈ (t.reindex p).partials ↔ q ∈ t.partials := by
    simp only [reindex]
    split <;> split_ifs <;> simp [hne]
  have h2 : q ∈ (t.reindex p).contested ↔ q ∈ t.contested := by
    simp only [reindex]
    split <;> split_ifs <;> simp [hne]
  unfold IndexedAt MissingAt RequestedAt
  rw [h1, h2]
  simp only [pieces_reindex]

/-- Indexing a piece restores the invariant when it was exact everywhere else. -/
theorem indexed_reindex {full : Prop} {t : ChunkTracker l} (ht : t.Tracked)
    (hoff : ∀ q, q ≠ p → t.IndexedAt full q) : (t.reindex p).Indexed full := by
  refine indexed_iff.mpr ⟨ht, fun q => ?_⟩
  by_cases hq : q = p
  · subst hq
    exact indexedAt_reindex_self ht q
  · exact (indexedAt_reindex_of_ne hq).mpr (hoff q hq)

/-- Indexing several pieces in turn restores the invariant when it was exact off those pieces. -/
theorem indexed_foldl_reindex {full : Prop} :
    ∀ (ps : List Nat) (t : ChunkTracker l), t.Tracked → (∀ q, q ∉ ps → t.IndexedAt full q) →
      (ps.foldl reindex t).Indexed full
  | [], _, ht, hoff => indexed_iff.mpr ⟨ht, fun q => hoff q (by simp)⟩
  | p :: ps, t, ht, hoff => by
    rw [List.foldl_cons]
    refine indexed_foldl_reindex ps (t.reindex p) ht (fun q hq => ?_)
    by_cases hqp : q = p
    · subst hqp
      exact indexedAt_reindex_self ht q
    · exact (indexedAt_reindex_of_ne hqp).mpr (hoff q (by simp [hqp, hq]))

/-- The index entries of a piece depend on nothing but the piece. -/
theorem IndexedAt.congr {full : Prop} {t t' : ChunkTracker l} (h : t.IndexedAt full q)
    (hp : t'.pieces.get? q = t.pieces.get? q) (h1 : t'.partials = t.partials) (h2 : t'.contested = t.contested) :
    t'.IndexedAt full q := by
  unfold IndexedAt MissingAt RequestedAt at h ⊢
  rw [hp, h1, h2]
  exact h

/-! ## Storing the chunks of a piece -/

theorem tracked_store {t : ChunkTracker l} (ht : t.Tracked) (piece : ValidPieceIndex l) (hc : c.Counted)
    (hlen : c.states.length = l.chunkCount piece) : (t.store piece.val c).Tracked := by
  intro p d hd
  rw [pieces_store, OrdMap.get?_insert] at hd
  split at hd
  · rename_i hp
    subst hp
    cases hd
    exact ⟨hc, piece.isLt, hlen⟩
  · exact ht p d hd

theorem IndexedAt.store_of_ne {full : Prop} {t : ChunkTracker l} (h : t.IndexedAt full q)
    (hne : q ≠ p) : (t.store p c).IndexedAt full q :=
  h.congr (by rw [pieces_store, OrdMap.get?_insert_of_ne _ _ hne]) rfl rfl

/-- Storing well-counted chunks and indexing the piece keeps the invariant. -/
theorem Indexed.store_reindex {full : Prop} {t : ChunkTracker l} (h : t.Indexed full) (piece : ValidPieceIndex l)
    (hc : c.Counted) (hlen : c.states.length = l.chunkCount piece) :
    ((t.store piece.val c).reindex piece.val).Indexed full := by
  obtain ⟨ht, hat⟩ := indexed_iff.mp h
  exact indexed_reindex (tracked_store ht piece hc hlen) (fun q hq => (hat q).store_of_ne hq)

/-- Indexing any piece keeps the invariant. -/
theorem Indexed.reindex {full : Prop} {t : ChunkTracker l} (h : t.Indexed full) (p : Nat) : (t.reindex p).Indexed full := by
  obtain ⟨ht, hat⟩ := indexed_iff.mp h
  exact indexed_reindex ht (fun q _ => hat q)

/-! ## `chunks_for` -/

theorem chunksFor_of_get? {t : ChunkTracker l} {piece : ValidPieceIndex l}
    (h : t.pieces.get? piece.val = some c) : t.chunksFor piece = c := by
  simp [chunksFor, h]

theorem chunksFor_of_untracked {t : ChunkTracker l} {piece : ValidPieceIndex l} (h : t.pieces.get? piece.val = none) :
    t.chunksFor piece = PieceChunks.new (t.paddingChunks piece) := by
  simp [chunksFor, h]

theorem chunksFor_counted {full : Prop} {t : ChunkTracker l} (h : t.Indexed full) (piece : ValidPieceIndex l) :
    (t.chunksFor piece).Counted := by
  cases hg : t.pieces.get? piece.val with
  | none => rw [chunksFor_of_untracked hg]; exact PieceChunks.counted_new _
  | some c => rw [chunksFor_of_get? hg]; exact h.counted _ _ hg

theorem length_chunksFor {full : Prop} {t : ChunkTracker l} (h : t.Indexed full) (piece : ValidPieceIndex l) :
    (t.chunksFor piece).states.length = l.chunkCount piece := by
  cases hg : t.pieces.get? piece.val with
  | none => rw [chunksFor_of_untracked hg, PieceChunks.length_new, paddingChunks, length_paddingFlags]
  | some c => rw [chunksFor_of_get? hg]; exact (h.sized _ _ hg).2

/-- Chunks that have just been created have none requested and, since no piece is all padding, some missing. -/
theorem missing_mem_new (t : ChunkTracker l) (piece : ValidPieceIndex l) :
    .missing ∈ (PieceChunks.new (t.paddingChunks piece)).states := by
  simp only [PieceChunks.new, List.mem_map]
  exact ⟨false, exists_not_padding l t.padding piece, rfl⟩

theorem not_requested_mem_new (flags : List Bool) (p since : Nat) :
    .requested p since ∉ (PieceChunks.new flags).states := by
  simp only [PieceChunks.new, List.mem_map, not_exists, not_and]
  intro b _
  cases b <;> simp

/-- Beginning to track a piece without indexing it keeps the invariant, but for the completeness of the partial index. -/
theorem Indexed.store_chunksFor {full : Prop} {t : ChunkTracker l} (h : t.Indexed full) (piece : ValidPieceIndex l)
    (hfull : full → t.pieces.get? piece.val ≠ none) : (t.store piece.val (t.chunksFor piece)).Indexed full := by
  obtain ⟨ht, hat⟩ := indexed_iff.mp h
  refine indexed_iff.mpr ⟨tracked_store ht piece (chunksFor_counted h piece) (length_chunksFor h piece), fun q => ?_⟩
  by_cases hq : q = piece.val
  · subst hq
    cases hg : t.pieces.get? piece.val with
    | some c =>
      refine (hat piece.val).congr ?_ rfl rfl
      rw [pieces_store, OrdMap.get?_insert_self, hg, chunksFor_of_get? hg]
    | none =>
      -- the piece was untracked, so neither index lists it; and it has no request yet
      have hnp : piece.val ∉ t.partials := by
        intro hp
        obtain ⟨c, hc, _⟩ := h.partials_sound _ hp
        rw [hg] at hc
        cases hc
      have hnc : piece.val ∉ t.contested := by
        intro hp
        obtain ⟨c, hc, _⟩ := (h.contested_iff _).mp hp
        rw [hg] at hc
        cases hc
      refine ⟨fun hp => absurd hp hnp, fun hf => absurd hg (hfull hf), fun hp => absurd hp hnc, ?_⟩
      rintro ⟨c, hc, p, since, hm⟩
      rw [pieces_store, OrdMap.get?_insert_self, chunksFor_of_untracked hg] at hc
      cases hc
      exact absurd hm (not_requested_mem_new _ p since)
  · exact (hat q).store_of_ne hq

/-! ## The calls -/

theorem indexed_new (full : Prop) (ranges : List (Nat × Nat)) : ((ChunkTracker.new l).withPadding ranges).Indexed full := by
  refine ⟨?_, ?_, ?_, ?_, ?_⟩ <;> simp [new, withPadding, MissingAt, RequestedAt]

theorem Indexed.setEndgame {full : Prop} {t : ChunkTracker l} (h : t.Indexed full) (on : Bool) :
    (t.setEndgame on).Indexed full := ⟨h.counted, h.sized, h.partials_sound, h.partials_complete, h.contested_iff⟩

/-- The scan answers with one of the indices it is given, or with the candidate it started from. -/
theorem scanChunks_mem {states : List ChunkState} {endgame : Bool} {peer : Nat} :
    ∀ {is : List Nat} {cand : Option Nat} {i : Nat}, scanChunks states endgame peer asked is cand = some i →
      i ∈ is ∨ cand = some i
  | [], _, _, h => Or.inr h
  | j :: is, cand, i, h => by
    rw [scanChunks] at h
    split at h
    · split at h
      · cases h
        exact Or.inl (List.mem_cons_self ..)
      · rcases scanChunks_mem h with h | h
        · exact Or.inl (List.mem_cons_of_mem _ h)
        · exact Or.inr h
    · split at h
      · rcases scanChunks_mem h with h | h
        · exact Or.inl (List.mem_cons_of_mem _ h)
        · cases h
          exact Or.inl (List.mem_cons_self ..)
      · rcases scanChunks_mem h with h | h
        · exact Or.inl (List.mem_cons_of_mem _ h)
        · exact Or.inr h
    · rcases scanChunks_mem h with h | h
      · exact Or.inl (List.mem_cons_of_mem _ h)
      · exact Or.inr h

/-- The order of the scan visits every chunk of the piece. -/
theorem mem_scanOrder (start : Nat) {len : Nat} (hi : i < len) : i ∈ (List.range len).map (fun k => (start + k) % len) := by
  rw [List.mem_map]
  have hpos : 0 < len := by omega
  refine ⟨(i + (len - start % len)) % len, List.mem_range.mpr (Nat.mod_lt _ hpos), ?_⟩
  have hs : start % len < len := Nat.mod_lt _ hpos
  rw [Nat.add_mod, Nat.mod_mod, ← Nat.add_mod, Nat.add_mod start]
  have : (start % len + (i + (len - start % len)) % len) % len = (i + len) % len := by
    rw [Nat.add_mod_mod]
    congr 1
    omega
  rw [this, Nat.add_mod_right, Nat.mod_eq_of_lt hi]

/-- The indices of the scan are chunk indices. -/
theorem scanOrder_lt {start len : Nat} (h : i ∈ (List.range len).map (fun k => (start + k) % len)) : i < len := by
  obtain ⟨k, hk, rfl⟩ := List.mem_map.mp h
  have := List.mem_range.mp hk
  exact Nat.mod_lt _ (by omega)

/-- The scan finds a missing chunk that was not asked for whenever it visits one. -/
theorem scanChunks_isSome {states : List ChunkState} (endgame : Bool) (peer : Nat)
    (hm : states[i]? = some .missing) (ha : asked i = false) :
    ∀ {is : List Nat} (cand : Option Nat), i ∈ is → (scanChunks states endgame peer asked is cand).isSome = true
  | [], _, h => by cases h
  | j :: is, cand, h => by
    rw [scanChunks]
    by_cases hj : i = j
    · subst hj
      simp [hm, ha]
    · have his : i ∈ is := by
        rcases List.mem_cons.mp h with h | h
        · exact absurd h hj
        · exact h
      split
      · split
        · rfl
        · exact scanChunks_isSome endgame peer hm ha _ his
      · split
        · exact scanChunks_isSome endgame peer hm ha _ his
        · exact scanChunks_isSome endgame peer hm ha _ his
      · exact scanChunks_isSome endgame peer hm ha _ his

/-- What `next_chunk_skipping` does: it only begins to track the piece, or it hands out one of its chunks. -/
theorem nextChunkSkipping_cases (t : ChunkTracker l) (piece : ValidPieceIndex l) (peer : Nat) (asked : Nat → Bool)
    (now : Nat) :
    t.nextChunkSkipping piece peer asked now = (t.store piece.val (t.chunksFor piece), none) ∨
      ∃ i info, i < (t.chunksFor piece).states.length ∧ l.chunkInfo piece i = some info ∧
        scanChunks (t.chunksFor piece).states t.endgame peer asked
          ((List.range (t.chunksFor piece).states.length).map
            (fun k => (scanStart t.endgame peer piece.val (t.chunksFor piece).states.length + k) %
              (t.chunksFor piece).states.length)) none = some i ∧
        t.nextChunkSkipping piece peer asked now =
          (((t.store piece.val (t.chunksFor piece)).store piece.val
              ((t.chunksFor piece).set i (.requested peer now))).reindex piece.val,
            some { info := info, priorState := (t.chunksFor piece).stateAt i }) := by
  unfold nextChunkSkipping
  simp only
  split
  · exact Or.inl rfl
  split
  · exact Or.inl rfl
  rename_i i hi
  split
  · exact Or.inl rfl
  · rename_i info hinfo
    have hlt : i < (t.chunksFor piece).states.length := by
      rcases scanChunks_mem hi with h | h
      · exact scanOrder_lt h
      · cases h
    exact Or.inr ⟨i, info, hlt, hinfo, hi, rfl⟩

/-- An untracked piece with a chunk that is neither padding nor asked for is handed out, so it is indexed. -/
theorem nextChunkSkipping_fresh {full : Prop} {t : ChunkTracker l} (h : t.Indexed full) {piece : ValidPieceIndex l}
    (hg : t.pieces.get? piece.val = none) {peer : Nat} {now c : Nat}
    (hpad : (t.paddingChunks piece)[c]? = some false) (hask : asked c = false) :
    (t.nextChunkSkipping piece peer asked now).2.isSome = true := by
  have hst : (t.chunksFor piece).states[c]? = some .missing := by
    rw [chunksFor_of_untracked hg]
    simp [PieceChunks.new, hpad]
  have hc : c < (t.chunksFor piece).states.length := (List.getElem?_eq_some_iff.mp hst).1
  have hmiss : 0 < (t.chunksFor piece).missing :=
    (chunksFor_counted h piece).missing_pos_iff.mpr (List.mem_of_getElem? hst)
  unfold nextChunkSkipping
  simp only
  rw [if_neg (by simp; exact ⟨by intro h0; simp [h0] at hc, by omega⟩)]
  have hsome := scanChunks_isSome t.endgame peer hst hask none
    (mem_scanOrder (scanStart t.endgame peer piece.val (t.chunksFor piece).states.length) hc)
  obtain ⟨i, hi⟩ := Option.isSome_iff_exists.mp hsome
  rw [hi]
  have hlt : i < l.chunkCount piece := by
    rw [← length_chunksFor h piece]
    rcases scanChunks_mem hi with h | h
    · exact scanOrder_lt h
    · cases h
  obtain ⟨info, hinfo⟩ := Option.isSome_iff_exists.mp ((Lengths.chunkInfo_isSome_iff piece i).mpr hlt)
  simp [hinfo]

theorem Indexed.nextChunkSkipping {full : Prop} {t : ChunkTracker l} (h : t.Indexed full) (piece : ValidPieceIndex l)
    (peer : Nat) (asked : Nat → Bool) (now : Nat)
    (hfull : full → t.pieces.get? piece.val ≠ none ∨ ∃ c, (t.paddingChunks piece)[c]? = some false ∧ asked c = false) :
    (t.nextChunkSkipping piece peer asked now).1.Indexed full := by
  rcases nextChunkSkipping_cases t piece peer asked now with heq | ⟨i, info, hi, _, _, heq⟩
  · rw [heq]
    refine h.store_chunksFor piece (fun hf hg => ?_)
    rcases hfull hf with hg' | ⟨c, hpad, hask⟩
    · exact hg' hg
    · have hfresh : (t.nextChunkSkipping piece peer asked now).2.isSome = true := nextChunkSkipping_fresh h hg hpad hask
      rw [heq] at hfresh
      cases hfresh
  · rw [heq]
    have hc := (chunksFor_counted h piece).set hi (.requested peer now)
    have hlen := (PieceChunks.length_set (t.chunksFor piece) i (.requested peer now)).trans (length_chunksFor h piece)
    obtain ⟨ht, hat⟩ := indexed_iff.mp h
    refine indexed_reindex
      (tracked_store (tracked_store ht piece (chunksFor_counted h piece) (length_chunksFor h piece)) piece hc hlen) ?_
    intro q hq
    exact ((hat q).store_of_ne hq).store_of_ne hq

theorem Indexed.markReceived {full : Prop} {t : ChunkTracker l} (h : t.Indexed full) (info : ChunkInfo l)
    (hfull : full → t.pieces.get? info.pieceIndex.val ≠ none ∨ info.chunkIndex < l.chunkCount info.pieceIndex) :
    (t.markReceived info).1.Indexed full := by
  unfold ChunkTracker.markReceived
  simp only
  split
  · rename_i hlt
    exact h.store_reindex info.pieceIndex ((chunksFor_counted h _).set hlt _)
      ((PieceChunks.length_set ..).trans (length_chunksFor h _))
  · rename_i hge
    refine h.store_chunksFor info.pieceIndex (fun hf hg => ?_)
    rw [length_chunksFor h] at hge
    rcases hfull hf with hg' | hlt
    · exact hg' hg
    · exact hge hlt

/-- `mark_received` on a chunk of the piece reports exactly whether every chunk is then received. -/
theorem markReceived_done_iff {full : Prop} {t : ChunkTracker l} (h : t.Indexed full) {info : ChunkInfo l}
    (hlt : info.chunkIndex < l.chunkCount info.pieceIndex) :
    (t.markReceived info).2 = true ↔
      ∃ c, (t.markReceived info).1.pieces.get? info.pieceIndex.val = some c ∧ ∀ s ∈ c.states, s = .received := by
  have hlt' : info.chunkIndex < (t.chunksFor info.pieceIndex).states.length := by rwa [length_chunksFor h]
  unfold ChunkTracker.markReceived
  simp only [hlt', if_true, pieces_reindex, pieces_store, OrdMap.get?_insert_self, Option.some.injEq, exists_eq_left']
  rw [← ((chunksFor_counted h _).set hlt' _).done_iff]
  simp

theorem Indexed.freeAll_tracked {full : Prop} {t : ChunkTracker l} (h : t.Indexed full) (sel : Nat → Nat → Bool) :
    (t.freeAll sel).1.Tracked := by
  intro p c hc
  simp only [freeAll, OrdMap.get?_mapVal, Option.map_eq_some_iff] at hc
  obtain ⟨d, hd, rfl⟩ := hc
  refine ⟨(h.counted p d hd).free sel, ?_⟩
  rw [PieceChunks.states_free, List.length_map]
  exact h.sized p d hd

/-- A piece in which nothing is freed keeps its index entries. -/
theorem indexedAt_freeAll {full : Prop} {t : ChunkTracker l} (h : t.Indexed full) {sel : Nat → Nat → Bool}
    (hq : ∀ c, t.pieces.get? q = some c → (c.free sel).2 = []) : (t.freeAll sel).1.IndexedAt full q := by
  refine ((indexed_iff.mp h).2 q).congr ?_ rfl rfl
  simp only [freeAll, OrdMap.get?_mapVal]
  cases hg : t.pieces.get? q with
  | none => rfl
  | some c => simp [PieceChunks.free, PieceChunks.freeWhere_eq_self sel _ c (hq c hg)]

theorem Indexed.releasePeer {full : Prop} {t : ChunkTracker l} (h : t.Indexed full) (peer : Nat) :
    (t.releasePeer peer).1.Indexed full := by
  unfold ChunkTracker.releasePeer
  refine indexed_foldl_reindex _ _ (h.freeAll_tracked _) (fun q hq => indexedAt_freeAll h (fun c hc => ?_))
  by_contra hne
  refine hq (List.mem_map.mpr ⟨(q, (c.free (fun p _ => p == peer)).2), List.mem_filter.mpr ⟨?_, ?_⟩, rfl⟩)
  · exact List.mem_map.mpr ⟨(q, c), OrdMap.get?_eq_some_iff.mp hc, rfl⟩
  · simpa using hne

theorem Indexed.reclaimStale {full : Prop} {t : ChunkTracker l} (h : t.Indexed full) (now timeout : Nat) :
    (t.reclaimStale now timeout).1.Indexed full := by
  unfold ChunkTracker.reclaimStale
  simp only
  rw [← List.foldl_map]
  refine indexed_foldl_reindex _ _ (h.freeAll_tracked _) (fun q hq => indexedAt_freeAll h (fun c hc => ?_))
  by_contra hne
  obtain ⟨f, hf⟩ := List.exists_mem_of_ne_nil _ hne
  refine hq (List.mem_map.mpr ⟨{ piece := q, begin := f.1 * chunkSize, peer := f.2 }, List.mem_flatMap.mpr ?_, rfl⟩)
  exact ⟨(q, (c.free _).2), List.mem_map.mpr ⟨(q, c), OrdMap.get?_eq_some_iff.mp hc, rfl⟩, List.mem_map.mpr ⟨f, hf, rfl⟩⟩

theorem Indexed.resetPiece {full : Prop} {t : ChunkTracker l} (h : t.Indexed full) (piece : ValidPieceIndex l) :
    (t.resetPiece piece).Indexed full := by
  unfold ChunkTracker.resetPiece
  split
  · exact h.store_reindex piece (PieceChunks.counted_new _)
      (by rw [PieceChunks.length_new, paddingChunks, length_paddingFlags])
  · exact h.reindex _

theorem Indexed.unrequestChunk {full : Prop} {t : ChunkTracker l} (h : t.Indexed full) (piece : ValidPieceIndex l)
    (chunkIndex : Nat) (priorState : ChunkState) : (t.unrequestChunk piece chunkIndex priorState).Indexed full := by
  unfold ChunkTracker.unrequestChunk
  split
  · rename_i c hc
    split
    · rename_i hreq
      have hlt : chunkIndex < c.states.length := by
        by_contra hge
        simp [List.getD, List.getElem?_eq_none (not_lt.mp hge), ChunkState.isRequested] at hreq
      exact h.store_reindex piece ((h.counted _ _ hc).set hlt _) ((PieceChunks.length_set ..).trans (h.sized _ _ hc).2)
    · exact h.reindex _
  · exact h.reindex _

theorem Indexed.rejectChunk {full : Prop} {t : ChunkTracker l} (h : t.Indexed full) (piece : ValidPieceIndex l)
    (chunkIndex peer : Nat) : (t.rejectChunk piece chunkIndex peer).Indexed full := by
  unfold ChunkTracker.rejectChunk
  split
  · rename_i c hc
    split
    · rename_i p since hreq
      split
      · have hlt := (List.getElem?_eq_some_iff.mp hreq).1
        exact h.store_reindex piece ((h.counted _ _ hc).set hlt _) ((PieceChunks.length_set ..).trans (h.sized _ _ hc).2)
      · exact h.reindex _
    · exact h.reindex _
  · exact h.reindex _

theorem Indexed.forgetPiece {full : Prop} {t : ChunkTracker l} (h : t.Indexed full) (piece : ValidPieceIndex l) :
    (t.forgetPiece piece).Indexed full := by
  obtain ⟨ht, hat⟩ := indexed_iff.mp h
  refine indexed_reindex ?_ (fun q hq => (hat q).congr ?_ rfl rfl)
  · intro p c hc
    rw [OrdMap.get?_erase] at hc
    split at hc
    · cases hc
    · exact ht p c hc
  · exact OrdMap.get?_erase_of_ne _ hq

end ChunkTracker

end Risuko
