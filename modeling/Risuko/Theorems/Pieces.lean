import Risuko.Lemmas.Assembly
import Risuko.Lemmas.Padding
import Risuko.Lemmas.Webseed
import Risuko.Lib.Reach

/-!
# Pieces and chunks

What the trackers of pieces and of chunks hand out, and what the progress of a torrent says.
-/

namespace Risuko

/-!
## The piece tracker over whole runs

A tracker starts fresh, with or without an order salt, and is changed by calls in any order (`PieceOp`). In every state reached
the three running summaries are what a full scan of the flags would give (`summaries_exact`), and a scan by repeated calls of
`next_requestable` from cursor zero yields every requestable piece of a peer once and nothing else (`scan_complete`).
-/

section

variable {l : Lengths}

/-- The trackers reached from a fresh one by calls in any order. -/
def TrackerRun (l : Lengths) : PieceTracker l → Prop :=
  Reach (fun t => t = PieceTracker.new l ∨ ∃ salt, t = (PieceTracker.new l).withOrderSalt salt)
    (fun t t' => ∃ op : PieceOp l, t' = op.apply t)

/-- Every operation leaves the tracker settled. -/
theorem TrackerRun.settled {t : PieceTracker l} (h : TrackerRun l t) : t.Settled := by
  refine Reach.invariant ?_ ?_ h
  · rintro s (rfl | ⟨salt, rfl⟩)
    · exact PieceTracker.settled_new l
    · exact (PieceTracker.settled_new l).withOrderSalt salt
  · rintro s s' hs ⟨op, rfl⟩
    exact hs.apply op

/-- Every operation keeps the order of its pieces. -/
theorem TrackerRun.ordered {t : PieceTracker l} (h : TrackerRun l t) : t.Ordered := by
  refine Reach.invariant ?_ ?_ h
  · rintro s (rfl | ⟨salt, rfl⟩)
    · exact PieceTracker.ordered_new l
    · exact (PieceTracker.ordered_new l).withOrderSalt salt
  · rintro s s' hs ⟨op, rfl⟩
    exact hs.apply op

/-- No bytes are left exactly when every wanted piece is local: every piece holds a byte. -/
theorem isComplete_iff {t : PieceTracker l} (h : t.Settled) :
    t.isComplete = true ↔ ∀ i, t.wanted i = true → t.haveLocal i = true := by
  unfold PieceTracker.isComplete
  rw [beq_iff_eq, h.left, Finset.sum_eq_zero_iff]
  refine ⟨fun hz i hw => ?_, fun hall i _ => ?_⟩
  · have := hz i (Finset.mem_univ i)
    unfold PieceTracker.leftShare at this
    cases hl : t.haveLocal i with
    | true => rfl
    | false =>
      rw [hw, hl] at this
      simp only [Bool.not_false, Bool.and_self, if_true] at this
      have := Lengths.pieceLengthOf_pos i
      omega
  · unfold PieceTracker.leftShare
    cases hw : t.wanted i with
    | false => simp
    | true => simp [hall i hw]

/-- `any_useful` answers whether the peer has a piece that is wanted and not local. -/
theorem anyUseful_iff {t : PieceTracker l} (h : t.Settled) (bitfield : List UInt8) :
    t.anyUseful bitfield = true ↔ ∃ i, bitAt bitfield i.val = true ∧ t.wanted i = true ∧ t.haveLocal i = false := by
  unfold PieceTracker.anyUseful
  rw [any_zip_and_iff]
  constructor
  · rintro ⟨j, hb, hn⟩
    obtain ⟨hj, hu⟩ := (h.needed.2 j).mp hn
    simp only [PieceTracker.isUseful, Bool.and_eq_true, Bool.not_eq_true'] at hu
    exact ⟨⟨j, hj⟩, hb, hu⟩
  · rintro ⟨i, hb, hw, hl⟩
    exact ⟨i.val, hb, (h.needed.2 i.val).mpr ⟨i.isLt, by simp [PieceTracker.isUseful, hw, hl]⟩⟩

/-- In every state reached: the count of requestable pieces, the bytes left and the bitmap of needed pieces are exact, no
subtraction went below zero, and the two questions answered from them are answered right. -/
theorem summaries_exact (l : Lengths) (t : PieceTracker l) (h : TrackerRun l t) :
    t.requestable = (Finset.univ.filter (fun i => t.wanted i = true ∧ t.haveLocal i = false ∧ t.inFlight i = false)).card ∧
      t.left = ∑ i with t.wanted i = true ∧ t.haveLocal i = false, l.pieceLengthOf i ∧
      t.underflow = false ∧
      (t.isComplete = true ↔ ∀ i, t.wanted i = true → t.haveLocal i = true) ∧
      (∀ j, bitAt t.needed j = true ↔ ∃ hj : j < l.totalPieces, t.wanted ⟨j, hj⟩ = true ∧ t.haveLocal ⟨j, hj⟩ = false) ∧
      ∀ bitfield : List UInt8, t.anyUseful bitfield = true ↔
        ∃ i, bitAt bitfield i.val = true ∧ t.wanted i = true ∧ t.haveLocal i = false := by
  have hs := h.settled
  refine ⟨?_, ?_, hs.exact, isComplete_iff hs, fun j => ?_, anyUseful_iff hs⟩
  · rw [hs.requestable, Finset.card_filter]
    simp only [PieceTracker.requestShare, Bool.and_eq_true, Bool.not_eq_true', and_assoc]
  · rw [hs.left, Finset.sum_filter]
    simp only [PieceTracker.leftShare, Bool.and_eq_true, Bool.not_eq_true']
  · rw [hs.needed.2 j]
    simp only [PieceTracker.isUseful, Bool.and_eq_true, Bool.not_eq_true']

/-- A torrent of forty bytes in three pieces, the last one short. -/
def threePieces : Lengths where
  totalLength := 40
  pieceLength := 16
  lastPieceIndex := 2
  lastPieceLength := 8

/-- A run of two calls: the first piece becomes local and the second is marked in flight. -/
theorem threePieces_run :
    TrackerRun threePieces ((PieceOp.markInFlight ⟨1, by decide⟩).apply
      ((PieceOp.setLocal ⟨0, by decide⟩ true).apply (PieceTracker.new threePieces))) :=
  .step (.step (.init (Or.inl rfl)) ⟨_, rfl⟩) ⟨_, rfl⟩

/-- After that run one piece is requestable and the bytes of two are left. -/
theorem summaries_exact_three :
    ∃ t : PieceTracker threePieces, TrackerRun threePieces t ∧ t.requestable = 1 ∧ t.left = 24 ∧
      t.left = ∑ i with t.wanted i = true ∧ t.haveLocal i = false, threePieces.pieceLengthOf i :=
  ⟨_, threePieces_run, by decide +kernel, by decide +kernel, (summaries_exact threePieces _ threePieces_run).2.1⟩

/-- Calls of `next_requestable` until one finds nothing: the pieces found, in order, and the tracker after them. No result when
the calls do not end within the fuel. -/
def scanAll (bitfield : List UInt8) : Nat → PieceTracker l → Nat → Option (List (ValidPieceIndex l) × PieceTracker l)
  | 0, _, _ => none
  | fuel + 1, t, cursor =>
    match t.nextRequestable bitfield cursor with
    | (t', none, _) => some ([], t')
    | (t', some p, cursor') => (scanAll bitfield fuel t' cursor').map (fun r => (p :: r.1, r.2))

/-- A scan with an order in place finds the pieces on offer from the cursor on, in the order's order. -/
theorem scanAll_ordered {t : PieceTracker l} (h : t.Ordered) (hr : t.rebuild = false) (bitfield : List UInt8) (cursor : Nat)
    {out : List (ValidPieceIndex l)} (hout : (t.sorted.drop (max cursor t.deadPrefix)).filter (t.offers bitfield) = out) :
    ∃ t', ∀ fuel, out.length < fuel → scanAll bitfield fuel t cursor = some (out, t') := by
  induction out generalizing t cursor with
  | nil =>
    obtain ⟨found, c, d, heq, _, _, hres⟩ := PieceTracker.nextRequestable_spec h hr bitfield cursor
    rcases hres with ⟨rfl, _⟩ | ⟨p, _, hcons⟩
    · refine ⟨{ t with deadPrefix := d }, fun fuel hfuel => ?_⟩
      obtain ⟨n, rfl⟩ : ∃ n, fuel = n + 1 := ⟨fuel - 1, by simp at hfuel; omega⟩
      simp only [scanAll, heq]
    · rw [hout] at hcons
      cases hcons
  | cons p rest ih =>
    obtain ⟨found, c, d, heq, hdc, hord, hres⟩ := PieceTracker.nextRequestable_spec h hr bitfield cursor
    rcases hres with ⟨_, hnil⟩ | ⟨q, rfl, hcons⟩
    · rw [hout] at hnil
      cases hnil
    · rw [hout] at hcons
      obtain ⟨rfl, hrest⟩ := List.cons.inj hcons
      -- the dead prefix is behind the cursor after the call, so the next call goes on where this one stopped
      obtain ⟨t', ht'⟩ := ih (t := { t with deadPrefix := d }) hord hr c
        (by
          rw [Nat.max_eq_left hdc]
          exact hrest.symm)
      refine ⟨t', fun fuel hfuel => ?_⟩
      obtain ⟨n, rfl⟩ : ∃ n, fuel = n + 1 := ⟨fuel - 1, by simp at hfuel; omega⟩
      simp only [scanAll, heq, ht' n (by simpa using hfuel), Option.map_some]

/-- In every state reached, and for every peer bitfield, a scan from cursor zero ends after at most as many calls as there are
pieces and one more, and finds exactly the pieces that are wanted, not local, not in flight and in the bitfield, each once. -/
theorem scan_complete (l : Lengths) (t : PieceTracker l) (h : TrackerRun l t) (bitfield : List UInt8) :
    ∃ out t', (∀ fuel, l.totalPieces < fuel → scanAll bitfield fuel t 0 = some (out, t')) ∧ out.Nodup ∧
      ∀ p, p ∈ out ↔
        t.wanted p = true ∧ t.haveLocal p = false ∧ t.inFlight p = false ∧ bitAt bitfield p.val = true := by
  obtain ⟨ho, hr⟩ := h.ordered.withOrder
  obtain ⟨hnodup, hmem⟩ := ho.filter_offers hr bitfield
  obtain ⟨t', ht'⟩ := scanAll_ordered ho hr bitfield 0
    (show _ = (t.withOrder.sorted.drop t.withOrder.deadPrefix).filter (t.withOrder.offers bitfield) by rw [Nat.zero_max])
  refine ⟨_, t', fun fuel hfuel => ?_, hnodup, fun p => ?_⟩
  · have hlen := hnodup.length_le_card
    rw [Fintype.card_fin] at hlen
    obtain ⟨n, rfl⟩ : ∃ n, fuel = n + 1 := ⟨fuel - 1, by omega⟩
    rw [← ht' (n + 1) (by omega)]
    simp only [scanAll, PieceTracker.nextRequestable_withOrder t]
  · rw [hmem p]
    unfold PieceTracker.offers
    rw [PieceTracker.isRequestable_withOrder]
    simp only [PieceTracker.isRequestable, Bool.and_eq_true, Bool.not_eq_true', and_assoc]

/-- A scan of the run above for a peer that has every piece finds the one piece that is neither local nor in flight. -/
theorem scan_complete_three :
    ∃ t : PieceTracker threePieces, TrackerRun threePieces t ∧
      ∃ out t', (∀ fuel, 3 < fuel → scanAll [0xff] fuel t 0 = some (out, t')) ∧ out = [⟨2, by decide⟩] := by
  have hrun := threePieces_run
  obtain ⟨out, t', hall, _, _⟩ := scan_complete threePieces _ hrun [0xff]
  refine ⟨_, hrun, out, t', hall, ?_⟩
  have h4 := hall 4 (by decide)
  have : (scanAll [0xff] 4 ((PieceOp.markInFlight (⟨1, by decide⟩ : ValidPieceIndex threePieces)).apply
      ((PieceOp.setLocal ⟨0, by decide⟩ true).apply (PieceTracker.new threePieces))) 0).map Prod.fst = some [⟨2, by decide⟩] := by
    decide +kernel
  rw [h4] at this
  simpa using this

end

/-!
## Padding chunks

Whatever ranges a tracker is given, a chunk is padding when all its bytes lie in them, in a piece that has other chunks too.
-/

section

variable {l : Lengths}

namespace ChunkTracker

/-- The flags of a piece: one for each chunk, set where every byte of the chunk lies in some range, unless this is so of every chunk of the piece. -/
theorem padding_chunks_exact (t : ChunkTracker l) (ranges : List (ℕ × ℕ)) (piece : ValidPieceIndex l) :
    ((t.withPadding ranges).paddingChunks piece).length = l.chunkCount piece ∧
      ∀ c < l.chunkCount piece, ((t.withPadding ranges).paddingChunks piece)[c]? = some true ↔
        InPadding ranges piece c ∧ ∃ d < l.chunkCount piece, ¬ InPadding ranges piece d := by
  have hflags : (t.withPadding ranges).paddingChunks piece = paddingFlags l (mergedPadding ranges) piece := rfl
  have hnone : ∀ c : ℕ, (List.replicate (l.chunkCount piece) false)[c]? ≠ some true := by
    intro c hc
    rw [List.getElem?_replicate, Option.ite_none_right_eq_some] at hc
    cases hc.2
  have hscanned : ∀ {c : ℕ} {flag : Bool}, (paddingScan (l.pieceOffset piece) (l.pieceOffset piece + l.pieceLengthOf piece)
      (List.range (l.chunkCount piece)) ((mergedPadding ranges).dropWhile fun r => r.2 ≤ l.pieceOffset piece))[c]? = some flag →
      c < l.chunkCount piece := by
    intro c flag hflag
    have hlt := (List.getElem?_eq_some_iff.mp hflag).1
    rwa [length_paddingScan, List.length_range] at hlt
  rw [hflags]
  unfold paddingFlags
  dsimp only
  split
  · rename_i hempty
    refine ⟨List.length_replicate .., fun c hc => iff_of_false (hnone c) fun hin => ?_⟩
    exact hin.1.merged_ne_nil hc (List.isEmpty_iff.mp hempty)
  · split
    · -- All chunks are covered.
      rename_i hall
      refine ⟨List.length_replicate .., fun c hc => iff_of_false (hnone c) ?_⟩
      rintro ⟨-, d, hd, hnot⟩
      refine hnot ((getElem?_paddingScan ranges hd).mp ?_)
      have hlt : d < (paddingScan (l.pieceOffset piece) (l.pieceOffset piece + l.pieceLengthOf piece) (List.range (l.chunkCount piece))
          ((mergedPadding ranges).dropWhile fun r => r.2 ≤ l.pieceOffset piece)).length := by
        rwa [length_paddingScan, List.length_range]
      have hflag := List.all_eq_true.mp hall _ (List.getElem_mem hlt)
      rw [id_eq] at hflag
      rw [List.getElem?_eq_getElem hlt, hflag]
    · rename_i hsome
      refine ⟨by rw [length_paddingScan, List.length_range], fun c hc => ?_⟩
      rw [getElem?_paddingScan ranges hc]
      refine ⟨fun hin => ⟨hin, ?_⟩, And.left⟩
      by_contra hall
      push Not at hall
      refine hsome (List.all_eq_true.mpr fun flag hflag => ?_)
      obtain ⟨d, hd⟩ := List.mem_iff_getElem?.mp hflag
      have hmarked := (getElem?_paddingScan ranges (hscanned hd)).mpr (hall d (hscanned hd))
      rw [hd] at hmarked
      exact Option.some.inj hmarked

end ChunkTracker

end

/-!
## The chunk tracker's counters and indexes over whole runs

A tracker starts empty with its padding ranges and is then changed by calls in any order (`ChunkOp`). Its counters and its
index of contested pieces are exact in every state reached. Its index of partial pieces is not: `next_chunk_skipping` on a
piece not yet tracked, asked for a chunk the caller skips everywhere, begins to track the piece and returns before the line
that indexes it (`index_exact_false`); `mark_received` past the end of an untracked piece does the same. Without these calls the
index is exact too (`index_exact_of_indexing_calls`).
-/

section

variable {l : Lengths}

namespace ChunkTracker

/-- The two counters of every tracked piece count its chunks, and no subtraction on them went below zero. -/
def CountersExact (t : ChunkTracker l) : Prop :=
  ∀ p c, t.pieces.get? p = some c →
    c.missing = c.states.countP ChunkState.isMissing ∧ c.requested = c.states.countP ChunkState.isRequested ∧
      c.underflow = false

/-- The partial index lists exactly the tracked pieces with a missing chunk. -/
def PartialsExact (t : ChunkTracker l) : Prop := ∀ p, p ∈ t.partials ↔ t.MissingAt p

/-- The contested index lists exactly the tracked pieces with a requested chunk. -/
def ContestedExact (t : ChunkTracker l) : Prop := ∀ p, p ∈ t.contested ↔ t.RequestedAt p

/-- `mark_received` reports that the piece is done exactly when every chunk of it is then received. -/
def DoneExact (t : ChunkTracker l) (info : ChunkInfo l) : Prop :=
  (t.markReceived info).2 = true ↔
    ∃ c, (t.markReceived info).1.pieces.get? info.pieceIndex.val = some c ∧ ∀ s ∈ c.states, s = .received

end ChunkTracker

/-- The calls that leave every piece they begin to track indexed. A call of `next_chunk_skipping` on an untracked piece does so
when some chunk of the piece is neither padding nor skipped; a call of `mark_received` when its chunk is one of the piece, or
(so that its answer is right as well) when the piece is tracked and not complete. -/
def ChunkOp.Indexes (t : ChunkTracker l) : ChunkOp l → Prop
  | .nextChunkSkipping piece _ asked _ =>
    t.pieces.get? piece.val ≠ none ∨ ∃ c, (t.paddingChunks piece)[c]? = some false ∧ asked c = false
  | .markReceived info =>
    info.chunkIndex < l.chunkCount info.pieceIndex ∨
      ∃ c, t.pieces.get? info.pieceIndex.val = some c ∧ ∃ s ∈ c.states, s ≠ .received
  | _ => True

namespace ChunkTracker

/-- A call that indexes what it tracks keeps the whole invariant; any call keeps the rest of it. -/
theorem indexed_apply {full : Prop} {t : ChunkTracker l} (h : t.Indexed full) (op : ChunkOp l)
    (hop : full → op.Indexes t) : (op.apply t).Indexed full := by
  cases op with
  | nextChunkSkipping piece peer asked now => exact h.nextChunkSkipping piece peer asked now hop
  | markReceived info =>
    refine h.markReceived info (fun hf => ?_)
    rcases hop hf with hlt | ⟨c, hc, _⟩
    · exact Or.inr hlt
    · exact Or.inl (by rw [hc]; simp)
  | releasePeer peer => exact h.releasePeer peer
  | rejectChunk piece chunkIndex peer => exact h.rejectChunk piece chunkIndex peer
  | unrequestChunk piece chunkIndex priorState => exact h.unrequestChunk piece chunkIndex priorState
  | reclaimStale now timeout => exact h.reclaimStale now timeout
  | resetPiece piece => exact h.resetPiece piece
  | forgetPiece piece => exact h.forgetPiece piece
  | setEndgame on => exact h.setEndgame on

/-- `mark_received` past the end of a tracked piece that is not complete: the answer is no, and the piece is unchanged. -/
theorem doneExact_of_incomplete {t : ChunkTracker l} {info : ChunkInfo l} {c : PieceChunks}
    (hge : ¬ info.chunkIndex < (t.chunksFor info.pieceIndex).states.length)
    (hc : t.pieces.get? info.pieceIndex.val = some c) {s : ChunkState} (hs : s ∈ c.states) (hne : s ≠ .received) :
    t.DoneExact info := by
  rw [chunksFor_of_get? hc] at hge
  unfold DoneExact markReceived
  simp only [hge, if_false, pieces_store, OrdMap.get?_insert_self, chunksFor_of_get? hc, Option.some.injEq,
    exists_eq_left', Bool.false_eq_true, false_iff]
  intro hall
  exact hne (hall s hs)

/-- The answer of `mark_received` is right for every call that indexes. -/
theorem doneExact_of_indexes {full : Prop} {t : ChunkTracker l} (h : t.Indexed full) {info : ChunkInfo l}
    (hop : (ChunkOp.markReceived info).Indexes t) : t.DoneExact info := by
  by_cases hlt : info.chunkIndex < l.chunkCount info.pieceIndex
  · exact markReceived_done_iff h hlt
  · rcases hop with h' | ⟨c, hc, s, hs, hne⟩
    · exact absurd h' hlt
    · exact doneExact_of_incomplete (by rwa [length_chunksFor h]) hc hs hne

end ChunkTracker

/-- The trackers reached from an empty one, with its padding ranges, by calls that index what they track. -/
def IndexingRun (ranges : List (Nat × Nat)) : ChunkTracker l → Prop :=
  Reach (fun t => t = (ChunkTracker.new l).withPadding ranges) (fun t t' => ∃ op, ChunkOp.Indexes t op ∧ t' = op.apply t)

/-- In every run of calls that index what they track, every state has exact counters and exact indexes, and every further
such call of `mark_received` answers exactly whether the piece is complete. -/
theorem index_exact_of_indexing_calls (l : Lengths) (ranges : List (Nat × Nat)) (t : ChunkTracker l)
    (h : IndexingRun ranges t) :
    t.CountersExact ∧ t.PartialsExact ∧ t.ContestedExact ∧
      ∀ info, (ChunkOp.markReceived info).Indexes t → t.DoneExact info := by
  have hinv : t.Indexed True := by
    refine @Reach.invariant _ _ _ (ChunkTracker.Indexed True) ?_ ?_ _ h
    · rintro s rfl
      exact ChunkTracker.indexed_new True ranges
    · rintro s s' hs ⟨op, hop, rfl⟩
      exact ChunkTracker.indexed_apply hs op (fun _ => hop)
  refine ⟨fun p c hc => ?_, fun p => ⟨hinv.partials_sound p, hinv.partials_complete trivial p⟩, hinv.contested_iff, ?_⟩
  · have := hinv.counted p c hc
    exact ⟨this.missing, this.requested, this.exact⟩
  · intro info hop
    exact ChunkTracker.doneExact_of_indexes hinv hop

/-- A torrent of one piece of two chunks. -/
def twoChunks : Lengths where
  totalLength := 32768
  pieceLength := 32768
  lastPieceIndex := 0
  lastPieceLength := 32768

/-- A run of two calls that index: a chunk is handed out to peer 1 and received. -/
theorem index_exact_of_indexing_calls_two :
    ∃ t : ChunkTracker twoChunks, IndexingRun [] t ∧ t.PartialsExact ∧ t.partials = {0} := by
  let op1 : ChunkOp twoChunks := .nextChunkSkipping ⟨0, by decide⟩ 1 (fun _ => false) 0
  let op2 : ChunkOp twoChunks := .markReceived ⟨⟨0, by decide⟩, 0, 16384, 0⟩
  let t0 : ChunkTracker twoChunks := (ChunkTracker.new twoChunks).withPadding []
  have hrun : IndexingRun [] (op2.apply (op1.apply t0)) := by
    refine .step (.step (.init rfl) ⟨op1, Or.inr ⟨0, by decide, rfl⟩, rfl⟩) ⟨op2, Or.inl (by decide), rfl⟩
  exact ⟨_, hrun, (index_exact_of_indexing_calls twoChunks [] _ hrun).2.1, by decide⟩

/-- The indexes are not exact after every sequence of calls: one call of `next_chunk_skipping` on the empty tracker, with every
chunk skipped, leaves a tracked piece with two missing chunks that the partial index does not list. -/
theorem index_exact_false :
    ¬ ∀ (l : Lengths) (ranges : List (Nat × Nat)) (ops : List (ChunkOp l)),
      ∀ t, t = ops.foldl ChunkOp.apply ((ChunkTracker.new l).withPadding ranges) →
        t.CountersExact ∧ t.PartialsExact ∧ t.ContestedExact ∧
          ∀ info, info.chunkIndex < l.chunkCount info.pieceIndex → t.DoneExact info := by
  intro h
  have hp := (h twoChunks [] [.nextChunkSkipping ⟨0, by decide⟩ 1 (fun _ => true) 0] _ rfl).2.1 0
  have hm : ([ChunkOp.nextChunkSkipping ⟨0, by decide⟩ 1 (fun _ => true) 0].foldl ChunkOp.apply
      ((ChunkTracker.new twoChunks).withPadding [])).MissingAt 0 :=
    ⟨PieceChunks.new [false, false], by decide, by decide⟩
  exact absurd (hp.mpr hm) (by decide)

end

/-!
## File completion is reported once

Over every order of the pieces each file with data is returned once, by the call for the last of the pieces that have bytes of it.
-/

namespace TorrentStats

variable {l : Lengths} {set : FileSet}

/-- A piece has bytes of a file. -/
def Touches (p : ValidPieceIndex l) (f : FileInfo) : Prop :=
  ∃ x, (l.pieceOffset p ≤ x ∧ x < l.pieceOffset p + l.pieceLengthOf p) ∧ f.offset ≤ x ∧ x < f.offset + f.length

/-- The bytes of a file in pieces. -/
def shares (order : List (ValidPieceIndex l)) (f : FileInfo) : Nat :=
  (order.map fun p => overlap (l.pieceOffset p) (pieceEnd l p) f).sum

/-- A piece touches a file when they have bytes in common. -/
theorem touches_iff {p : ValidPieceIndex l} {f : FileInfo} : Touches p f ↔ 0 < overlap (l.pieceOffset p) (pieceEnd l p) f := by
  unfold Touches overlap pieceEnd
  constructor
  · rintro ⟨x, hp, hf⟩
    omega
  · intro h
    exact ⟨max (l.pieceOffset p) f.offset, by omega, by omega⟩

theorem shares_cons (p : ValidPieceIndex l) (order : List (ValidPieceIndex l)) (f : FileInfo) :
    shares (p :: order) f = overlap (l.pieceOffset p) (pieceEnd l p) f + shares order f := by
  rw [shares, List.map_cons, List.sum_cons, shares]

/-- No piece of an order touches a file exactly when they share no byte. -/
theorem shares_eq_zero {order : List (ValidPieceIndex l)} {f : FileInfo} : shares order f = 0 ↔ ∀ p ∈ order, ¬ Touches p f := by
  unfold shares
  rw [List.sum_eq_zero_iff]
  simp only [List.mem_map, touches_iff, forall_exists_index, and_imp, forall_apply_eq_imp_iff₂, Nat.pos_iff_ne_zero, not_not]

/-- All pieces together share every byte of a file. -/
theorem shares_perm {order : List (ValidPieceIndex l)} (hset : set.totalLength = l.totalLength)
    (hperm : order.Perm (List.finRange l.totalPieces)) {k : Nat} {f : FileInfo} (hf : set.files[k]? = some f) :
    shares order f = f.length := by
  have hsum : ((List.finRange l.totalPieces).map fun p : ValidPieceIndex l => overlap (l.pieceOffset p) (pieceEnd l p) f).sum =
      ∑ p : ValidPieceIndex l, overlap (l.pieceOffset p) (pieceEnd l p) f := by
    rw [← List.ofFn_eq_map, List.sum_ofFn]
  rw [shares, (hperm.map _).sum_eq, hsum, sum_overlap hset hf]

/-- The bytes done of a file. -/
def done (stats : TorrentStats) (k : Nat) : Nat := stats.fileProgress.getD k 0

/-- What one call does, when no file gets more bytes than it has. -/
theorem addPieceProgress_spec {stats : TorrentStats} (hset : set.totalLength = l.totalLength) (p : ValidPieceIndex l)
    (hroom : ∀ k f, set.files[k]? = some f → stats.done k + overlap (l.pieceOffset p) (pieceEnd l p) f ≤ f.length) :
    (∀ k f, set.files[k]? = some f →
        (stats.addPieceProgress set p).1.done k = stats.done k + overlap (l.pieceOffset p) (pieceEnd l p) f)
      ∧ (∀ k f, set.files[k]? = some f → (stats.addPieceProgress set p).2.count k =
          if stats.done k < f.length ∧ f.length ≤ stats.done k + overlap (l.pieceOffset p) (pieceEnd l p) f then 1 else 0)
      ∧ (∀ k ∈ (stats.addPieceProgress set p).2, k < set.files.length)
      ∧ (stats.addPieceProgress set p).1.progressBytes = saturatingAdd stats.progressBytes (l.pieceLengthOf p) := by
  have htiles := spans_of_piece hset p
  have hpad : ∀ k, (stats.fileProgress ++ List.replicate (set.files.length - stats.fileProgress.length) 0).getD k 0 = stats.done k := by
    intro k
    rw [done, List.getD_eq_getElem?_getD, List.getElem?_append]
    split
    · rw [← List.getD_eq_getElem?_getD]
    · rename_i hk
      have hnone : stats.fileProgress[k]? = none := List.getElem?_eq_none (by omega)
      rw [List.getD_eq_getElem?_getD, hnone, List.getElem?_replicate]
      split <;> rfl
  have htotal : set.totalLength < 2 ^ 64 := by
    rw [hset]
    exact l.total_lt
  obtain ⟨-, hprogress, hcount, hmem⟩ := @addSpans_spec set htotal _
    (stats.fileProgress ++ List.replicate (set.files.length - stats.fileProgress.length) 0) htiles.lt_length
    (by rw [List.length_append, List.length_replicate]; omega)
    fun k f hf => by
      rw [hpad, tiles_spanLen htiles hf]
      exact hroom k f hf
  refine ⟨fun k f hf => ?_, fun k f hf => ?_, hmem, rfl⟩
  · have hk := hprogress k (List.getElem?_eq_some_iff.mp hf).1
    rw [hpad, tiles_spanLen htiles hf] at hk
    exact hk
  · have hk := hcount k f hf
    rw [hpad, tiles_spanLen htiles hf] at hk
    exact hk

/-- What calls for pieces do, when no file gets more bytes than it has: each returns the files that get their last bytes by it. -/
theorem addPieces_spec {stats : TorrentStats} (hset : set.totalLength = l.totalLength) {order : List (ValidPieceIndex l)}
    (hroom : ∀ k f, set.files[k]? = some f → stats.done k + shares order f ≤ f.length)
    (hbytes : stats.progressBytes + (order.map l.pieceLengthOf).sum < 2 ^ 64) :
    (∀ k f, set.files[k]? = some f → (stats.addPieces set order).1.done k = stats.done k + shares order f)
      ∧ (∀ k f, set.files[k]? = some f → ∀ i p, order[i]? = some p → (((stats.addPieces set order).2[i]?.getD []).count k =
          if stats.done k + shares (order.take i) f < f.length ∧ f.length ≤ stats.done k + shares (order.take (i + 1)) f then 1 else 0))
      ∧ (∀ k f, set.files[k]? = some f → (stats.addPieces set order).2.flatten.count k =
          if stats.done k < f.length ∧ f.length ≤ stats.done k + shares order f then 1 else 0)
      ∧ (∀ returned ∈ (stats.addPieces set order).2, ∀ k ∈ returned, k < set.files.length)
      ∧ (stats.addPieces set order).2.length = order.length
      ∧ (stats.addPieces set order).1.progressBytes = stats.progressBytes + (order.map l.pieceLengthOf).sum := by
  induction order generalizing stats with
  | nil =>
    refine ⟨fun k f _ => rfl, fun k f _ i p hp => ?_, fun k f _ => ?_, fun returned hr => absurd hr List.not_mem_nil, rfl, rfl⟩
    · cases hp
    · have hzero : shares ([] : List (ValidPieceIndex l)) f = 0 := rfl
      rw [hzero, if_neg (by omega)]
      rfl
  | cons p rest ih =>
    rw [List.map_cons, List.sum_cons] at hbytes
    obtain ⟨hdone, hcount, hmem, hprogress⟩ := @addPieceProgress_spec l set stats hset p fun k f hf => by
      have := hroom k f hf
      rw [shares_cons] at this
      omega
    rw [saturatingAdd_of_lt (by omega)] at hprogress
    obtain ⟨hdone', hcount', hflat', hmem', hlen, hprogress'⟩ := @ih (stats.addPieceProgress set p).1 (fun k f hf => by
      have := hroom k f hf
      rw [shares_cons] at this
      rw [hdone k f hf, Nat.add_assoc]
      exact this) (by rw [hprogress]; omega)
    simp only [addPieces]
    refine ⟨fun k f hf => ?_, fun k f hf i q hq => ?_, fun k f hf => ?_, List.forall_mem_cons.mpr ⟨hmem, hmem'⟩,
        by rw [List.length_cons, hlen, List.length_cons],
      ?_⟩
    · rw [hdone' k f hf, hdone k f hf, shares_cons, Nat.add_assoc]
    · cases i with
      | zero =>
        have hc := hcount k f hf
        rw [List.getElem?_cons_zero, Option.getD_some, hc, List.take_zero, List.take_succ_cons, List.take_zero, shares_cons]
        rfl
      | succ i =>
        have hc := hcount' k f hf i q hq
        rw [List.getElem?_cons_succ, hc, hdone k f hf, List.take_succ_cons, List.take_succ_cons, shares_cons, shares_cons, Nat.add_assoc,
          Nat.add_assoc]
    · have hc := hcount k f hf
      have hc' := hflat' k f hf
      rw [hdone k f hf] at hc'
      rw [List.flatten_cons, List.count_append, hc, hc', shares_cons]
      split <;> split <;> split <;> omega
    · rw [hprogress', hprogress, List.map_cons, List.sum_cons, Nat.add_assoc]

/-- An order shares with a file what its two halves share. -/
theorem shares_take_add (order : List (ValidPieceIndex l)) (f : FileInfo) (i : Nat) :
    shares (order.take i) f + shares (order.drop i) f = shares order f := by
  rw [shares, shares, ← List.sum_append, ← List.map_append, List.take_append_drop, shares]

/-- Files with data are returned once, by the call for the last piece that has bytes of them, and files without data never. No file gets
more bytes than it has, and the bytes of all pieces are counted. -/
theorem completion_reported_once (l : Lengths) (set : FileSet) (hset : set.totalLength = l.totalLength)
    (order : List (ValidPieceIndex l)) (hperm : order.Perm (List.finRange l.totalPieces)) (zeros : Nat) :
    let start : TorrentStats := ⟨0, List.replicate zeros 0⟩
    (∀ k f, set.files[k]? = some f → (start.addPieces set order).2.flatten.count k = if 0 < f.length then 1 else 0)
      ∧ (∀ i p, order[i]? = some p → ∀ k f, set.files[k]? = some f →
          (k ∈ (start.addPieces set order).2[i]?.getD [] ↔ Touches p f ∧ ∀ q ∈ order.drop (i + 1), ¬ Touches q f))
      ∧ (∀ returned ∈ (start.addPieces set order).2, ∀ k ∈ returned, ∃ f, set.files[k]? = some f ∧ 0 < f.length)
      ∧ (∀ n k f, set.files[k]? = some f → (start.addPieces set (order.take n)).1.done k ≤ f.length)
      ∧ (start.addPieces set order).1.progressBytes = l.totalLength := by
  intro start
  have hzero : ∀ k, start.done k = 0 := by
    intro k
    rw [done, List.getD_eq_getElem?_getD, List.getElem?_replicate]
    split <;> rfl
  have hall : ∀ k f, set.files[k]? = some f → shares order f = f.length := fun k f hf => shares_perm hset hperm hf
  have hbytes : (order.map l.pieceLengthOf).sum = l.totalLength := by
    rw [(hperm.map _).sum_eq, ← PieceTracker.sum_pieceLengthOf l, ← List.ofFn_eq_map, List.sum_ofFn]
  have htotal := l.total_lt
  obtain ⟨-, hcount, hflat, hmem, hlen, hprogress⟩ := @addPieces_spec l set start hset order (fun k f hf => by
    rw [hzero, Nat.zero_add, hall k f hf]) (by rw [hbytes]; exact Nat.zero_add _ ▸ htotal)
  have hlast : ∀ i p, order[i]? = some p → ∀ k f, set.files[k]? = some f → ((start.addPieces set order).2[i]?.getD []).count k =
      if shares (order.take i) f < f.length ∧ f.length ≤ shares (order.take (i + 1)) f then 1 else 0 := by
    intro i p hp k f hf
    rw [hcount k f hf i p hp, hzero, Nat.zero_add, Nat.zero_add]
  have hcross : ∀ i p, order[i]? = some p → ∀ k f, set.files[k]? = some f →
      (k ∈ (start.addPieces set order).2[i]?.getD [] ↔ Touches p f ∧ ∀ q ∈ order.drop (i + 1), ¬ Touches q f) := by
    intro i p hp k f hf
    have hsplit := shares_take_add order f i
    have hsplit' := shares_take_add order f (i + 1)
    have hdrop : shares (order.drop i) f = overlap (l.pieceOffset p) (pieceEnd l p) f + shares (order.drop (i + 1)) f := by
      obtain ⟨hlt, rfl⟩ := List.getElem?_eq_some_iff.mp hp
      rw [List.drop_eq_getElem_cons hlt, shares_cons]
    rw [hall k f hf] at hsplit hsplit'
    rw [← shares_eq_zero, touches_iff, ← List.count_pos_iff, hlast i p hp k f hf]
    split <;> omega
  refine ⟨fun k f hf => ?_, hcross, fun returned hr k hk => ?_, fun n k f hf => ?_, ?_⟩
  · rw [hflat k f hf, hzero, hall k f hf]
    split <;> split <;> omega
  · have hkl := hmem returned hr k hk
    refine ⟨set.files[k], List.getElem?_eq_getElem hkl, ?_⟩
    obtain ⟨i, hi⟩ := List.mem_iff_getElem?.mp hr
    have hio : i < order.length := by
      rw [← hlen]
      exact (List.getElem?_eq_some_iff.mp hi).1
    obtain ⟨x, -, hx⟩ := ((hcross i order[i] (List.getElem?_eq_getElem hio) k _ (List.getElem?_eq_getElem hkl)).mp
      (by rw [hi]; exact hk)).1
    omega
  · obtain ⟨hdone, -⟩ := @addPieces_spec l set start hset (order.take n) (fun k f hf => by
      have := shares_take_add order f n
      rw [hall k f hf] at this
      rw [hzero]
      omega) (by
        have := congrArg List.sum (congrArg (List.map l.pieceLengthOf) (List.take_append_drop n order))
        rw [List.map_append, List.sum_append, hbytes] at this
        have hstart : start.progressBytes = 0 := rfl
        omega)
    have := shares_take_add order f n
    rw [hall k f hf] at this
    rw [hdone k f hf, hzero]
    omega
  · rw [hprogress, hbytes]
    exact Nat.zero_add _

/-- Two pieces and three files, the second one without data. -/
def sampleLengths : Lengths where
  totalLength := 7
  pieceLength := 4
  lastPieceIndex := 1
  lastPieceLength := 3

def sampleFiles : FileSet := .fromMeta [⟨false, 5, false⟩, ⟨false, 0, false⟩, ⟨false, 2, false⟩]

def lastFirst : List (ValidPieceIndex sampleLengths) := [⟨1, by decide⟩, ⟨0, by decide⟩]

/-- The last piece comes first: it completes the last file, and the other piece the first one. -/
theorem completion_reported_once_reversed :
    let start : TorrentStats := ⟨0, []⟩
    (start.addPieces sampleFiles lastFirst).2 = [[2], [0]] ∧
      (start.addPieces sampleFiles lastFirst).1.progressBytes = 7 :=
  ⟨by decide, (completion_reported_once sampleLengths sampleFiles rfl lastFirst (by decide) 0).2.2.2.2⟩

end TorrentStats

end Risuko

/-!
## The request scheduler over whole runs

A torrent starts with some pieces local and some wanted, no peers and no assemblies, and then handles events in any order, each
with any arguments and with any outcome of its sends (`SchedulerEvent`). In every state reached no request is orphaned and no
missing chunk is hidden (`requests_owned`), and the assemblies agree with the chunk tracker (`assembly_agrees`).
-/

namespace Risuko

variable {l : Lengths}

/-- The schedulers reached by events in any order, from a piece tracker on which nothing is in flight yet. -/
def SchedulerRun (l : Lengths) : Scheduler l → Prop :=
  Reach (fun s => ∃ t ranges, TrackerRun l t ∧ (∀ q, t.inFlight q = false) ∧ s = Scheduler.start t ranges)
    (fun s s' => ∃ e : SchedulerEvent l, s' = e.apply s)

/-- What every operation of the scheduler keeps holds after every run. -/
theorem SchedulerRun.invariant {s : Scheduler l} (h : SchedulerRun l s) : s.Sound ∧ s.Assembled := by
  refine @Reach.invariant _ _ _ (fun s => s.Sound ∧ s.Assembled) ?_ ?_ _ h
  · rintro s ⟨t, ranges, _, ht, rfl⟩
    exact ⟨Scheduler.sound_start ht ranges, Scheduler.assembled_start t ranges⟩
  · rintro s s' ⟨hs, ha⟩ ⟨e, rfl⟩
    exact ⟨hs.apply e, ha.apply hs e⟩

/-- In every state reached: a chunk asked of a peer is on the list of that peer, which is connected; no list asks twice for a
chunk; the lists together stay within the budget; a piece that is not local, marked in flight and not fetched by a web seed is
tracked and has no missing chunk; so a wanted piece with a missing chunk can be asked for. -/
theorem requests_owned (l : Lengths) (s : Scheduler l) (h : SchedulerRun l s) :
    (∀ (p : Nat) (chunks : PieceChunks) (c pid since : Nat), s.chunkTracker.pieces.get? p = some chunks →
      chunks.states[c]? = some (.requested pid since) →
        ∃ peer len, s.peers.get? pid = some peer ∧ (p, c * chunkSize, len) ∈ peer.outstanding) ∧
      (∀ pid peer, s.peers.get? pid = some peer → (peer.outstanding.map (fun r => (r.1, r.2.1))).Nodup) ∧
      s.peers.sumOf (fun _ peer => peer.outstanding.length) ≤ torrentRequestBudget ∧
      (∀ q, s.pieceTracker.haveLocal q = false → s.pieceTracker.inFlight q = true → q.val ∉ s.webseedInflight →
        ∃ chunks, s.chunkTracker.pieces.get? q.val = some chunks ∧ .missing ∉ chunks.states) ∧
      ∀ q chunks, s.pieceTracker.wanted q = true → s.pieceTracker.haveLocal q = false → q.val ∉ s.webseedInflight →
        (s.chunkTracker.pieces.get? q.val = none ∨ s.chunkTracker.pieces.get? q.val = some chunks ∧ .missing ∈ chunks.states) →
          s.pieceTracker.isRequestable q = true := by
  have hs := h.invariant.1
  have hflight : ∀ q, s.pieceTracker.haveLocal q = false → s.pieceTracker.inFlight q = true → q.val ∉ s.webseedInflight →
      ∃ chunks, s.chunkTracker.pieces.get? q.val = some chunks ∧ .missing ∉ chunks.states :=
    fun q hl hf hw => ChunkTracker.tracked_of_not_missing (hs.visible q hl hf hw)
  refine ⟨fun p chunks c pid since hp hc => ?_, hs.distinct, hs.budget, hflight, fun q chunks hw hl hweb hmiss => ?_⟩
  · obtain ⟨hlt, _⟩ := hs.indexed.sized p chunks hp
    have hst : (s.chunkTracker.statesOf ⟨p, hlt⟩)[c]? = some (.requested pid since) := by
      rw [ChunkTracker.statesOf_eq hp]
      exact hc
    obtain ⟨peer, hg, hm⟩ := hs.owned ⟨p, hlt⟩ c pid since hst
    obtain ⟨⟨i, b, len⟩, hr, he⟩ := List.mem_map.mp hm
    simp only [Request.chunk, Prod.mk.injEq] at he
    obtain ⟨rfl, rfl⟩ := he
    exact ⟨peer, len, hg, hr⟩
  · cases hf : s.pieceTracker.inFlight q with
    | false => simp [PieceTracker.isRequestable, hw, hl, hf]
    | true =>
      obtain ⟨chunks', hg, hno⟩ := hflight q hl hf hweb
      rcases hmiss with hnone | ⟨hsome, hmem⟩
      · rw [hg] at hnone
        cases hnone
      · rw [hg] at hsome
        cases hsome
        exact absurd hmem hno

/-- A torrent of one piece in two chunks, the second one of a single byte. -/
def bytePast : Lengths where
  totalLength := 16385
  pieceLength := 16385
  lastPieceIndex := 0
  lastPieceLength := 16385

/-- A peer that has the piece and takes eight requests at a time. -/
def willingPeer : Peer :=
  { Peer.connected 7 1 8 with bitfield := [0xff], amInterested := true, peerChoking := false }

/-- The scheduler after the peer came, was tuned and was asked for both chunks. -/
def askedPeer : Scheduler bytePast :=
  [SchedulerEvent.connect 0 7 8, .retune 0 willingPeer, .drivePeer ⟨5, fun _ => 5, fun _ => true, true⟩ 0].foldl
    (fun s e => e.apply s) (Scheduler.start (PieceTracker.new bytePast) [])

theorem askedPeer_run : SchedulerRun bytePast askedPeer :=
  Reach.foldl (.init ⟨_, _, .init (Or.inl rfl), fun _ => rfl, rfl⟩) fun _ e _ => ⟨e, rfl⟩

/-- The peer is asked for both chunks, and the piece is in flight. -/
theorem requests_owned_asked :
    SchedulerRun bytePast askedPeer ∧
      (askedPeer.peers.get? 0).map Peer.outstanding = some [(0, 0, 16384), (0, 16384, 1)] ∧
      askedPeer.pieceTracker.inFlight ⟨0, by decide⟩ = true ∧
      ∃ chunks, askedPeer.chunkTracker.pieces.get? 0 = some chunks ∧ .missing ∉ chunks.states :=
  ⟨askedPeer_run, by decide +kernel, by decide +kernel,
    (requests_owned bytePast _ askedPeer_run).2.2.2.1 ⟨0, by decide⟩ (by decide +kernel) (by decide +kernel) (by decide +kernel)⟩

open Scheduler in
/-- In every state reached, for a piece that is not local and has an assembly that is not completed: a chunk is received exactly
when it is padding or has a source; a chunk from a peer holds the data of the one delivery of that peer the assembly accepted
there, and padding is zero. Once all chunks are received every chunk has a source, and the branch that resets a finished piece
with a missing source is not taken in any run. No buffer is handed to the write queue twice. -/
theorem assembly_agrees (l : Lengths) (s : Scheduler l) (h : SchedulerRun l s) :
    (∀ q a, s.pieceTracker.haveLocal q = false → s.pieceAssemblies.get? q.val = some a → a.completed = false →
      (∀ c < l.chunkCount q,
        ((s.chunkTracker.statesOf q)[c]? = some .received ↔
          (s.chunkTracker.paddingChunks q)[c]? = some true ∨ ∃ source, a.sources[c]? = some (some source)) ∧
        (∀ ip, a.sources[c]? = some (some (.peer ip)) →
          ∃ d ∈ s.accepted, d.assembly = a.id ∧ d.begin = c * chunkSize ∧ d.ip = ip ∧ d.data.length = chunkLength q c ∧
            HoldsAt a.buf c d.data ∧ ∀ d' ∈ s.accepted, d'.assembly = a.id → d'.begin = c * chunkSize → d' = d) ∧
        ((s.chunkTracker.paddingChunks q)[c]? = some true → HoldsAt a.buf c (List.replicate (chunkLength q c) 0))) ∧
      ((∀ state ∈ s.chunkTracker.statesOf q, state = .received) → ∀ c < l.chunkCount q, ∃ source, a.sources[c]? = some (some source)) ∧
      a.id ∉ s.writeTasks.map Prod.fst) ∧
      s.resetTaken = false ∧ (s.writeTasks.map Prod.fst).Nodup := by
  obtain ⟨hs, ha⟩ := h.invariant
  refine ⟨fun q a hl hg hopen => ⟨fun c hc => ⟨?_, fun ip hip => ?_, fun hpad => ?_⟩, fun hall c hc => ?_, ?_⟩,
    ha.neverReset, ha.numbered.handedOnce⟩
  · have hfit := ha.open' q a hl hg
    rw [hfit.received c, ← hfit.padding c]
    exact ⟨Or.inr, fun ho => ho.elim (fun hp => ⟨_, hp⟩) id⟩
  · have hfit := ha.open' q a hl hg
    obtain ⟨d, hd, hid, hb, hdip, hlen, hholds⟩ := hfit.content hopen c ip hip
    exact ⟨d, hd, hid, hb, hdip, hlen, hholds, fun d' hd' hid' hb' => hfit.unique d' hd' d hd hid' hid (hb'.trans hb.symm)⟩
  · have hfit := ha.open' q a hl hg
    exact hfit.zero hopen c ((hfit.padding c).mpr hpad)
  · have hlt : c < (s.chunkTracker.statesOf q).length := by
      rw [ChunkTracker.length_statesOf hs.indexed]
      exact hc
    rw [← (ha.open' q a hl hg).received c, List.getElem?_eq_getElem hlt, hall _ (List.getElem_mem hlt)]
  · exact ha.numbered.unhanded _ a hg hopen

/-- The scheduler after the peer sent the second chunk. -/
def halfReceived : Scheduler bytePast := askedPeer.receivePiece 0 0 16384 [9] 8

theorem halfReceived_run : SchedulerRun bytePast halfReceived :=
  .step askedPeer_run ⟨.receivePiece 0 0 16384 [9] 8, rfl⟩

/-- The assembly has the second chunk of the peer, and its buffer holds the byte the peer sent. -/
theorem assembly_agrees_half :
    SchedulerRun bytePast halfReceived ∧ ∃ a, halfReceived.pieceAssemblies.get? 0 = some a ∧ a.completed = false ∧
      a.sources = [none, some (.peer 7)] ∧ halfReceived.accepted = [⟨a.id, 16384, 7, [9]⟩] ∧ a.buf[16384]? = some 9 := by
  have hstate : (halfReceived.pieceAssemblies.get? 0).map (fun a => (a.completed, a.sources, a.id)) =
      some (false, [none, some (.peer 7)], 0) ∧ halfReceived.accepted = [⟨0, 16384, 7, [9]⟩] ∧
      halfReceived.pieceTracker.haveLocal ⟨0, by decide⟩ = false := by decide +kernel
  obtain ⟨hsrc, hlog, hlocal⟩ := hstate
  obtain ⟨a, hg, he⟩ := Option.map_eq_some_iff.mp hsrc
  simp only [Prod.mk.injEq] at he
  obtain ⟨hopen, hsources, hid⟩ := he
  refine ⟨halfReceived_run, a, hg, hopen, hsources, by rw [hid]; exact hlog, ?_⟩
  obtain ⟨hchunk, _⟩ := (assembly_agrees bytePast _ halfReceived_run).1 ⟨0, by decide⟩ a hlocal hg hopen
  obtain ⟨d, hd, _, _, _, _, hholds, _⟩ := (hchunk 1 (by decide)).2.1 7 (by rw [hsources]; rfl)
  rw [hlog, List.mem_singleton] at hd
  subst hd
  exact hholds 0 (by decide)

end Risuko

/-!
## Web seeds

The pieces to ask web seeds for are cut into batches, and whatever becomes of a batch, the torrent learns it of each piece once.
-/

namespace Risuko

namespace Webseed

/-- The batches are the pieces in their order, each a row within the limits. Whatever the mirrors, the clock, the disk and other workers do, a batch is
answered with one result for each of its pieces, and the bytes of a piece called verified have passed the verifier and were written. -/
theorem webseed_batches_account (l : Lengths) (candidates : List (ValidPieceIndex l)) (maxPieces : ℕ) :
    (contiguousWebseedBatches (candidates.map (·.val)) maxPieces).flatten = candidates.map (·.val) ∧
    (∀ batch ∈ contiguousWebseedBatches (candidates.map (·.val)) maxPieces,
      batch ≠ [] ∧ batch.length ≤ max maxPieces 1 ∧ batch.IsChain (fun a b => b = a + 1) ∧ batch.Nodup ∧
      ∀ (ctx : WebSeedContext l) (s : Surroundings) (w : Worker),
        (fetchWebseedBatch ctx s batch w).1.pieces.map (·.pieceIndex) = batch ∧
        ∃ written, (fetchWebseedBatch ctx s batch w).2.written = w.written ++ written ∧
          ∀ result ∈ (fetchWebseedBatch ctx s batch w).1.pieces, result.verifyOk = true → Stored ctx written result.pieceIndex) ∧
    ∀ batch ∈ contiguousWebseedBatches (candidates.map (·.val)) (webseedPiecesPerJob l.pieceLength),
      batch.length ≤ maxPiecesPerJob ∧ (1 < batch.length → batch.length * l.pieceLength ≤ maxRangeBytes) := by
  refine ⟨(contiguousWebseedBatches_spec _ _).1, fun batch hmem => ?_, fun batch hmem => ?_⟩
  · have hvalid : ∀ i ∈ batch, i < l.totalPieces := by
      intro i hi
      have hin : i ∈ (contiguousWebseedBatches (candidates.map (·.val)) maxPieces).flatten := List.mem_flatten.mpr ⟨batch, hmem, hi⟩
      rw [(contiguousWebseedBatches_spec _ _).1] at hin
      obtain ⟨piece, -, rfl⟩ := List.mem_map.mp hin
      exact piece.isLt
    obtain ⟨hne, hbatch⟩ := (contiguousWebseedBatches_spec _ _).2 batch hmem
    have hrow := hbatch.consecutive hvalid
    refine ⟨hne, hbatch.fits, hrow, nodup_of_consecutive hrow, fun ctx s w => ?_⟩
    obtain ⟨hindices, hstored⟩ := accounts_fetchWebseedBatch ctx s batch w
    exact ⟨hindices, hstored⟩
  · exact fits_webseedPiecesPerJob l.piece_pos ((contiguousWebseedBatches_spec _ _).2 batch hmem).2.fits

example : contiguousWebseedBatches [0, 1, 2, 3, 5, 6, 9] 3 = [[0, 1, 2], [3], [5, 6], [9]] := by
  decide

end Webseed

end Risuko
