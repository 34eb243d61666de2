import Risuko.Lemmas.Progress
import Risuko.Torrent.Webseed

/-!
# Every piece of a batch has a result

What a worker waits for changes what it sees of the mirrors, but only a verified piece is written. A batch is answered by a row of results from one
mirror, and failures for the rest.
-/

namespace Risuko

namespace Webseed

variable {l : Lengths} {ctx : WebSeedContext l} {s : Surroundings} {mirrorIdx : ℕ}

/-! ## Fetching writes nothing -/

theorem written_fetchAttempts {fileIdx : ℕ} {url : String} {requested : ByteRange} (attempts : List ℕ) (w : Worker) :
    (fetchAttempts s mirrorIdx fileIdx url requested attempts w).2.2.written = w.written := by
  induction attempts generalizing w with
  | nil => rfl
  | cons attempt rest ih =>
    unfold fetchAttempts
    split
    · rfl
    · split
      · rfl
      split
      · split
        · rfl
        · exact ih _
      · rfl
    · split
      · rfl
      · exact ih _
    · rfl
    · rfl

theorem written_fetchSpan {span : Span} {fileLength : ℕ} {url : String} (spanCursor : ℕ) (p : Progress) (w : Worker) :
    (fetchSpan s mirrorIdx span fileLength url spanCursor p w).2.2.written = w.written := by
  fun_induction fetchSpan s mirrorIdx span fileLength url spanCursor p w with
  | case1 => rfl
  | case2 => rfl
  | case3 spanCursor p w hlt requestLen start hstart requested hrange ok w' hfetch =>
    rw [← written_fetchAttempts [0, 1, 2] w, hfetch]
  | case4 spanCursor p w hlt requestLen start hstart requested hrange bytes ok w' hfetch =>
    show w'.written = _
    rw [← written_fetchAttempts [0, 1, 2] w, hfetch]
  | case5 spanCursor p w hlt requestLen start hstart requested hrange bytes ok w' hfetch endCursor hfits ih =>
    rw [ih, ← written_fetchAttempts [0, 1, 2] w, hfetch]
  | case6 => rfl

theorem written_fetchSpans (spans : List Span) (p : Progress) (w : Worker) :
    (fetchSpans ctx s mirrorIdx spans p w).2.written = w.written := by
  induction spans generalizing p w with
  | nil => rfl
  | cons span rest ih =>
    unfold fetchSpans
    split
    · rfl
    split
    · exact ih _ _
    split
    · rfl
    rename_i file _ _ _ url _
    have hspan : (fetchSpan s mirrorIdx span file.length url 0 p w).2.2.written = w.written := written_fetchSpan 0 p w
    dsimp only
    split
    · exact hspan
    · rw [ih, hspan]

/-! ## Results -/

/-- A piece whose bytes passed the verifier and are among what was written. -/
def Stored (ctx : WebSeedContext l) (written : List (ℕ × List UInt8)) (pieceIndex : ℕ) : Prop :=
  ∃ (vpi : ValidPieceIndex l) (piece : List UInt8), vpi.val = pieceIndex ∧ piece.length = l.pieceLengthOf vpi ∧ ctx.verify pieceIndex piece = .ok () ∧
    (l.pieceOffset vpi, piece) ∈ written

/-- Results for these pieces, in their order, with the verified ones stored by what the worker has written since. -/
structure Accounts (ctx : WebSeedContext l) (w w' : Worker) (pieceIndices : List ℕ) (pieces : List VerifyResult) : Prop where
  indices : pieces.map (·.pieceIndex) = pieceIndices
  stored : ∃ written, w'.written = w.written ++ written ∧ ∀ result ∈ pieces, result.verifyOk = true → Stored ctx written result.pieceIndex

theorem Stored.mono {written written' : List (ℕ × List UInt8)} {pieceIndex : ℕ} (h : Stored ctx written pieceIndex)
    (hsub : ∀ x ∈ written, x ∈ written') : Stored ctx written' pieceIndex := by
  obtain ⟨vpi, piece, hindex, hlength, hverify, hmem⟩ := h
  exact ⟨vpi, piece, hindex, hlength, hverify, hsub _ hmem⟩

/-- What was written before counts as well. -/
theorem Accounts.after {u w w' : Worker} {pieceIndices : List ℕ} {pieces : List VerifyResult} (h : Accounts ctx u w' pieceIndices pieces)
    {earlier : List (ℕ × List UInt8)} (hu : u.written = w.written ++ earlier) : Accounts ctx w w' pieceIndices pieces := by
  obtain ⟨hindices, written, hwritten, hstored⟩ := h
  refine ⟨hindices, earlier ++ written, ?_, fun result hmem hok => (hstored result hmem hok).mono fun x hx => List.mem_append_right _ hx⟩
  rw [hwritten, hu, List.append_assoc]

theorem Accounts.of_written_eq {u w w' : Worker} {pieceIndices : List ℕ} {pieces : List VerifyResult} (h : Accounts ctx u w' pieceIndices pieces)
    (heq : u.written = w.written) : Accounts ctx w w' pieceIndices pieces := h.after (heq.trans (List.append_nil _).symm)

theorem accounts_failed {w w' : Worker} (pieceIndices : List ℕ) (h : w'.written = w.written) :
    Accounts ctx w w' pieceIndices (webseedFailedBatch ctx.generation pieceIndices).pieces := by
  refine ⟨?_, [], by rw [h, List.append_nil], ?_⟩
  · rw [webseedFailedBatch, List.map_map]
    exact List.map_id _
  · intro result hmem hok
    obtain ⟨i, -, rfl⟩ := List.mem_map.mp hmem
    cases hok

/-- One index after the other, as far as 32 bits go. -/
abbrev Successive : ℕ → ℕ → Prop := fun a b => b = min (a + 1) (2 ^ 32 - 1)

theorem validatePiece_ok {pieceIndex : ℕ} {vpi : ValidPieceIndex l} (h : l.validatePiece pieceIndex = .ok vpi) : vpi.val = pieceIndex := by
  unfold Lengths.validatePiece at h
  split at h
  · rw [← Except.ok.inj h]
  · cases h

/-- The results of the pieces that a mirror has sent are those of the first of them. -/
theorem accounts_checkPieces (ctx : WebSeedContext l) (s : Surroundings) (mirrorIdx : ℕ) (batch : List UInt8) (pieceIndices : List ℕ)
    (pieceCursor : ℕ) (w : Worker) (hrow : pieceIndices.IsChain Successive)
    (hcursor : ∀ i ∈ pieceIndices.head?, pieceCursor ≤ i * l.pieceLength) :
    ∃ stored, stored <+: pieceIndices ∧ Accounts ctx w (checkPieces ctx s mirrorIdx batch pieceIndices pieceCursor w).2 stored
      (checkPieces ctx s mirrorIdx batch pieceIndices pieceCursor w).1 := by
  have hnone : ∀ {u v : Worker} {indices : List ℕ}, v.written = u.written → ∃ stored, stored <+: indices ∧ Accounts ctx u v stored [] := by
    intro u v indices hv
    exact ⟨[], List.nil_prefix, rfl, [], by rw [hv, List.append_nil], nofun⟩
  have hone : ∀ {u v : Worker} {i : ℕ} {indices : List ℕ} {error : Option String} {conflict : Bool}, v.written = u.written →
      ∃ stored, stored <+: i :: indices ∧ Accounts ctx u v stored [.ofWebseed i error false conflict] := by
    intro u v i indices error conflict hv
    refine ⟨[i], ⟨indices, rfl⟩, rfl, [], by rw [hv, List.append_nil], ?_⟩
    intro result hmem hok
    rw [List.mem_singleton.mp hmem] at hok
    cases hok
  induction pieceIndices generalizing pieceCursor w with
  | nil => exact hnone rfl
  | cons pieceIndex rest ih =>
    unfold checkPieces
    split
    · exact hnone rfl
    rename_i vpi hvalid
    have hindex := validatePiece_ok hvalid
    have hin : pieceCursor ≤ vpi.val * l.pieceLength := by
      rw [hindex]
      exact hcursor pieceIndex rfl
    have hend : l.pieceOffset vpi + l.pieceLengthOf vpi ≤ l.totalLength := pieceEnd_le vpi
    have htotal := l.total_lt
    have hoffset : l.pieceOffset vpi = vpi.val * l.pieceLength := rfl
    have hstop : min (pieceCursor + l.pieceLengthOf vpi) (2 ^ 64 - 1) = pieceCursor + l.pieceLengthOf vpi := by
      omega
    dsimp only
    rw [hstop, Nat.add_sub_cancel_left]
    split
    · exact hnone rfl
    rename_i hfits
    split
    · exact hone rfl
    · exact hnone rfl
    · rename_i hverdict
      split
      · exact hone rfl
      · have hverify := (ite_eq_iff.mp hverdict).resolve_right fun h => nomatch h.2
        have hlength : ((batch.drop pieceCursor).take (l.pieceLengthOf vpi)).length = l.pieceLengthOf vpi := by
          rw [List.length_take, List.length_drop]
          omega
        have hnext : ∀ i ∈ rest.head?, pieceCursor + l.pieceLengthOf vpi ≤ i * l.pieceLength := by
          intro i hi
          have hsucc : i = min (pieceIndex + 1) (2 ^ 32 - 1) := (List.isChain_cons.mp hrow).1 i hi
          have hsmall := l.last_index_lt
          have hvpi : vpi.val < l.lastPieceIndex + 1 := vpi.isLt
          have hwhole := pieceLengthOf_le vpi
          have hbound : pieceIndex + 1 ≤ 2 ^ 32 - 1 := by
            omega
          rw [hsucc, min_eq_left hbound, ← hindex, Nat.succ_mul]
          exact Nat.add_le_add hin hwhole
        obtain ⟨stored, hinit, hindices, written, hwritten, hstored⟩ := ih (pieceCursor + l.pieceLengthOf vpi)
          { (w.turn s).turn s with written := (w.turn s).written ++ [(l.pieceOffset vpi, (batch.drop pieceCursor).take (l.pieceLengthOf vpi))] }
          (List.isChain_cons.mp hrow).2 hnext
        refine ⟨pieceIndex :: stored, List.cons_prefix_cons.mpr ⟨rfl, hinit⟩, ?_,
          (l.pieceOffset vpi, (batch.drop pieceCursor).take (l.pieceLengthOf vpi)) :: written, ?_, ?_⟩
        · rw [List.map_cons, hindices]
          rfl
        · exact hwritten.trans (List.append_cons w.written _ written).symm
        · intro result hmem hok
          rcases List.mem_cons.mp hmem with rfl | hlater
          · exact ⟨vpi, _, hindex, hlength, hverify.2, List.mem_cons_self⟩
          · exact (hstored result hlater hok).mono fun x hx => List.mem_cons_of_mem _ hx

/-- A batch from the mirrors that are left: the first pieces from one of them, and the others failed, or all failed. -/
theorem accounts_tryMirrors {pieceIndices : List ℕ} (batchLen : ℕ) (spans : List Span) (mirrors : List ℕ) (w : Worker)
    (hrow : pieceIndices.IsChain Successive) :
    Accounts ctx w (tryMirrors ctx s pieceIndices batchLen spans mirrors w).2 pieceIndices
      (tryMirrors ctx s pieceIndices batchLen spans mirrors w).1.pieces := by
  induction mirrors generalizing w with
  | nil => exact accounts_failed pieceIndices rfl
  | cons mirrorIdx rest ih =>
    unfold tryMirrors
    dsimp only
    split
    · exact (ih _).of_written_eq rfl
    split
    · exact (ih _).of_written_eq rfl
    obtain ⟨p, v, hfetch⟩ : ∃ p v, fetchSpans ctx s mirrorIdx spans ⟨List.replicate batchLen 0, 0, true⟩ ((w.turn s).turn s) = (p, v) :=
      ⟨_, _, rfl⟩
    have hv : v.written = w.written := by
      have hfetched : (fetchSpans ctx s mirrorIdx spans ⟨List.replicate batchLen 0, 0, true⟩ ((w.turn s).turn s)).2.written = w.written :=
        written_fetchSpans spans _ ((w.turn s).turn s)
      rw [hfetch] at hfetched
      exact hfetched
    rw [hfetch]
    dsimp only
    split
    · exact (ih v).of_written_eq hv
    obtain ⟨stored, ⟨failed, hsplit⟩, haccounts⟩ := accounts_checkPieces ctx s mirrorIdx p.batch pieceIndices 0 (v.succeeded s mirrorIdx) hrow
      fun i _ => (Nat.zero_le _)
    obtain ⟨pieces, u, hcheck⟩ : ∃ pieces u, checkPieces ctx s mirrorIdx p.batch pieceIndices 0 (v.succeeded s mirrorIdx) = (pieces, u) :=
      ⟨_, _, rfl⟩
    rw [hcheck] at haccounts ⊢
    obtain ⟨hindices, written, hwritten, hstored⟩ := haccounts.of_written_eq hv
    dsimp only at hindices hwritten hstored ⊢
    split
    · exact (ih u).after hwritten
    · have hlength : pieces.length = stored.length := by
        rw [← hindices, List.length_map]
      have haccountsFailed : Accounts ctx u u failed (webseedFailedBatch ctx.generation failed).pieces := accounts_failed failed rfl
      obtain ⟨hfailed, -⟩ := haccountsFailed
      rw [← hsplit, hlength, List.drop_left]
      refine ⟨?_, written, hwritten, fun result hmem hok => ?_⟩
      · rw [List.map_append, hindices, hfailed]
      · rcases List.mem_append.mp hmem with hfirst | hrest
        · exact hstored result hfirst hok
        · obtain ⟨i, -, rfl⟩ := List.mem_map.mp hrest
          cases hok

/-- The check of a batch for gaps. -/
theorem isChain_of_any {pieceIndices : List ℕ}
    (h : ¬ ((pieceIndices.zip pieceIndices.tail).any fun pair => pair.2 ≠ min (pair.1 + 1) (2 ^ 32 - 1)) = true) : pieceIndices.IsChain Successive := by
  induction pieceIndices with
  | nil => exact List.isChain_nil
  | cons a rest ih =>
    cases rest with
    | nil => exact List.isChain_singleton a
    | cons b rest =>
      rw [List.tail_cons, List.zip_cons_cons, List.any_cons, Bool.or_eq_true, not_or, decide_eq_true_iff, not_not] at h
      exact List.isChain_cons_cons.mpr ⟨h.1, ih h.2⟩

/-- Whatever happens, the results of a batch are those of its pieces. -/
theorem accounts_fetchWebseedBatch (ctx : WebSeedContext l) (s : Surroundings) (pieceIndices : List ℕ) (w : Worker) :
    Accounts ctx w (fetchWebseedBatch ctx s pieceIndices w).2 pieceIndices (fetchWebseedBatch ctx s pieceIndices w).1.pieces := by
  unfold fetchWebseedBatch
  split
  · split
    · split
      · exact accounts_failed pieceIndices rfl
      rename_i hrow
      dsimp only
      split
      · exact accounts_failed pieceIndices rfl
      · exact accounts_tryMirrors _ _ _ w (isChain_of_any hrow)
    · exact accounts_failed pieceIndices rfl
  · rename_i hempty
    have hnil : pieceIndices = [] := by
      cases pieceIndices with
      | nil => rfl
      | cons a rest => exact (hempty a _ rfl List.getLast?_cons).elim
    subst hnil
    exact ⟨rfl, [], (List.append_nil _).symm, nofun⟩

/-! ## Splitting -/

/-- A batch of pieces in a row, not too long. -/
structure Batch (maxPieces : ℕ) (batch : List ℕ) : Prop where
  row : batch.IsChain Successive
  fits : batch.length ≤ max maxPieces 1

theorem addToBatch_spec {maxPieces : ℕ} {state : List (List ℕ) × List ℕ} (piece : ℕ) (hdone : ∀ batch ∈ state.1, batch ≠ [] ∧ Batch maxPieces batch)
    (hcurrent : Batch maxPieces state.2) :
    (∀ batch ∈ (addToBatch maxPieces state piece).1, batch ≠ [] ∧ Batch maxPieces batch) ∧ Batch maxPieces (addToBatch maxPieces state piece).2 ∧
      (addToBatch maxPieces state piece).1.flatten ++ (addToBatch maxPieces state piece).2 = state.1.flatten ++ state.2 ++ [piece] := by
  unfold addToBatch
  dsimp only
  split
  · rename_i hfull
    rw [Bool.and_eq_true, Bool.not_eq_true', List.isEmpty_eq_false_iff] at hfull
    refine ⟨?_, ⟨List.isChain_singleton piece, le_max_right _ _⟩, ?_⟩
    · intro batch hmem
      rcases List.mem_append.mp hmem with hold | hnew
      · exact hdone batch hold
      · rw [List.mem_singleton.mp hnew]
        exact ⟨hfull.1, hcurrent⟩
    · rw [List.flatten_append, List.flatten_singleton]
  · rename_i hopen
    refine ⟨hdone, ?_, (List.append_assoc ..).symm⟩
    by_cases hempty : state.2 = []
    · rw [hempty]
      exact ⟨List.isChain_singleton piece, le_max_right _ _⟩
    · rw [Bool.and_eq_true, Bool.not_eq_true', List.isEmpty_eq_false_iff, not_and] at hopen
      have hroom := hopen hempty
      rw [Bool.or_eq_true, not_or, Bool.not_eq_true', Bool.not_eq_false, decide_eq_true_iff] at hroom
      constructor
      · refine hcurrent.row.append (List.isChain_singleton piece) fun previous hlast next hnext => ?_
        obtain rfl : piece = next := Option.some.inj hnext
        have hadjacent := hroom.1
        rw [Option.mem_def.mp hlast] at hadjacent
        exact of_decide_eq_true hadjacent
      · have hfits := hcurrent.fits
        rw [List.length_append, List.length_singleton]
        omega

theorem foldl_addToBatch {maxPieces : ℕ} (candidates : List ℕ) {state : List (List ℕ) × List ℕ}
    (hdone : ∀ batch ∈ state.1, batch ≠ [] ∧ Batch maxPieces batch)
    (hcurrent : Batch maxPieces state.2) :
    (∀ batch ∈ (candidates.foldl (addToBatch maxPieces) state).1, batch ≠ [] ∧ Batch maxPieces batch) ∧
      Batch maxPieces (candidates.foldl (addToBatch maxPieces) state).2 ∧
      (candidates.foldl (addToBatch maxPieces) state).1.flatten ++ (candidates.foldl (addToBatch maxPieces) state).2 =
        state.1.flatten ++ state.2 ++ candidates := by
  induction candidates generalizing state with
  | nil => exact ⟨hdone, hcurrent, (List.append_nil _).symm⟩
  | cons piece rest ih =>
    obtain ⟨hdone', hcurrent', hflat⟩ := addToBatch_spec piece hdone hcurrent
    obtain ⟨hdone'', hcurrent'', hflat'⟩ := ih hdone' hcurrent'
    refine ⟨hdone'', hcurrent'', ?_⟩
    rw [List.foldl_cons, hflat', hflat, List.append_assoc _ [piece], List.singleton_append]

/-- The batches are the candidates, cut at gaps and at the limit. -/
theorem contiguousWebseedBatches_spec (candidates : List ℕ) (maxPieces : ℕ) : (contiguousWebseedBatches candidates maxPieces).flatten = candidates ∧
    ∀ batch ∈ contiguousWebseedBatches candidates maxPieces, batch ≠ [] ∧ Batch maxPieces batch := by
  obtain ⟨hdone, hcurrent, hflat⟩ := @foldl_addToBatch maxPieces candidates ([], []) nofun ⟨List.isChain_nil, Nat.zero_le _⟩
  unfold contiguousWebseedBatches
  dsimp only
  rw [List.flatten_nil, List.nil_append, List.nil_append] at hflat
  split
  · rename_i hempty
    rw [List.isEmpty_iff.mp hempty, List.append_nil] at hflat
    exact ⟨hflat, hdone⟩
  · rename_i hopen
    refine ⟨?_, ?_⟩
    · rw [List.flatten_append, List.flatten_singleton, hflat]
    · intro batch hmem
      rcases List.mem_append.mp hmem with hold | hnew
      · exact hdone batch hold
      · rw [List.mem_singleton.mp hnew]
        exact ⟨fun hnil => hopen (List.isEmpty_iff.mpr hnil), hcurrent⟩

theorem fits_webseedPiecesPerJob {pieceLength n : ℕ} (hp : 0 < pieceLength) (h : n ≤ max (webseedPiecesPerJob pieceLength) 1) :
    n ≤ maxPiecesPerJob ∧ (1 < n → n * pieceLength ≤ maxRangeBytes) := by
  have hle : n ≤ max 1 (min (maxRangeBytes / pieceLength) maxPiecesPerJob) := by
    unfold webseedPiecesPerJob at h
    rw [max_eq_left (show 1 ≤ pieceLength from hp)] at h
    omega
  have height : 1 ≤ maxPiecesPerJob := by
    decide
  refine ⟨by omega, fun hmany => ?_⟩
  have hquot : n ≤ maxRangeBytes / pieceLength := by
    omega
  exact (Nat.mul_le_mul_right _ hquot).trans (Nat.div_mul_le_self _ _)

/-- Of the pieces of a torrent, those of a batch follow each other. -/
theorem Batch.consecutive {maxPieces : ℕ} {batch : List ℕ} (h : Batch maxPieces batch) (hvalid : ∀ i ∈ batch, i < l.totalPieces) :
    batch.IsChain fun a b => b = a + 1 := by
  refine h.row.imp_of_mem_imp fun a b ha _ hab => ?_
  have hsmall := l.last_index_lt
  have ha' : a < l.lastPieceIndex + 1 := hvalid a ha
  have hbound : a + 1 ≤ 2 ^ 32 - 1 := by
    omega
  exact hab.trans (min_eq_left hbound)

theorem nodup_of_consecutive {batch : List ℕ} (h : batch.IsChain fun a b => b = a + 1) : batch.Nodup := by
  have hlt : batch.IsChain (· < ·) := h.imp fun a b (hab : b = a + 1) => by omega
  exact hlt.pairwise.imp fun hab => hab.ne

end Webseed

end Risuko
