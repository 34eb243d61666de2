import Risuko.Lemmas.PieceTracker
import Risuko.Lemmas.Spans
import Risuko.Torrent.Progress

/-!
# What a piece adds to a file

The spans of a piece add to each file the bytes the two have in common (`tiles_spanLen`), and over all pieces these are the bytes of the
file (`sum_overlap`).
-/

namespace Risuko

/-- The bytes a range has in common with a file. -/
def overlap (start stop : Nat) (f : FileInfo) : Nat := min stop (f.offset + f.length) - max start f.offset

/-- The bytes of a file in spans. -/
def spanLen (spans : List Span) (k : Nat) : Nat := ((spans.filter fun s => s.fileIndex = k).map Span.len).sum

theorem overlap_add {a b c : Nat} (f : FileInfo) (hab : a ≤ b) (hbc : b ≤ c) : overlap a b f + overlap b c f = overlap a c f := by
  unfold overlap
  omega

theorem spanLen_cons (span : Span) (spans : List Span) (k : Nat) :
    spanLen (span :: spans) k = (if span.fileIndex = k then span.len else 0) + spanLen spans k := by
  unfold spanLen
  rw [List.filter_cons]
  by_cases h : span.fileIndex = k
  · rw [if_pos (by simpa using h), if_pos h, List.map_cons, List.sum_cons]
  · rw [if_neg (by simpa using h), if_neg h, Nat.zero_add]

theorem tiles_spanLen {set : FileSet} {pos stop : Nat} {spans : List Span} (h : Tiles set pos spans stop) {k : Nat} {f : FileInfo}
    (hf : set.files[k]? = some f) : spanLen spans k = overlap pos stop f := by
  induction spans generalizing pos with
  | nil =>
    have hstop : pos = stop := h
    rw [hstop]
    unfold spanLen overlap
    simp
  | cons span rest ih =>
    obtain ⟨⟨g, hg, hpos, hlen⟩, hrest⟩ := h
    rw [spanLen_cons, ih hrest, ← overlap_add f (Nat.le_add_right pos span.len) (tiles_le hrest)]
    congr 1
    split
    · rename_i hk
      rw [hk, hf] at hg
      cases hg
      unfold overlap
      omega
    · rename_i hk
      unfold overlap
      by_contra hne
      -- A byte of the span in another file.
      have hp : f.offset ≤ max pos f.offset ∧ max pos f.offset < f.offset + f.length := by omega
      exact hk (set.contiguous.unique hg hf (by omega) hp)

/-- The file indices of spans that cover a range. -/
theorem Tiles.lt_length {set : FileSet} {pos stop : Nat} {spans : List Span} (h : Tiles set pos spans stop) :
    ∀ span ∈ spans, span.fileIndex < set.files.length := by
  induction spans generalizing pos with
  | nil => exact fun span hs => absurd hs List.not_mem_nil
  | cons span rest ih =>
    obtain ⟨⟨g, hg, -⟩, hrest⟩ := h
    exact List.forall_mem_cons.mpr ⟨(List.getElem?_eq_some_iff.mp hg).1, ih hrest⟩

/-! ## The loop over spans -/

theorem saturatingAdd_of_lt {a b : Nat} (h : a + b < 2 ^ 64) : saturatingAdd a b = a + b := min_eq_left (by omega)

/-- The loop adds the spans to their files, and returns the files that get all their bytes by it, each once. -/
theorem addSpans_spec {set : FileSet} (htotal : set.totalLength < 2 ^ 64) {spans : List Span} {progress : List Nat}
    (hin : ∀ span ∈ spans, span.fileIndex < set.files.length) (hlen : set.files.length ≤ progress.length)
    (hroom : ∀ k f, set.files[k]? = some f → progress.getD k 0 + spanLen spans k ≤ f.length) :
    (addSpans set spans progress).1.length = progress.length
      ∧ (∀ k < set.files.length, (addSpans set spans progress).1.getD k 0 = progress.getD k 0 + spanLen spans k)
      ∧ (∀ k f, set.files[k]? = some f → (addSpans set spans progress).2.count k =
          if progress.getD k 0 < f.length ∧ f.length ≤ progress.getD k 0 + spanLen spans k then 1 else 0)
      ∧ ∀ k ∈ (addSpans set spans progress).2, k < set.files.length := by
  induction spans generalizing progress with
  | nil =>
    refine ⟨rfl, fun k _ => rfl, fun k f _ => ?_, fun k hk => absurd hk List.not_mem_nil⟩
    have hzero : spanLen [] k = 0 := rfl
    rw [hzero, if_neg (by omega)]
    rfl
  | cons span rest ih =>
    obtain ⟨hspan, hrest⟩ := List.forall_mem_cons.mp hin
    have hfile : set.files[span.fileIndex]? = some set.files[span.fileIndex] := List.getElem?_eq_getElem hspan
    have hbound := (set.contiguous.bounds hfile).2
    have hroom' := hroom _ _ hfile
    rw [spanLen_cons, if_pos rfl] at hroom'
    have hdone : saturatingAdd (progress.getD span.fileIndex 0) span.len = progress.getD span.fileIndex 0 + span.len :=
      saturatingAdd_of_lt (by omega)
    have hset : ∀ k, (progress.set span.fileIndex (progress.getD span.fileIndex 0 + span.len)).getD k 0 =
        progress.getD k 0 + if span.fileIndex = k then span.len else 0 := by
      intro k
      rw [List.getD_eq_getElem?_getD, List.getElem?_set]
      split
      · rename_i hk
        rw [if_pos (by omega), Option.getD_some, hk]
      · rw [← List.getD_eq_getElem?_getD, Nat.add_zero]
    obtain ⟨hlen', hprogress, hcount, hmem⟩ := @ih (progress.set span.fileIndex (progress.getD span.fileIndex 0 + span.len)) hrest
      (by rw [List.length_set]; exact hlen) (fun k f hf => by
        have := hroom k f hf
        rw [spanLen_cons] at this
        rw [hset]
        omega)
    simp only [addSpans, hdone, hfile, Option.map_some, Option.getD_some]
    refine ⟨by rw [hlen', List.length_set], fun k hk => ?_, fun k f hf => ?_, fun k hk => ?_⟩
    · rw [hprogress k hk, hset, spanLen_cons]
      omega
    · have hc := hcount k f hf
      rw [hset] at hc
      rw [spanLen_cons]
      by_cases hk : span.fileIndex = k
      · subst hk
        rw [hfile] at hf
        cases hf
        rw [if_pos rfl] at hc ⊢
        split
        · rename_i hcross
          rw [List.count_cons_self, hc, if_neg (by omega), if_pos (by omega)]
        · rw [hc]
          split <;> split <;> omega
      · rw [if_neg hk] at hc ⊢
        have hcons : (if progress.getD span.fileIndex 0 < set.files[span.fileIndex].length ∧
            set.files[span.fileIndex].length ≤ progress.getD span.fileIndex 0 + span.len then
              span.fileIndex :: (addSpans set rest (progress.set span.fileIndex (progress.getD span.fileIndex 0 + span.len))).2
            else (addSpans set rest (progress.set span.fileIndex (progress.getD span.fileIndex 0 + span.len))).2).count k =
            (addSpans set rest (progress.set span.fileIndex (progress.getD span.fileIndex 0 + span.len))).2.count k := by
          split
          · rw [List.count_cons_of_ne hk]
          · rfl
        rw [hcons, hc]
        simp only [Nat.add_zero, Nat.zero_add]
    · split at hk
      · rcases List.mem_cons.mp hk with rfl | hk
        · exact hspan
        · exact hmem k hk
      · exact hmem k hk

/-! ## The bytes of a file -/

variable {l : Lengths}

theorem pieceLengthOf_le (i : ValidPieceIndex l) : l.pieceLengthOf i ≤ l.pieceLength := by
  unfold Lengths.pieceLengthOf
  split
  · rw [l.last_length]
    exact Lengths.lastLength_le l.piece_pos
  · exact le_rfl

/-- Where a piece ends. -/
def pieceEnd (l : Lengths) (i : ValidPieceIndex l) : Nat := l.pieceOffset i + l.pieceLengthOf i

theorem pieceEnd_le (i : ValidPieceIndex l) : pieceEnd l i ≤ l.totalLength := by
  have htotal := PieceTracker.mul_add_lastLength l.total_pos l.piece_pos l.last_index
  rw [← l.last_length] at htotal
  unfold pieceEnd Lengths.pieceOffset Lengths.pieceLengthOf
  split
  · rename_i hi
    rw [hi, htotal]
  · have hlt : i.val + 1 ≤ l.lastPieceIndex := by
      have := i.isLt
      unfold Lengths.totalPieces at this
      omega
    have hmul := Nat.mul_le_mul_right l.pieceLength hlt
    rw [Nat.succ_mul] at hmul
    omega

/-- Over all pieces the bytes in common with a file are the bytes of the file. -/
theorem sum_overlap {set : FileSet} (hset : set.totalLength = l.totalLength) {k : Nat} {f : FileInfo} (hf : set.files[k]? = some f) :
    ∑ i : ValidPieceIndex l, overlap (l.pieceOffset i) (pieceEnd l i) f = f.length := by
  have hend := (set.contiguous.bounds hf).2
  rw [hset] at hend
  have htotal := PieceTracker.mul_add_lastLength l.total_pos l.piece_pos l.last_index
  rw [← l.last_length] at htotal
  have hwhole : ∀ q, ∑ k ∈ Finset.range q, overlap (k * l.pieceLength) ((k + 1) * l.pieceLength) f = overlap 0 (q * l.pieceLength) f := by
    intro q
    induction q with
    | zero =>
      unfold overlap
      simp
    | succ q ih =>
      rw [Finset.sum_range_succ, ih]
      exact overlap_add f (Nat.zero_le _) (Nat.mul_le_mul_right _ (Nat.le_succ q))
  let share : Nat → Nat := fun k =>
    overlap (k * l.pieceLength) (k * l.pieceLength + if k = l.lastPieceIndex then l.lastPieceLength else l.pieceLength) f
  calc ∑ i : ValidPieceIndex l, overlap (l.pieceOffset i) (pieceEnd l i) f
    _ = ∑ k ∈ Finset.range (l.lastPieceIndex + 1), share k := Fin.sum_univ_eq_sum_range share _
    _ = ∑ k ∈ Finset.range l.lastPieceIndex, overlap (k * l.pieceLength) ((k + 1) * l.pieceLength) f + share l.lastPieceIndex := by
      rw [Finset.sum_range_succ]
      congr 1
      refine Finset.sum_congr rfl fun k hk => ?_
      have := Finset.mem_range.mp hk
      simp only [share]
      rw [if_neg (by omega), Nat.succ_mul]
    _ = overlap 0 l.totalLength f := by
      simp only [share]
      rw [hwhole, if_pos trivial, htotal]
      exact overlap_add f (Nat.zero_le _) (by omega)
    _ = f.length := by
      unfold overlap
      omega

/-- The spans of a piece are the bytes it has in common with each file. -/
theorem spans_of_piece {set : FileSet} (hset : set.totalLength = l.totalLength) (i : ValidPieceIndex l) :
    Tiles set (l.pieceOffset i) (set.collectSpans (l.pieceOffset i) (l.pieceLengthOf i)) (pieceEnd l i) := by
  have hle := pieceEnd_le i
  have hpos := Lengths.pieceLengthOf_pos i
  unfold pieceEnd at hle ⊢
  have htotal := l.total_lt
  have htiles := (@spanCover_of_lt set (by omega) (l.pieceOffset i) (l.pieceLengthOf i) (by omega)).1.tiles
  rw [min_eq_left (by omega)] at htiles
  exact htiles

end Risuko
