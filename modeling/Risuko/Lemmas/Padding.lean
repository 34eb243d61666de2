import Risuko.Lib.Ranges
import Risuko.Piece.ChunkTracker

/-!
# Padding

The merged ranges of `with_padding` are sorted with gaps between them and hold what the given ranges hold, and the scan of `padding_flags` passes only
ranges that end before the chunk, so a chunk is marked when one merged range covers it.
-/

namespace Risuko

namespace ChunkTracker

/-! ## The merged ranges -/

/-- A merge appends the range, or puts the last range and it together. -/
theorem mergeRange_cases (merged : List (ℕ × ℕ)) (r : ℕ × ℕ) :
    (mergeRange merged r = merged ++ [r] ∧ ∀ last, merged.getLast? = some last → last.2 < r.1) ∨
    ∃ init last, merged = init ++ [last] ∧ r.1 ≤ last.2 ∧ mergeRange merged r = init ++ [(last.1, max last.2 r.2)] := by
  unfold mergeRange
  cases hlast : merged.getLast? with
  | none => exact Or.inl ⟨rfl, nofun⟩
  | some last =>
    obtain ⟨init, rfl⟩ := List.getLast?_eq_some_iff.mp hlast
    dsimp only
    split
    · rename_i htouch
      exact Or.inr ⟨init, last, rfl, htouch, by rw [List.dropLast_concat]⟩
    · rename_i happart
      refine Or.inl ⟨rfl, fun last' hsame => ?_⟩
      cases hsame
      exact not_le.mp happart

/-- The ranges so far, when those to come begin at `s` or behind it. -/
structure Merging (merged : List (ℕ × ℕ)) (s : ℕ) : Prop where
  normal : Ranges.Normal merged
  start : ∀ r ∈ merged, r.1 ≤ s

theorem Merging.step {merged : List (ℕ × ℕ)} {s : ℕ} (h : Merging merged s) {r : ℕ × ℕ} (hr : r.1 < r.2) (hs : s ≤ r.1) :
    Merging (mergeRange merged r) r.1 ∧ Ranges.points (mergeRange merged r) = Ranges.points merged ∪ Finset.Ico r.1 r.2 := by
  rcases mergeRange_cases merged r with ⟨heq, hapart⟩ | ⟨init, last, rfl, htouch, heq⟩
  · rw [heq]
    refine ⟨⟨⟨?_, ?_⟩, ?_⟩, by rw [Ranges.points_append]; simp⟩
    · refine List.pairwise_append.mpr ⟨h.normal.apart, List.pairwise_singleton .., fun q hq r' hr' => ?_⟩
      rw [List.mem_singleton.mp hr']
      -- The last range ends behind all before it.
      obtain ⟨init, last, rfl⟩ : ∃ init last, merged = init ++ [last] := by
        cases List.eq_nil_or_concat' merged with
        | inl hnil => exact absurd hq (by rw [hnil]; exact List.not_mem_nil)
        | inr hcat => exact hcat
      have hend := hapart last List.getLast?_concat
      rcases List.mem_append.mp hq with hinit | hlast
      · have hgap := (List.pairwise_append.mp h.normal.apart).2.2 q hinit last (List.mem_singleton_self _)
        have hne := h.normal.nonempty last (List.mem_append_right _ (List.mem_singleton_self _))
        omega
      · rw [List.mem_singleton.mp hlast]
        exact hend
    · intro q hq
      rcases List.mem_append.mp hq with hold | hnew
      · exact h.normal.nonempty q hold
      · rw [List.mem_singleton.mp hnew]
        exact hr
    · intro q hq
      rcases List.mem_append.mp hq with hold | hnew
      · exact (h.start q hold).trans hs
      · rw [List.mem_singleton.mp hnew]
  · have hstart := h.start last (List.mem_append_right _ (List.mem_singleton_self _))
    have hne := h.normal.nonempty last (List.mem_append_right _ (List.mem_singleton_self _))
    obtain ⟨hinit, -, hgap⟩ := List.pairwise_append.mp h.normal.apart
    rw [heq]
    refine ⟨⟨⟨?_, ?_⟩, ?_⟩, ?_⟩
    · refine List.pairwise_append.mpr ⟨hinit, List.pairwise_singleton .., fun q hq r' hr' => ?_⟩
      rw [List.mem_singleton.mp hr']
      exact hgap q hq last (List.mem_singleton_self _)
    · intro q hq
      rcases List.mem_append.mp hq with hold | hnew
      · exact h.normal.nonempty q (List.mem_append_left _ hold)
      · rw [List.mem_singleton.mp hnew]
        exact lt_max_of_lt_left hne
    · intro q hq
      rcases List.mem_append.mp hq with hold | hnew
      · exact (h.start q (List.mem_append_left _ hold)).trans hs
      · rw [List.mem_singleton.mp hnew]
        exact hstart.trans hs
    · ext x
      rw [Ranges.points_append, Ranges.points_append]
      simp only [Ranges.points_cons, Ranges.points_nil, Finset.union_empty, Finset.mem_union, Finset.mem_Ico]
      have hjoin : (last.1 ≤ x ∧ x < max last.2 r.2) ↔ (last.1 ≤ x ∧ x < last.2) ∨ (r.1 ≤ x ∧ x < r.2) := by
        omega
      rw [hjoin, or_assoc]

theorem merge_spec {ranges : List (ℕ × ℕ)} (hne : ∀ r ∈ ranges, r.1 < r.2) (hsorted : ranges.Pairwise fun a b => a.1 ≤ b.1) :
    ∀ {merged : List (ℕ × ℕ)} {s : ℕ}, Merging merged s → (∀ r ∈ ranges, s ≤ r.1) →
      Ranges.Normal (ranges.foldl mergeRange merged) ∧
        Ranges.points (ranges.foldl mergeRange merged) = Ranges.points merged ∪ Ranges.points ranges := by
  induction ranges with
  | nil =>
    intro merged s h _
    exact ⟨h.normal, by simp⟩
  | cons r rest ih =>
    intro merged s h hstart
    rw [List.forall_mem_cons] at hne hstart
    rw [List.pairwise_cons] at hsorted
    obtain ⟨hnext, hpoints⟩ := h.step hne.1 hstart.1
    obtain ⟨hnormal, hall⟩ := ih hne.2 hsorted.2 hnext hsorted.1
    refine ⟨hnormal, ?_⟩
    rw [List.foldl_cons, hall, hpoints, Ranges.points_cons, Finset.union_assoc]

instance : Std.Total rangeLe where
  total a b := by
    unfold rangeLe
    omega

instance : IsTrans (ℕ × ℕ) rangeLe where
  trans a b c hab hbc := by
    unfold rangeLe at *
    omega

/-- What `with_padding` stores is in order, and holds the bytes of the given ranges. -/
theorem mergedPadding_spec (ranges : List (ℕ × ℕ)) :
    Ranges.Normal (mergedPadding ranges) ∧ ∀ x, x ∈ Ranges.points (mergedPadding ranges) ↔ ∃ r ∈ ranges, r.1 ≤ x ∧ x < r.2 := by
  have hmem : ∀ r, r ∈ (ranges.filter fun r => r.1 < r.2).insertionSort rangeLe ↔ r ∈ ranges ∧ r.1 < r.2 := by
    intro r
    rw [List.mem_insertionSort, List.mem_filter, decide_eq_true_iff]
  have hsorted : ((ranges.filter fun r => r.1 < r.2).insertionSort rangeLe).Pairwise fun a b => a.1 ≤ b.1 := by
    refine (List.pairwise_insertionSort rangeLe _).imp fun {a b} hab => ?_
    unfold rangeLe at hab
    omega
  have hnone : Merging [] 0 := ⟨.nil, nofun⟩
  obtain ⟨hnormal, hpoints⟩ := merge_spec (fun r hr => ((hmem r).mp hr).2) hsorted hnone fun _ _ => Nat.zero_le _
  refine ⟨hnormal, fun x => ?_⟩
  unfold mergedPadding
  rw [hpoints, Ranges.points_nil, Finset.empty_union, Ranges.mem_points]
  constructor
  · rintro ⟨r, hr, hin⟩
    exact ⟨r, ((hmem r).mp hr).1, hin⟩
  · rintro ⟨r, hr, hlo, hhi⟩
    exact ⟨r, (hmem r).mpr ⟨hr, hlo.trans_lt hhi⟩, hlo, hhi⟩

/-! ## The scan -/

/-- Past the ranges that end at a byte or before it, the first one covers what begins there if any does. -/
theorem covers_head {L : List (ℕ × ℕ)} (h : Ranges.Normal L) {start stop : ℕ} (hlt : start < stop) :
    (match (L.dropWhile fun r => r.2 ≤ start).head? with
      | some r => decide (r.1 ≤ start) && decide (stop ≤ r.2)
      | none => false) = true ↔ ∃ r ∈ L, r.1 ≤ start ∧ stop ≤ r.2 := by
  induction L with
  | nil => simp
  | cons r L ih =>
    obtain ⟨hne, hgap, hrest⟩ := Ranges.normal_cons.mp h
    rw [List.dropWhile_cons]
    by_cases hpassed : r.2 ≤ start
    · rw [if_pos (decide_eq_true hpassed), ih hrest]
      constructor
      · rintro ⟨q, hq, hcover⟩
        exact ⟨q, List.mem_cons_of_mem _ hq, hcover⟩
      · rintro ⟨q, hq, hlo, hhi⟩
        rcases List.mem_cons.mp hq with rfl | hq
        · omega
        · exact ⟨q, hq, hlo, hhi⟩
    · rw [if_neg (by simpa using hpassed), List.head?_cons]
      simp only [Bool.and_eq_true, decide_eq_true_iff]
      constructor
      · intro hcover
        exact ⟨r, List.mem_cons_self, hcover⟩
      · rintro ⟨q, hq, hlo, hhi⟩
        rcases List.mem_cons.mp hq with rfl | hq
        · exact ⟨hlo, hhi⟩
        · have hafter := hgap q hq
          omega

theorem dropWhile_dropWhile_le {L : List (ℕ × ℕ)} {s s' : ℕ} (h : s ≤ s') :
    (L.dropWhile fun r => r.2 ≤ s).dropWhile (fun r => r.2 ≤ s') = L.dropWhile fun r => r.2 ≤ s' := by
  induction L with
  | nil => rfl
  | cons r L ih =>
    by_cases hr : r.2 ≤ s
    · have hr' := hr.trans h
      rw [List.dropWhile_cons_of_pos (by simpa using hr), ih, List.dropWhile_cons_of_pos (by simpa using hr')]
    · rw [List.dropWhile_cons_of_neg (by simpa using hr)]

/-- The scan, when it has passed only ranges that end at `from` or before it. -/
theorem paddingScan_eq {padding : List (ℕ × ℕ)} {base pieceEnd : ℕ} {is : List ℕ} (hsorted : is.Pairwise (· ≤ ·)) :
    ∀ {passed : ℕ}, (∀ i ∈ is, passed ≤ base + i * chunkSize) →
      paddingScan base pieceEnd is (padding.dropWhile fun r => r.2 ≤ passed) = is.map fun i =>
        match (padding.dropWhile fun r => r.2 ≤ base + i * chunkSize).head? with
        | some r => decide (r.1 ≤ base + i * chunkSize) && decide (min (base + i * chunkSize + chunkSize) pieceEnd ≤ r.2)
        | none => false := by
  induction is with
  | nil =>
    intro passed _
    rfl
  | cons i rest ih =>
    intro passed hpassed
    rw [List.forall_mem_cons] at hpassed
    rw [List.pairwise_cons] at hsorted
    rw [paddingScan, dropWhile_dropWhile_le hpassed.1, List.map_cons]
    congr 1
    exact ih hsorted.2 fun j hj => Nat.add_le_add_left (Nat.mul_le_mul_right _ (hsorted.1 j hj)) _

/-! ## The flags -/

variable {l : Lengths} {piece : ValidPieceIndex l}

/-- Whether every byte of a chunk lies in some range. -/
def InPadding (ranges : List (ℕ × ℕ)) (piece : ValidPieceIndex l) (c : ℕ) : Prop :=
  ∀ x, l.pieceOffset piece + c * chunkSize ≤ x →
    x < min (l.pieceOffset piece + c * chunkSize + chunkSize) (l.pieceOffset piece + l.pieceLengthOf piece) → ∃ r ∈ ranges, r.1 ≤ x ∧ x < r.2

/-- What the scan says of a chunk. -/
theorem getElem?_paddingScan (ranges : List (ℕ × ℕ)) {c : ℕ} (hc : c < l.chunkCount piece) :
    (paddingScan (l.pieceOffset piece) (l.pieceOffset piece + l.pieceLengthOf piece) (List.range (l.chunkCount piece))
      ((mergedPadding ranges).dropWhile fun r => r.2 ≤ l.pieceOffset piece))[c]? = some true ↔ InPadding ranges piece c := by
  obtain ⟨hnormal, hpoints⟩ := mergedPadding_spec ranges
  have hchunk := (Lengths.lt_chunkCount_iff piece c).mp hc
  have hsize : 0 < chunkSize := by
    decide
  rw [paddingScan_eq List.pairwise_le_range fun i _ => Nat.le_add_right _ _, List.getElem?_map, List.getElem?_range hc, Option.map_some,
    Option.some.injEq, covers_head hnormal (by omega), Ranges.exists_covering_iff hnormal (by omega)]
  constructor
  · intro hsub x hlo hhi
    exact (hpoints x).mp (hsub (Finset.mem_Ico.mpr ⟨hlo, hhi⟩))
  · intro hall x hx
    obtain ⟨hlo, hhi⟩ := Finset.mem_Ico.mp hx
    exact (hpoints x).mpr (hall x hlo hhi)

theorem length_paddingScan (base pieceEnd : ℕ) (is : List ℕ) (padding : List (ℕ × ℕ)) : (paddingScan base pieceEnd is padding).length = is.length := by
  induction is generalizing padding with
  | nil => rfl
  | cons i rest ih => rw [paddingScan, List.length_cons, ih, List.length_cons]

/-- A chunk is not covered by no ranges. -/
theorem InPadding.merged_ne_nil {ranges : List (ℕ × ℕ)} {c : ℕ} (hc : c < l.chunkCount piece) (h : InPadding ranges piece c) :
    mergedPadding ranges ≠ [] := by
  intro hnil
  have hchunk := (Lengths.lt_chunkCount_iff piece c).mp hc
  have hsize : 0 < chunkSize := by
    decide
  have hfirst := ((mergedPadding_spec ranges).2 _).mpr (h (l.pieceOffset piece + c * chunkSize) le_rfl (by omega))
  rw [hnil] at hfirst
  exact absurd hfirst (Finset.notMem_empty _)

end ChunkTracker

end Risuko
