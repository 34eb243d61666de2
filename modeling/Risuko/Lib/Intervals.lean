import Mathlib.Data.List.Sort
import Mathlib.Data.List.TakeWhile
import Mathlib.Data.Prod.Lex
import Mathlib.Order.MinMax

/-!
# Closed intervals

Intervals of a linear order, sorted by their starts and merged where they overlap, hold what the intervals hold that were given (`covers_merge`), and
whether one of them holds a point is seen at the last that does not start behind it (`lookup_iff`).
-/

namespace Risuko

namespace Intervals

variable {α : Type*} [LinearOrder α]

/-- Whether one of the intervals holds a point. -/
def Covers (L : List (α × α)) (x : α) : Prop := ∃ r ∈ L, r.1 ≤ x ∧ x ≤ r.2

/-- In order and apart, and none is empty. -/
structure Ordered (L : List (α × α)) : Prop where
  apart : L.Pairwise fun r q => r.2 < q.1
  nonempty : ∀ r ∈ L, r.1 ≤ r.2

/-- An interval that does not start before the others is put behind them, or joined with the last if it starts in it. -/
def join (merged : List (α × α)) (r : α × α) : List (α × α) :=
  match merged.getLast? with
  | none => [r]
  | some last => if r.1 ≤ last.2 then merged.dropLast ++ [(last.1, max last.2 r.2)] else merged ++ [r]

/-- The intervals, sorted and merged. -/
def merge (L : List (α × α)) : List (α × α) := (L.insertionSort fun a b => toLex a ≤ toLex b).foldl join []

/-- The look at the last interval that does not start behind a point. -/
def lookup (L : List (α × α)) (x : α) : Bool :=
  let idx := (L.takeWhile fun r => r.1 ≤ x).length
  0 < idx && L[idx - 1]?.any fun r => x ≤ r.2

theorem covers_nil (x : α) : ¬ Covers [] x := nofun

theorem covers_append {L L' : List (α × α)} {x : α} : Covers (L ++ L') x ↔ Covers L x ∨ Covers L' x := by
  unfold Covers
  simp only [List.mem_append, or_and_right, exists_or]

theorem covers_singleton {r : α × α} {x : α} : Covers [r] x ↔ r.1 ≤ x ∧ x ≤ r.2 := by
  unfold Covers
  simp only [List.mem_singleton, exists_eq_left]

theorem covers_cons {r : α × α} {L : List (α × α)} {x : α} : Covers (r :: L) x ↔ (r.1 ≤ x ∧ x ≤ r.2) ∨ Covers L x := by
  unfold Covers
  simp only [List.mem_cons, or_and_right, exists_or, exists_eq_left]

/-! ## Merging -/

/-- The intervals so far, none of which starts behind `s`. -/
structure Merging (merged : List (α × α)) (s : α) : Prop where
  ordered : Ordered merged
  start : ∀ r ∈ merged, r.1 ≤ s

theorem Merging.join {merged : List (α × α)} {r : α × α} (h : Merging merged r.1) (hr : r.1 ≤ r.2) :
    Merging (join merged r) r.1 ∧ ∀ x, Covers (Intervals.join merged r) x ↔ Covers merged x ∨ (r.1 ≤ x ∧ x ≤ r.2) := by
  unfold Intervals.join
  cases hlast : merged.getLast? with
  | none =>
    obtain rfl := List.getLast?_eq_none_iff.mp hlast
    refine ⟨⟨⟨List.pairwise_singleton .., by simpa using hr⟩, by simp⟩, fun x => ?_⟩
    rw [covers_singleton]
    exact (or_iff_right (covers_nil x)).symm
  | some last =>
    obtain ⟨init, rfl⟩ := List.getLast?_eq_some_iff.mp hlast
    obtain ⟨hinit, -, hgap⟩ := List.pairwise_append.mp h.ordered.apart
    have hmem : last ∈ init ++ [last] := List.mem_append_right _ (List.mem_singleton_self _)
    dsimp only
    split
    · rename_i htouch
      rw [List.dropLast_concat]
      refine ⟨⟨⟨?_, ?_⟩, ?_⟩, fun x => ?_⟩
      · refine List.pairwise_append.mpr ⟨hinit, List.pairwise_singleton .., fun q hq r' hr' => ?_⟩
        rw [List.mem_singleton.mp hr']
        exact hgap q hq last (List.mem_singleton_self _)
      · intro q hq
        rcases List.mem_append.mp hq with hold | hnew
        · exact h.ordered.nonempty q (List.mem_append_left _ hold)
        · rw [List.mem_singleton.mp hnew]
          exact (h.ordered.nonempty last hmem).trans (le_max_left _ _)
      · intro q hq
        rcases List.mem_append.mp hq with hold | hnew
        · exact h.start q (List.mem_append_left _ hold)
        · rw [List.mem_singleton.mp hnew]
          exact h.start last hmem
      · rw [covers_append, covers_append, covers_singleton, covers_singleton, or_assoc]
        refine or_congr_right ?_
        constructor
        · rintro ⟨hlo, hhi⟩
          rcases le_max_iff.mp hhi with hin | hin
          · exact Or.inl ⟨hlo, hin⟩
          · rcases le_total r.1 x with hstart | hbefore
            · exact Or.inr ⟨hstart, hin⟩
            · exact Or.inl ⟨hlo, hbefore.trans htouch⟩
        · rintro (⟨hlo, hhi⟩ | ⟨hlo, hhi⟩)
          · exact ⟨hlo, hhi.trans (le_max_left _ _)⟩
          · exact ⟨(h.start last hmem).trans hlo, hhi.trans (le_max_right _ _)⟩
    · rename_i happart
      rw [not_le] at happart
      refine ⟨⟨⟨?_, ?_⟩, ?_⟩, fun x => ?_⟩
      · refine List.pairwise_append.mpr ⟨h.ordered.apart, List.pairwise_singleton .., fun q hq r' hr' => ?_⟩
        rw [List.mem_singleton.mp hr']
        rcases List.mem_append.mp hq with hold | hnew
        · exact (hgap q hold last (List.mem_singleton_self _)).trans_le ((h.ordered.nonempty last hmem).trans happart.le)
        · rw [List.mem_singleton.mp hnew]
          exact happart
      · intro q hq
        rcases List.mem_append.mp hq with hold | hnew
        · exact h.ordered.nonempty q hold
        · rw [List.mem_singleton.mp hnew]
          exact hr
      · intro q hq
        rcases List.mem_append.mp hq with hold | hnew
        · exact h.start q hold
        · rw [List.mem_singleton.mp hnew]
      · rw [covers_append, covers_singleton]

theorem foldl_join {L : List (α × α)} (hsorted : L.Pairwise fun a b => a.1 ≤ b.1) (hne : ∀ r ∈ L, r.1 ≤ r.2) {merged : List (α × α)}
    (h : ∀ r ∈ L.head?, Merging merged r.1) (hmerged : Ordered merged) :
    Ordered (L.foldl join merged) ∧ ∀ x, Covers (L.foldl join merged) x ↔ Covers merged x ∨ Covers L x := by
  induction L generalizing merged with
  | nil => exact ⟨hmerged, fun x => (or_iff_left (covers_nil x)).symm⟩
  | cons r rest ih =>
    rw [List.pairwise_cons] at hsorted
    rw [List.forall_mem_cons] at hne
    obtain ⟨hnext, hcovers⟩ := (h r rfl).join hne.1
    have hhead : ∀ q ∈ rest.head?, Merging (join merged r) q.1 := by
      intro q hq
      exact ⟨hnext.ordered, fun p hp => (hnext.start p hp).trans (hsorted.1 q (List.mem_of_mem_head? hq))⟩
    obtain ⟨hordered, hall⟩ := ih hsorted.2 hne.2 hhead hnext.ordered
    refine ⟨hordered, fun x => ?_⟩
    rw [List.foldl_cons, hall, hcovers, covers_cons, or_assoc]

/-- Merged intervals are in order and hold what the given ones hold. -/
theorem covers_merge {L : List (α × α)} (hne : ∀ r ∈ L, r.1 ≤ r.2) : Ordered (merge L) ∧ ∀ x, Covers (merge L) x ↔ Covers L x := by
  have hmem : ∀ r, r ∈ L.insertionSort (fun a b => toLex a ≤ toLex b) ↔ r ∈ L := fun r => List.mem_insertionSort _
  have hsorted : (L.insertionSort fun a b => toLex a ≤ toLex b).Pairwise fun a b => a.1 ≤ b.1 := by
    refine (List.pairwise_insertionSort (fun a b : α × α => toLex a ≤ toLex b) L).imp fun {a b} hab => ?_
    rcases Prod.Lex.le_iff.mp hab with hlt | ⟨heq, -⟩
    · exact hlt.le
    · exact heq.le
  have hstart : Ordered ([] : List (α × α)) := ⟨.nil, nofun⟩
  obtain ⟨hordered, hcovers⟩ := foldl_join hsorted (fun r hr => hne r ((hmem r).mp hr)) (fun r _ => ⟨hstart, nofun⟩) hstart
  refine ⟨hordered, fun x => (hcovers x).trans ?_⟩
  rw [or_iff_right (covers_nil x)]
  unfold Covers
  simp only [hmem]

/-! ## Looking a point up -/

/-- What is left behind those that start before a point starts behind it. -/
theorem lt_start_of_mem_dropWhile {L : List (α × α)} (h : Ordered L) {x : α} {r : α × α} (hr : r ∈ L.dropWhile fun r => r.1 ≤ x) : x < r.1 := by
  induction L with
  | nil => cases hr
  | cons q rest ih =>
    obtain ⟨hgap, hrest⟩ := List.pairwise_cons.mp h.apart
    have hne := List.forall_mem_cons.mp h.nonempty
    rw [List.dropWhile_cons] at hr
    split at hr
    · exact ih ⟨hrest, hne.2⟩ hr
    · rename_i hstart
      rw [decide_eq_true_iff, not_le] at hstart
      rcases List.mem_cons.mp hr with rfl | hin
      · exact hstart
      · exact hstart.trans_le (hne.1.trans (hgap r hin).le)

/-- The last interval that does not start behind a point holds it if any does. -/
theorem lookup_iff {L : List (α × α)} (h : Ordered L) (x : α) : lookup L x = true ↔ Covers L x := by
  have hsplit : (L.takeWhile fun r => r.1 ≤ x) ++ (L.dropWhile fun r => r.1 ≤ x) = L := List.takeWhile_append_dropWhile
  have hbehind : ∀ r ∈ L.dropWhile (fun r => r.1 ≤ x), x < r.1 := fun r hr => lt_start_of_mem_dropWhile h hr
  have hbefore : ∀ r ∈ L.takeWhile (fun r => r.1 ≤ x), r.1 ≤ x := by
    intro r hr
    simpa using List.mem_takeWhile_imp hr
  unfold lookup
  dsimp only
  generalize (L.takeWhile fun r => r.1 ≤ x) = before at *
  generalize (L.dropWhile fun r => r.1 ≤ x) = behind at *
  subst hsplit
  rcases List.eq_nil_or_concat' before with rfl | ⟨init, last, rfl⟩
  · refine iff_of_false (by simp) ?_
    rintro ⟨r, hr, hlo, -⟩
    exact absurd (hbehind r hr) (not_lt.mpr hlo)
  · have hlast : (init ++ [last] ++ behind)[(init ++ [last]).length - 1]? = some last := by
      rw [List.length_append, List.length_singleton, Nat.add_sub_cancel, List.append_assoc, List.getElem?_append_right le_rfl, Nat.sub_self]
      rfl
    have hpos : 0 < (init ++ [last]).length := by
      rw [List.length_append, List.length_singleton]
      exact Nat.succ_pos _
    rw [hlast, decide_eq_true hpos, Bool.true_and, Option.any_some, decide_eq_true_iff]
    have hmem : last ∈ init ++ [last] := List.mem_append_right _ (List.mem_singleton_self _)
    constructor
    · intro hle
      exact ⟨last, List.mem_append_left _ hmem, hbefore last hmem, hle⟩
    · rintro ⟨r, hr, hlo, hhi⟩
      rcases List.mem_append.mp hr with hin | hout
      · rcases List.mem_append.mp hin with hinit | hone
        · -- An earlier interval ends before the last one starts.
          have hapart := (List.pairwise_append.mp (List.pairwise_append.mp h.apart).1).2.2 r hinit last (List.mem_singleton_self _)
          exact absurd (hapart.trans_le (hbefore last hmem)) (not_lt.mpr hhi)
        · rw [← List.mem_singleton.mp hone]
          exact hhi
      · exact absurd (hbehind r hout) (not_lt.mpr hlo)

end Intervals

end Risuko
