import Mathlib.Tactic

/-!
# Ranges of numbers

A set of numbers as a list of half-open ranges that are sorted, disjoint and not adjacent (`Normal`). Its size is the total length of the
ranges (`total_eq_card`), an interval is covered by one of them if it is covered at all (`exists_covering_iff`), and `insert` adds an
interval by joining what touches it.
-/

namespace Risuko

namespace Ranges

/-- The numbers in the ranges. -/
def points : List (ℕ × ℕ) → Finset ℕ
  | [] => ∅
  | r :: L => Finset.Ico r.1 r.2 ∪ points L

@[simp] theorem points_nil : points [] = ∅ := rfl

@[simp] theorem points_cons (r : ℕ × ℕ) (L : List (ℕ × ℕ)) : points (r :: L) = Finset.Ico r.1 r.2 ∪ points L := rfl

theorem mem_points {L : List (ℕ × ℕ)} {x : ℕ} : x ∈ points L ↔ ∃ r ∈ L, r.1 ≤ x ∧ x < r.2 := by
  induction L with
  | nil => simp
  | cons r L ih => simp [ih]

theorem points_append (L L' : List (ℕ × ℕ)) : points (L ++ L') = points L ∪ points L' := by
  induction L with
  | nil => simp
  | cons r L ih => rw [List.cons_append, points_cons, ih, points_cons, Finset.union_assoc]

/-- The length of all ranges together. -/
def total (L : List (ℕ × ℕ)) : ℕ := (L.map fun r => r.2 - r.1).sum

@[simp] theorem total_cons (r : ℕ × ℕ) (L : List (ℕ × ℕ)) : total (r :: L) = r.2 - r.1 + total L := rfl

/-- Sorted, with a gap after each range, and none is empty. -/
structure Normal (L : List (ℕ × ℕ)) : Prop where
  apart : L.Pairwise fun r q => r.2 < q.1
  nonempty : ∀ r ∈ L, r.1 < r.2

theorem Normal.nil : Normal [] := ⟨.nil, nofun⟩

theorem Normal.singleton {s e : ℕ} (h : s < e) : Normal [(s, e)] := ⟨List.pairwise_singleton .., by simpa using h⟩

theorem normal_cons {r : ℕ × ℕ} {L : List (ℕ × ℕ)} : Normal (r :: L) ↔ r.1 < r.2 ∧ (∀ q ∈ L, r.2 < q.1) ∧ Normal L := by
  constructor
  · rintro ⟨hapart, hne⟩
    obtain ⟨hfirst, hrest⟩ := List.pairwise_cons.mp hapart
    exact ⟨hne r List.mem_cons_self, hfirst, hrest, fun q hq => hne q (List.mem_cons_of_mem _ hq)⟩
  · rintro ⟨hlt, hfirst, hrest⟩
    exact ⟨List.pairwise_cons.mpr ⟨hfirst, hrest.apart⟩, List.forall_mem_cons.mpr ⟨hlt, hrest.nonempty⟩⟩

/-- The numbers of the later ranges are above the first one. -/
theorem disjoint_first {r : ℕ × ℕ} {L : List (ℕ × ℕ)} (h : Normal (r :: L)) : Disjoint (Finset.Ico r.1 r.2) (points L) := by
  rw [Finset.disjoint_left]
  intro x hx hrest
  obtain ⟨q, hq, hle, -⟩ := mem_points.mp hrest
  have hgap := (normal_cons.mp h).2.1 q hq
  rw [Finset.mem_Ico] at hx
  omega

theorem total_eq_card {L : List (ℕ × ℕ)} (h : Normal L) : total L = (points L).card := by
  induction L with
  | nil => rfl
  | cons r L ih =>
    rw [total_cons, points_cons, Finset.card_union_of_disjoint (disjoint_first h), Nat.card_Ico, ih (normal_cons.mp h).2.2]

/-- What the ranges share with an interval. -/
theorem sum_overlap {L : List (ℕ × ℕ)} (h : Normal L) (s e : ℕ) :
    (L.map fun r => min r.2 e - max r.1 s).sum = (points L ∩ Finset.Ico s e).card := by
  induction L with
  | nil => rfl
  | cons r L ih =>
    have hdisj : Disjoint (Finset.Ico r.1 r.2 ∩ Finset.Ico s e) (points L ∩ Finset.Ico s e) :=
      (disjoint_first h).mono Finset.inter_subset_left Finset.inter_subset_left
    rw [List.map_cons, List.sum_cons, ih (normal_cons.mp h).2.2, points_cons, Finset.union_inter_distrib_right,
      Finset.card_union_of_disjoint hdisj, Finset.Ico_inter_Ico, Nat.card_Ico]

/-- An interval whose numbers are all in the ranges lies in one of them. -/
theorem exists_covering_iff {L : List (ℕ × ℕ)} (h : Normal L) {s e : ℕ} (hlt : s < e) :
    (∃ r ∈ L, r.1 ≤ s ∧ e ≤ r.2) ↔ Finset.Ico s e ⊆ points L := by
  constructor
  · rintro ⟨r, hr, hs, he⟩ x hx
    rw [Finset.mem_Ico] at hx
    exact mem_points.mpr ⟨r, hr, by omega, by omega⟩
  · intro hsub
    induction L with
    | nil => exact absurd (hsub (Finset.left_mem_Ico.mpr hlt)) (Finset.notMem_empty _)
    | cons r L ih =>
      obtain ⟨hr, hgap, hrest⟩ := normal_cons.mp h
      have hlater : ∀ x ∈ points L, r.2 < x := by
        intro x hx
        obtain ⟨q, hq, hle, -⟩ := mem_points.mp hx
        exact (hgap q hq).trans_le hle
      have hfirst : ∀ x, s ≤ x → x < e → (r.1 ≤ x ∧ x < r.2) ∨ x ∈ points L := by
        intro x hs he
        simpa using hsub (Finset.mem_Ico.mpr ⟨hs, he⟩)
      rcases Nat.lt_or_ge s r.2 with hin | hout
      · refine ⟨r, List.mem_cons_self, ?_, Nat.le_of_not_lt fun hshort => ?_⟩
        · exact (hfirst s le_rfl hlt).elim And.left fun hs => absurd (hlater s hs) (by omega)
        · -- The end of the first range is a number of the interval that no range holds.
          exact (hfirst r.2 hin.le hshort).elim (fun hs => absurd hs.2 (Nat.lt_irrefl _)) fun hs => Nat.lt_irrefl _ (hlater r.2 hs)
      · obtain ⟨q, hq, hcover⟩ := ih hrest fun x hx => by
          obtain ⟨hs, he⟩ := Finset.mem_Ico.mp hx
          exact (hfirst x hs he).resolve_left (by omega)
        exact ⟨q, List.mem_cons_of_mem _ hq, hcover⟩

/-! ## Adding an interval -/

/-- Add an interval, joined with all that it overlaps or touches. -/
def insert (s e : ℕ) : List (ℕ × ℕ) → List (ℕ × ℕ)
  | [] => [(s, e)]
  | r :: L =>
    if r.2 < s then r :: insert s e L
    else if e < r.1 then (s, e) :: r :: L
    else insert (min s r.1) (max e r.2) L

/-- What is below the interval and all ranges stays below. -/
theorem lt_of_mem_insert {s e lb : ℕ} {L : List (ℕ × ℕ)} (hs : lb < s) (hL : ∀ r ∈ L, lb < r.1) : ∀ r ∈ insert s e L, lb < r.1 := by
  induction L generalizing s e with
  | nil => simpa [insert] using hs
  | cons r L ih =>
    obtain ⟨hr, hrest⟩ := List.forall_mem_cons.mp hL
    rw [insert]
    split
    · exact List.forall_mem_cons.mpr ⟨hr, ih hs hrest⟩
    split
    · exact List.forall_mem_cons.mpr ⟨hs, hL⟩
    · exact ih (lt_min hs hr) hrest

theorem Normal.insert {s e : ℕ} {L : List (ℕ × ℕ)} (h : Normal L) (hlt : s < e) : Normal (insert s e L) := by
  induction L generalizing s e with
  | nil => exact .singleton hlt
  | cons r L ih =>
    obtain ⟨hr, hgap, hrest⟩ := normal_cons.mp h
    rw [Ranges.insert]
    split
    · rename_i hbefore
      exact normal_cons.mpr ⟨hr, lt_of_mem_insert hbefore hgap, ih hrest hlt⟩
    · split
      · rename_i hafter
        have hall : ∀ q ∈ r :: L, e < q.1 := by
          refine List.forall_mem_cons.mpr ⟨hafter, fun q hq => ?_⟩
          have hq' := hgap q hq
          omega
        exact normal_cons.mpr ⟨hlt, hall, h⟩
      · exact ih hrest (by omega)

theorem points_insert {s e : ℕ} {L : List (ℕ × ℕ)} (h : ∀ r ∈ L, r.1 < r.2) (hlt : s < e) :
    points (insert s e L) = Finset.Ico s e ∪ points L := by
  induction L generalizing s e with
  | nil => simp [insert]
  | cons r L ih =>
    obtain ⟨hr, hrest⟩ := List.forall_mem_cons.mp h
    rw [insert]
    split
    · rw [points_cons, ih hrest hlt, points_cons, Finset.union_left_comm]
    · split
      · rfl
      · rw [ih hrest (by omega), points_cons, ← Finset.union_assoc]
        congr 1
        ext x
        simp only [Finset.mem_Ico, Finset.mem_union]
        omega

/-- The numbers that are new are those of the interval that the ranges do not share. -/
theorem total_insert {s e : ℕ} {L : List (ℕ × ℕ)} (h : Normal L) (hlt : s < e) :
    total (insert s e L) = total L + ((e - s) - (L.map fun r => min r.2 e - max r.1 s).sum) := by
  rw [total_eq_card (h.insert hlt), total_eq_card h, points_insert h.nonempty hlt, sum_overlap h, Finset.inter_comm, ← Nat.card_Ico s e]
  have hcard := Finset.card_union_add_card_inter (Finset.Ico s e) (points L)
  have hle := Finset.card_le_card (Finset.inter_subset_left : Finset.Ico s e ∩ points L ⊆ Finset.Ico s e)
  omega

end Ranges

end Risuko
