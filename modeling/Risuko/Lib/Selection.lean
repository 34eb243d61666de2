import Mathlib.Tactic

/-!
# Selecting and sorting

The `n` elements of least key, found as programs find them: an unstable selection puts them in front, the rest is cut off, and what is
left is sorted by an unstable sort. Where no two elements have the same key the result does not depend on what the two functions make
of their freedom.
The two parts behind it are about lists of cells that partition a space, and about a list that is kept in order and cut off.
-/

namespace Risuko

section

variable {α κ : Type*} [LinearOrder κ]

/-- A selection and a sort. Both permute the elements, the first so that no key before position `n` is above one from there on,
the second so that the keys are in order. -/
structure UnstableSort (key : α → κ) where
  selectNth : List α → Nat → List α
  selectNth_perm (l : List α) (n : Nat) : (selectNth l n).Perm l
  selectNth_le (l : List α) (n : Nat) {a b : α} : a ∈ (selectNth l n).take n → b ∈ (selectNth l n).drop n → key a ≤ key b
  sort : List α → List α
  sort_perm (l : List α) : (sort l).Perm l
  sort_pairwise (l : List α) : (sort l).Pairwise fun a b => key a ≤ key b

theorem pairwise_mergeSort_key (key : α → κ) (l : List α) :
    (l.mergeSort fun a b => key a ≤ key b).Pairwise fun a b => key a ≤ key b := by
  refine List.Pairwise.imp (fun h => of_decide_eq_true h) (List.pairwise_mergeSort ?_ ?_ l)
  · intro a b c hab hbc
    exact decide_eq_true ((of_decide_eq_true hab).trans (of_decide_eq_true hbc))
  · intro a b
    simpa using le_total (key a) (key b)

/-- A merge sort does for both. -/
def UnstableSort.merge (key : α → κ) : UnstableSort key where
  selectNth l _ := l.mergeSort fun a b => key a ≤ key b
  selectNth_perm l _ := List.mergeSort_perm l _
  selectNth_le l n {a b} ha hb := by
    have hp := pairwise_mergeSort_key key l
    rw [← List.take_append_drop n (l.mergeSort _), List.pairwise_append] at hp
    exact hp.2.2 a ha b hb
  sort l := l.mergeSort fun a b => key a ≤ key b
  sort_perm l := List.mergeSort_perm l _
  sort_pairwise := pairwise_mergeSort_key key

namespace UnstableSort

variable {key : α → κ}

/-- The `n` elements of least key, in order. -/
def least (std : UnstableSort key) (l : List α) (n : Nat) : List α :=
  std.sort (if n < l.length then (std.selectNth l n).take n else l)

theorem length_least (std : UnstableSort key) (l : List α) (n : Nat) : (std.least l n).length = min n l.length := by
  unfold least
  rw [(std.sort_perm _).length_eq]
  split
  · rw [List.length_take, (std.selectNth_perm l n).length_eq]
  · omega

/-- What is chosen and what is left. -/
theorem least_append_perm (std : UnstableSort key) (l : List α) (n : Nat) :
    ∃ others, (std.least l n ++ others).Perm l ∧ ∀ a ∈ std.least l n, ∀ b ∈ others, key a ≤ key b := by
  unfold least
  have hsort := std.sort_perm (if n < l.length then (std.selectNth l n).take n else l)
  split at hsort
  · rename_i h
    rw [if_pos h]
    refine ⟨(std.selectNth l n).drop n, ?_, fun a ha b hb => std.selectNth_le l n (hsort.mem_iff.mp ha) hb⟩
    refine (hsort.append_right _).trans ?_
    rw [List.take_append_drop]
    exact std.selectNth_perm l n
  · rename_i h
    rw [if_neg h]
    exact ⟨[], by rw [List.append_nil]; exact hsort, fun a _ b hb => absurd hb List.not_mem_nil⟩

theorem mem_of_mem_least {std : UnstableSort key} {l : List α} {n : Nat} {a : α} (h : a ∈ std.least l n) : a ∈ l := by
  obtain ⟨others, hperm, -⟩ := std.least_append_perm l n
  exact hperm.mem_iff.mp (List.mem_append_left _ h)

/-- Distinct keys come out in increasing order. -/
theorem pairwise_least (std : UnstableSort key) {l : List α} (hkey : (l.map key).Nodup) (n : Nat) :
    (std.least l n).Pairwise fun a b => key a < key b := by
  obtain ⟨others, hperm, -⟩ := std.least_append_perm l n
  have hnodup := (hperm.map key).nodup_iff.mpr hkey
  rw [List.map_append] at hnodup
  have hne : (std.least l n).Pairwise fun a b => key a ≠ key b := List.pairwise_map.mp (List.nodup_append.mp hnodup).1
  exact (std.sort_pairwise _).imp₂ (fun a b hle hne => lt_of_le_of_ne hle hne) hne

/-- An element that was not chosen has a key above all that were. -/
theorem least_lt (std : UnstableSort key) {l : List α} (hkey : (l.map key).Nodup) (n : Nat) {a : α} (ha : a ∈ l) :
    a ∈ std.least l n ∨ ∀ b ∈ std.least l n, key b < key a := by
  obtain ⟨others, hperm, hle⟩ := std.least_append_perm l n
  rcases List.mem_append.mp (hperm.mem_iff.mpr ha) with h | h
  · exact .inl h
  · refine .inr fun b hb => lt_of_le_of_ne (hle b hb a h) fun he => ?_
    have hnodup := (hperm.map key).nodup_iff.mpr hkey
    rw [List.map_append] at hnodup
    exact (List.nodup_append.mp hnodup).2.2 (key b) (List.mem_map_of_mem hb) (key a) (List.mem_map_of_mem h) he

end UnstableSort

end

/-!
## Partitions into cells

A list of cells partitions a space when every point lies in exactly one of them. A cell may be replaced by two that share its points
between them (`Partitions.split`); a point determines its cell (`Partitions.eq_of_mem`).
-/

section

variable {ρ X : Type*}

/-- Every point lies in exactly one of the cells. -/
def Partitions (mem : ρ → X → Bool) (cells : List ρ) : Prop := ∀ x, cells.countP (fun c => mem c x) = 1

theorem partitions_singleton {mem : ρ → X → Bool} {c : ρ} (h : ∀ x, mem c x = true) : Partitions mem [c] := by
  intro x
  simp [h x]

/-- Two cells that share the points of a third stand in for it. -/
theorem Partitions.split {mem : ρ → X → Bool} {done rest : List ρ} {c p q : ρ} (h : Partitions mem (done ++ c :: rest))
    (hs : ∀ x, (mem p x).toNat + (mem q x).toNat = (mem c x).toNat) : Partitions mem (done ++ p :: q :: rest) := by
  intro x
  have hc := h x
  have hx := hs x
  simp only [List.countP_append, List.countP_cons] at hc ⊢
  cases hp : mem p x <;> cases hq : mem q x <;> cases hm : mem c x <;> simp [hp, hq, hm] at hx hc ⊢ <;> omega

/-- A point determines its cell. -/
theorem Partitions.eq_of_mem {mem : ρ → X → Bool} {done rest : List ρ} {c d : ρ} {x : X} (h : Partitions mem (done ++ c :: rest))
    (hc : mem c x = true) (hd : d ∈ done ++ c :: rest) (hx : mem d x = true) : d = c := by
  have hone := h x
  rw [List.countP_append, List.countP_cons, if_pos hc] at hone
  have hdone : done.countP (fun c => mem c x) = 0 := by omega
  have hrest : rest.countP (fun c => mem c x) = 0 := by omega
  rcases List.mem_append.mp hd with hd | hd
  · exact absurd hx (List.countP_eq_zero.mp hdone d hd)
  · rcases List.mem_cons.mp hd with rfl | hd
    · rfl
    · exact absurd hx (List.countP_eq_zero.mp hrest d hd)

/-- Every point has a cell. -/
theorem Partitions.exists_mem {mem : ρ → X → Bool} {cells : List ρ} (h : Partitions mem cells) (x : X) :
    ∃ c ∈ cells, mem c x = true := by
  have hone := h x
  exact List.countP_pos_iff.mp (by omega)

/-- Cells with the same points, one for one, partition the space alike. -/
theorem Partitions.congr {mem : ρ → X → Bool} {cells cells' : List ρ} (h : Partitions mem cells)
    (hc : List.Forall₂ (fun c c' => mem c' = mem c) cells cells') : Partitions mem cells' := by
  intro x
  rw [← h x]
  clear h
  induction hc with
  | nil => rfl
  | cons hm _ ih => rw [List.countP_cons, List.countP_cons, ih, hm]

end

/-!
## A list that is kept in order and cut off

Elements come one by one; the list is sorted after each, and cut off where it grows too long. What it holds are the least of all that have come
(`Capped.insert`), so the first few of those with a property are the first few of all with it, as long as not too many are without
(`Capped.mem_take`).
-/

section

variable {α κ : Type*} [Ord κ] {key : α → κ}

/-- What is kept of `all`: in order, and whatever is not there is beyond all that is, and then there is no room. -/
structure Capped (key : α → κ) (cap : ℕ) (kept all : List α) : Prop where
  sorted : kept.Pairwise fun a b => compare (key a) (key b) = .lt
  subset : kept ⊆ all
  dropped : ∀ a ∈ all, a ∈ kept ∨ kept.length = cap ∧ ∀ b ∈ kept, compare (key b) (key a) = .lt

section Sorting

variable [Std.TransOrd κ] [Std.LawfulEqOrd κ]

/-- Distinct keys are in increasing order after a sort. -/
theorem pairwise_mergeSort_compare {l : List α} (hkeys : l.Pairwise fun a b => key a ≠ key b) :
    (l.mergeSort fun a b => (compare (key a) (key b)).isLE).Pairwise fun a b => compare (key a) (key b) = .lt := by
  have hsorted : (l.mergeSort fun a b => (compare (key a) (key b)).isLE).Pairwise fun a b => (compare (key a) (key b)).isLE = true := by
    refine List.pairwise_mergeSort (fun a b c hab hbc => ?_) (fun a b => ?_) l
    · exact Std.TransCmp.isLE_trans hab hbc
    · have hswap : compare (key b) (key a) = (compare (key a) (key b)).swap := Std.OrientedCmp.eq_swap
      rw [hswap]
      cases compare (key a) (key b) <;> rfl
  have hdistinct := (List.mergeSort_perm l fun a b => (compare (key a) (key b)).isLE).symm.pairwise hkeys fun h => h.symm
  refine hsorted.imp₂ (fun a b hle hne => ?_) hdistinct
  cases hcompare : compare (key a) (key b) with
  | lt => rfl
  | eq => exact absurd (Std.LawfulEqOrd.eq_of_compare hcompare) hne
  | gt =>
    rw [hcompare] at hle
    cases hle

end Sorting

namespace Capped

variable {cap : ℕ} {kept all : List α}

theorem nil : Capped key cap [] ([] : List α) := ⟨.nil, fun _ h => h, nofun⟩

theorem key_ne_of_lt [Std.TransOrd κ] {a b : α} (hlt : compare (key a) (key b) = .lt) : key a ≠ key b := by
  intro heq
  have hself : compare (key b) (key b) = .eq := Std.ReflCmp.compare_self
  rw [heq, hself] at hlt
  cases hlt

theorem nodup [Std.TransOrd κ] (h : Capped key cap kept all) : kept.Nodup := h.sorted.imp fun hlt heq => key_ne_of_lt hlt (congrArg key heq)

/-- A new element. -/
theorem insert [Std.TransOrd κ] [Std.LawfulEqOrd κ] (h : Capped key cap kept all) {a : α} (hnew : ∀ b ∈ all, key b ≠ key a) :
    Capped key cap (((kept ++ [a]).mergeSort fun a b => (compare (key a) (key b)).isLE).take cap) (a :: all) := by
  have hperm := List.mergeSort_perm (kept ++ [a]) fun a b => (compare (key a) (key b)).isLE
  have hkeys : (kept ++ [a]).Pairwise fun a b => key a ≠ key b := by
    rw [List.pairwise_append]
    refine ⟨h.sorted.imp key_ne_of_lt, List.pairwise_singleton _ _, fun b hb a' ha' => ?_⟩
    rw [List.mem_singleton.mp ha']
    exact hnew b (h.subset hb)
  have hsorted := pairwise_mergeSort_compare hkeys
  generalize ((kept ++ [a]).mergeSort fun a b => (compare (key a) (key b)).isLE) = sorted at hperm hsorted
  have hsplit := hsorted
  rw [← List.take_append_drop cap sorted, List.pairwise_append] at hsplit
  have hlength : sorted.length = kept.length + 1 := by rw [hperm.length_eq, List.length_append, List.length_singleton]
  have hall : ∀ b ∈ sorted, b ∈ a :: all := by
    intro b hb
    obtain hkept | hone := List.mem_append.mp (hperm.mem_iff.mp hb)
    · exact List.mem_cons_of_mem a (h.subset hkept)
    · rw [List.mem_singleton.mp hone]
      exact List.mem_cons_self
  -- What is in the sorted list is kept, or behind the cut.
  have hin : ∀ b ∈ sorted, b ∈ sorted.take cap ∨ (sorted.take cap).length = cap ∧ ∀ c ∈ sorted.take cap, compare (key c) (key b) = .lt := by
    intro b hb
    rw [← List.take_append_drop cap sorted] at hb
    obtain htaken | hleft := List.mem_append.mp hb
    · exact .inl htaken
    · have hpos := List.length_pos_of_mem hleft
      rw [List.length_drop] at hpos
      exact .inr ⟨by rw [List.length_take]; omega, fun c hc => hsplit.2.2 c hc b hleft⟩
  refine ⟨hsplit.1, fun b hb => hall b (List.mem_of_mem_take hb), List.forall_mem_cons.mpr ⟨?_, fun b hb => ?_⟩⟩
  · exact hin a (hperm.mem_iff.mpr (List.mem_append_right _ List.mem_cons_self))
  · obtain hkept | ⟨hfull, hbeyond⟩ := h.dropped b hb
    · exact hin b (hperm.mem_iff.mpr (List.mem_append_left _ hkept))
    · -- The list was full, so one is cut off again. When the new one is kept, that is one of the old, and farther than the new one.
      refine .inr ⟨by rw [List.length_take]; omega, fun c hc => ?_⟩
      obtain hold | hone := List.mem_append.mp (hperm.mem_iff.mp (List.mem_of_mem_take hc))
      · exact hbeyond c hold
      have hdrop : 0 < (sorted.drop cap).length := by
        rw [List.length_drop]
        omega
      obtain ⟨last, hlast⟩ := List.exists_mem_of_length_pos hdrop
      have hlt := hsplit.2.2 c hc last hlast
      obtain hold | hone' := List.mem_append.mp (hperm.mem_iff.mp (List.mem_of_mem_drop hlast))
      · exact Std.TransCmp.lt_trans hlt (hbeyond last hold)
      · rw [List.mem_singleton.mp hone, List.mem_singleton.mp hone'] at hlt
        exact absurd rfl (key_ne_of_lt hlt)

/-- Among those of the kept that have a property, the first few are the first few of all that have it. -/
theorem mem_take [Std.TransOrd κ] (h : Capped key cap kept all) {p : α → Bool} {k : ℕ} (hfew : (kept.filter fun a => !p a).length + k ≤ cap)
    {a : α} (ha : a ∈ all)
    (hp : p a = true) (hnear : (all.filter fun b => p b && compare (key b) (key a) == .lt).length < k) : a ∈ (kept.filter p).take k := by
  have hcount : ∀ l : List α, l.Nodup → (∀ b ∈ l, b ∈ kept ∧ p b = true ∧ compare (key b) (key a) = .lt) → l.length < k := by
    intro l hnodup hl
    refine lt_of_le_of_lt (hnodup.subperm fun b hb => ?_).length_le hnear
    obtain ⟨hkept, hpb, hlt⟩ := hl b hb
    exact List.mem_filter.mpr ⟨h.subset hkept, by rw [hpb, hlt]; rfl⟩
  have hkept : a ∈ kept := by
    refine (h.dropped a ha).resolve_right fun ⟨hfull, hbeyond⟩ => ?_
    have hlt := hcount (kept.filter p) (h.nodup.filter _) fun b hb =>
      ⟨List.mem_of_mem_filter hb, (List.mem_filter.mp hb).2, hbeyond b (List.mem_of_mem_filter hb)⟩
    have hsum := List.length_eq_length_filter_add (l := kept) p
    omega
  have hmem : a ∈ kept.filter p := List.mem_filter.mpr ⟨hkept, hp⟩
  obtain ⟨before, after, hsplit⟩ := List.append_of_mem hmem
  have hsorted := h.sorted.filter p
  have hnodup := h.nodup.filter p
  have hbefore : before.length < k := by
    rw [hsplit] at hsorted hnodup
    refine hcount before (List.nodup_append.mp hnodup).1 fun b hb => ?_
    have hin : b ∈ kept.filter p := by
      rw [hsplit]
      exact List.mem_append_left _ hb
    exact ⟨List.mem_of_mem_filter hin, (List.mem_filter.mp hin).2, (List.pairwise_append.mp hsorted).2.2 b hb a List.mem_cons_self⟩
  rw [hsplit, List.take_append, show k - before.length = (k - before.length - 1) + 1 by omega, List.take_succ_cons]
  exact List.mem_append_right _ List.mem_cons_self

end Capped

end

end Risuko
