import Mathlib.Algebra.BigOperators.Fin

/-!
# Vectors as lists

Two operations of growable arrays: overwriting a range (`overwrite`) and removing an element by putting the last one in its
place (`swapRemove`).
-/

namespace Risuko

variable {α : Type*}

/-- The list with the elements from position `pos` on replaced by `data`. -/
def overwrite (xs : List α) (pos : Nat) (data : List α) : List α := xs.take pos ++ data ++ xs.drop (pos + data.length)

/-- Remove an element and put the last one in its place. -/
def swapRemove (xs : List α) (i : Nat) : List α :=
  match xs.getLast? with
  | none => []
  | some last => (xs.set i last).dropLast

theorem length_overwrite {xs data : List α} {pos : Nat} (h : pos + data.length ≤ xs.length) :
    (overwrite xs pos data).length = xs.length := by
  simp only [overwrite, List.length_append, List.length_take, List.length_drop]
  omega

/-- An overwritten list holds the new data in the range and what it held before elsewhere. -/
theorem getElem?_overwrite {xs data : List α} {pos : Nat} (h : pos + data.length ≤ xs.length) (k : Nat) :
    (overwrite xs pos data)[k]? = if pos ≤ k ∧ k < pos + data.length then data[k - pos]? else xs[k]? := by
  have htake : (xs.take pos).length = pos := by rw [List.length_take]; omega
  unfold overwrite
  split
  · rename_i hk
    rw [List.getElem?_append_left (by rw [List.length_append, htake]; omega),
      List.getElem?_append_right (by omega), htake]
  · rename_i hk
    by_cases hlt : k < pos
    · rw [List.append_assoc, List.getElem?_append_left (by omega), List.getElem?_take_of_lt hlt]
    · rw [List.getElem?_append_right (by rw [List.length_append, htake]; omega), List.length_append, htake,
        List.getElem?_drop]
      congr 1
      omega

/-- A swap removal takes out one element. -/
theorem swapRemove_perm {xs : List α} {i : Nat} {x : α} (h : xs[i]? = some x) : xs.Perm (x :: swapRemove xs i) := by
  rcases List.eq_nil_or_concat xs with rfl | ⟨ys, last, rfl⟩
  · cases h
  rw [List.concat_eq_append] at h ⊢
  have hi : i < (ys ++ [last]).length := (List.getElem?_eq_some_iff.mp h).1
  rw [List.length_append, List.length_singleton] at hi
  unfold swapRemove
  rw [List.getLast?_concat]
  simp only
  by_cases hlt : i < ys.length
  · rw [List.getElem?_append_left hlt] at h
    obtain ⟨_, rfl⟩ := List.getElem?_eq_some_iff.mp h
    rw [List.set_append_left _ _ hlt, List.dropLast_concat]
    calc (ys ++ [last]).Perm (last :: ys) := List.perm_append_singleton last ys
      _ |>.Perm (last :: ys[i] :: ys.eraseIdx i) := (List.getElem_cons_eraseIdx_perm hlt).symm.cons last
      _ |>.Perm (ys[i] :: last :: ys.eraseIdx i) := List.Perm.swap ..
      _ |>.Perm (ys[i] :: ys.set i last) := (List.set_perm_cons_eraseIdx hlt last).symm.cons _
  · obtain rfl : i = ys.length := by omega
    rw [List.getElem?_concat_length] at h
    cases h
    rw [List.set_append_right _ _ (Nat.le_refl _)]
    simp only [Nat.sub_self, List.set_cons_zero, List.dropLast_concat]
    exact List.perm_append_singleton _ _

/-- An element taken out of a list by its position. -/
theorem cons_eraseIdx_perm {L : List α} {i : Nat} {x : α} (h : L[i]? = some x) : (x :: L.eraseIdx i).Perm L := by
  obtain ⟨hlt, rfl⟩ := List.getElem?_eq_some_iff.mp h
  exact List.getElem_cons_eraseIdx_perm hlt

/-- An element of a list with one more at its end. -/
theorem getElem?_append_singleton {L : List α} {x y : α} {i : Nat} (h : (L ++ [x])[i]? = some y) :
    L[i]? = some y ∨ (i = L.length ∧ y = x) := by
  rw [List.getElem?_append] at h
  split at h
  · exact .inl h
  rename_i hge
  rw [List.getElem?_singleton] at h
  split at h
  · cases h
    exact .inr ⟨by omega, rfl⟩
  · cases h

/-- Changing the element after the first ones. -/
theorem modify_append_cons (f : α → α) (done : List α) (x : α) (rest : List α) :
    (done ++ x :: rest).modify done.length f = done ++ f x :: rest := by
  induction done with
  | nil => rfl
  | cons y done ih => rw [List.cons_append, List.length_cons, List.modify_succ_cons, ih, List.cons_append]

/-- Changing an element by a function that keeps its image changes no image. -/
theorem map_modify_eq {β : Type*} {g : α → β} {f : α → α} (hg : ∀ x, g (f x) = g x) (i : Nat) (L : List α) :
    (L.modify i f).map g = L.map g := by
  apply List.ext_getElem?
  intro j
  simp only [List.getElem?_map, List.getElem?_modify]
  cases L[j]? with
  | none => rfl
  | some x =>
    by_cases hij : i = j
    · simp [hij, hg]
    · simp [hij]

end Risuko

/-!
## Sums that change at one place

Running totals are kept by adding and subtracting the share of the one element an operation touches. `sum_add_of_eq_off` is
the equation behind them, written without subtraction; `sum_map_set` and `sum_map_filter_add` are its versions for lists.
-/

namespace Risuko

open Finset

/-- Two functions that agree off one element have sums that differ by their values there. -/
theorem sum_add_of_eq_off {ι : Type*} [Fintype ι] [DecidableEq ι] {f g : ι → Nat} (i : ι) (h : ∀ j, j ≠ i → f j = g j) :
    (∑ j, f j) + g i = (∑ j, g j) + f i := by
  rw [← Finset.add_sum_erase univ f (mem_univ i), ← Finset.add_sum_erase univ g (mem_univ i)]
  have : ∑ j ∈ univ.erase i, f j = ∑ j ∈ univ.erase i, g j :=
    Finset.sum_congr rfl (fun j hj => h j (Finset.ne_of_mem_erase hj))
  omega

/-- Replacing one element of a list changes a sum by the two shares. -/
theorem sum_map_set {α : Type*} (f : α → Nat) {L : List α} {i : Nat} {x : α} (h : L[i]? = some x) (y : α) :
    ((L.set i y).map f).sum + f x = (L.map f).sum + f y := by
  induction L generalizing i with
  | nil => cases h
  | cons z L ih =>
    cases i with
    | zero =>
      obtain rfl : z = x := by simpa using h
      simp only [List.set_cons_zero, List.map_cons, List.sum_cons]
      omega
    | succ i =>
      have := ih (i := i) (by simpa using h)
      simp only [List.set_cons_succ, List.map_cons, List.sum_cons]
      omega

/-- A sum is the sum over the elements that pass a test plus the sum over those that do not. -/
theorem sum_map_filter_add {α : Type*} (f : α → Nat) (q : α → Bool) (L : List α) :
    ((L.filter q).map f).sum + ((L.filter (fun x => !q x)).map f).sum = (L.map f).sum := by
  induction L with
  | nil => rfl
  | cons x L ih =>
    cases hq : q x with
    | false =>
      simp only [List.filter_cons, hq, Bool.not_false, if_true, Bool.false_eq_true, if_false, List.map_cons, List.sum_cons]
      omega
    | true =>
      simp only [List.filter_cons, hq, Bool.not_true, if_true, Bool.false_eq_true, if_false, List.map_cons, List.sum_cons]
      omega

/-! ## A relation between every two elements -/

/-- Elements at different places are related. -/
def EachTwo {α : Type*} (R : α → α → Prop) (L : List α) : Prop := ∀ (i j : ℕ) (x y : α), i ≠ j → L[i]? = some x → L[j]? = some y → R x y

namespace EachTwo

variable {α : Type*} {R : α → α → Prop} {L : List α}

theorem nil : EachTwo R [] := by
  intro i j x y _ hx
  cases hx

/-- Put an element in its place that is related to the others. -/
theorem set (hsymm : ∀ x y, R x y → R y x) (h : EachTwo R L) {i : Nat} {z : α} (hz : ∀ j y, j ≠ i → L[j]? = some y → R z y) :
    EachTwo R (L.set i z) := by
  intro j k x y hne hx hy
  rw [List.getElem?_set] at hx hy
  split at hx
  · rename_i hij
    subst hij
    rw [if_neg hne] at hy
    obtain rfl : z = x := by
      split at hx
      · exact Option.some.inj hx
      · cases hx
    exact hz k y hne.symm hy
  · rename_i hij
    split at hy
    · rename_i hik
      subst hik
      obtain rfl : z = y := by
        split at hy
        · exact Option.some.inj hy
        · cases hy
      exact hsymm _ _ (hz j x hne hx)
    · exact h j k x y hne hx hy

/-- Put an element at the end that is related to the others. -/
theorem concat (hsymm : ∀ x y, R x y → R y x) (h : EachTwo R L) {z : α} (hz : ∀ y ∈ L, R z y) : EachTwo R (L ++ [z]) := by
  have hplace : ∀ k w, (L ++ [z])[k]? = some w → (k < L.length ∧ L[k]? = some w) ∨ (k = L.length ∧ w = z) := by
    intro k w hw
    rw [List.getElem?_append] at hw
    split at hw
    · exact .inl ⟨‹_›, hw⟩
    rw [List.getElem?_singleton] at hw
    split at hw
    · exact .inr ⟨by omega, (Option.some.inj hw).symm⟩
    · cases hw
  intro j k x y hne hx hy
  rcases hplace j x hx with ⟨-, hjx⟩ | ⟨hj, rfl⟩
  · rcases hplace k y hy with ⟨-, hky⟩ | ⟨-, rfl⟩
    · exact h j k x y hne hjx hky
    · exact hsymm _ _ (hz x (List.mem_of_getElem? hjx))
  · rcases hplace k y hy with ⟨-, hky⟩ | ⟨hk, -⟩
    · exact hz y (List.mem_of_getElem? hky)
    · exact absurd (hj.trans hk.symm) hne

end EachTwo

/-! ## The places of some of the elements -/

variable {α : Type*}

/-- The places of the elements with a property, counted from `n`. -/
def placesOf (p : α → Prop) [DecidablePred p] (n : ℕ) (L : List α) : List ℕ :=
  (L.zipIdx n).filterMap fun entry => if p entry.1 then some entry.2 else none

section Places

variable {p : α → Prop} [DecidablePred p] {n k i : ℕ} {L : List α}

theorem placesOf_cons (x : α) : placesOf p n (x :: L) = if p x then n :: placesOf p (n + 1) L else placesOf p (n + 1) L := by
  rw [placesOf, List.zipIdx_cons, List.filterMap_cons]
  by_cases hx : p x
  · rw [if_pos hx, if_pos hx]
    rfl
  · rw [if_neg hx, if_neg hx]
    rfl

/-- A place, and what is before it. -/
theorem split_of_placesOf (h : (placesOf p n L)[k]? = some i) :
    ∃ before x behind, L = before ++ x :: behind ∧ i = n + before.length ∧ p x ∧ (before.filter p).length = k := by
  induction L generalizing n k with
  | nil => nomatch h
  | cons y L ih =>
    rw [placesOf_cons] at h
    by_cases hy : p y
    · rw [if_pos hy] at h
      cases k with
      | zero =>
        cases h
        exact ⟨[], y, L, rfl, rfl, hy, rfl⟩
      | succ k =>
        obtain ⟨before, x, behind, rfl, rfl, hx, hk⟩ := ih h
        refine ⟨y :: before, x, behind, rfl, ?_, hx, ?_⟩
        · rw [List.length_cons]
          omega
        · rw [List.filter_cons, if_pos (decide_eq_true hy), List.length_cons, hk]
    · rw [if_neg hy] at h
      obtain ⟨before, x, behind, rfl, rfl, hx, hk⟩ := ih h
      refine ⟨y :: before, x, behind, rfl, ?_, hx, ?_⟩
      · rw [List.length_cons]
        omega
      · rw [List.filter_cons, if_neg (by rwa [decide_eq_true_eq]), hk]

theorem length_placesOf : (placesOf p n L).length = (L.filter p).length := by
  induction L generalizing n with
  | nil => rfl
  | cons y L ih =>
    rw [placesOf_cons, List.filter_cons]
    by_cases hy : p y
    · rw [if_pos hy, if_pos (decide_eq_true hy), List.length_cons, List.length_cons, ih]
    · rw [if_neg hy, if_neg (by rwa [decide_eq_true_eq]), ih]

/-- What is at the places. -/
theorem map_placesOf {β : Type*} (f : Option α → β) (before : List α) :
    (placesOf p before.length L).map (fun i => f (before ++ L)[i]?) = (L.filter p).map fun x => f (some x) := by
  induction L generalizing before with
  | nil => rfl
  | cons y L ih =>
    have hnext := ih (before ++ [y])
    rw [List.length_append, List.length_singleton, List.append_assoc, List.singleton_append] at hnext
    rw [placesOf_cons, List.filter_cons]
    by_cases hy : p y
    · rw [if_pos hy, if_pos (decide_eq_true hy), List.map_cons, List.map_cons, hnext, List.getElem?_append_right le_rfl, Nat.sub_self]
      rfl
    · rw [if_neg hy, if_neg (by rwa [decide_eq_true_eq]), hnext]

end Places

end Risuko
