import Mathlib.Tactic

/-!
# Runs laid end to end

Runs of given lengths follow each other from position zero on. A position within them is one number of one run (`exists_at`,
`At.unique`), and counting the runs that have started finds that run (`At.length_takeWhile`).
-/

namespace Risuko

namespace Runs

/-- Where each run starts, from a position on. -/
def starts : List ℕ → ℕ → List ℕ
  | [], _ => []
  | n :: rest, pos => pos :: starts rest (pos + n)

/-- Position `i` is number `j` of run `k`. -/
def At (runs : List ℕ) (i k j : ℕ) : Prop := ∃ n, runs[k]? = some n ∧ j < n ∧ (runs.take k).sum + j = i

theorem length_starts (runs : List ℕ) (pos : ℕ) : (starts runs pos).length = runs.length := by
  induction runs generalizing pos with
  | nil => rfl
  | cons n rest ih => rw [starts, List.length_cons, ih, List.length_cons]

theorem getElem?_starts {runs : List ℕ} {pos k : ℕ} (hk : k < runs.length) :
    (starts runs pos)[k]? = some (pos + (runs.take k).sum) := by
  induction runs generalizing pos k with
  | nil => exact absurd hk (Nat.not_lt_zero k)
  | cons n rest ih =>
    cases k with
    | zero => rfl
    | succ k =>
      rw [starts, List.getElem?_cons_succ, ih (Nat.lt_of_succ_lt_succ hk), List.take_succ_cons, List.sum_cons, Nat.add_assoc]

theorem mem_starts {runs : List ℕ} {pos s : ℕ} (h : s ∈ starts runs pos) : pos ≤ s := by
  induction runs generalizing pos with
  | nil => exact absurd h List.not_mem_nil
  | cons n rest ih =>
    rcases List.mem_cons.mp h with rfl | h
    · exact le_rfl
    · exact (Nat.le_add_right pos n).trans (ih h)

theorem at_zero {n i j : ℕ} {rest : List ℕ} : At (n :: rest) i 0 j ↔ j < n ∧ j = i := by
  simp [At]

theorem at_succ {n i k j : ℕ} {rest : List ℕ} : At (n :: rest) i (k + 1) j ↔ n ≤ i ∧ At rest (i - n) k j := by
  unfold At
  rw [List.getElem?_cons_succ, List.take_succ_cons, List.sum_cons]
  constructor
  · rintro ⟨m, hm, hj, hi⟩
    exact ⟨by omega, m, hm, hj, by omega⟩
  · rintro ⟨hn, m, hm, hj, hi⟩
    exact ⟨m, hm, hj, by omega⟩

theorem At.lt_sum {runs : List ℕ} {i k j : ℕ} (h : At runs i k j) : i < runs.sum := by
  induction runs generalizing i k with
  | nil =>
    obtain ⟨n, hn, -⟩ := h
    cases hn
  | cons n rest ih =>
    rw [List.sum_cons]
    cases k with
    | zero =>
      obtain ⟨hj, rfl⟩ := at_zero.mp h
      omega
    | succ k =>
      obtain ⟨hn, hrest⟩ := at_succ.mp h
      have hlt := ih hrest
      omega

theorem exists_at {runs : List ℕ} {i : ℕ} (h : i < runs.sum) : ∃ k j, At runs i k j := by
  induction runs generalizing i with
  | nil => exact absurd h (Nat.not_lt_zero i)
  | cons n rest ih =>
    rw [List.sum_cons] at h
    rcases Nat.lt_or_ge i n with hi | hi
    · exact ⟨0, i, at_zero.mpr ⟨hi, rfl⟩⟩
    · obtain ⟨k, j, hk⟩ := ih (i := i - n) (by omega)
      exact ⟨k + 1, j, at_succ.mpr ⟨hi, hk⟩⟩

theorem At.unique {runs : List ℕ} {i k j k' j' : ℕ} (h : At runs i k j) (h' : At runs i k' j') : k = k' ∧ j = j' := by
  induction runs generalizing i k k' with
  | nil =>
    obtain ⟨n, hn, -⟩ := h
    cases hn
  | cons n rest ih =>
    match k, k', h, h' with
    | 0, 0, h, h' => exact ⟨rfl, (at_zero.mp h).2.trans (at_zero.mp h').2.symm⟩
    | 0, k' + 1, h, h' =>
      obtain ⟨hj, rfl⟩ := at_zero.mp h
      exact absurd hj (Nat.not_lt.mpr (at_succ.mp h').1)
    | k + 1, 0, h, h' =>
      obtain ⟨hj, rfl⟩ := at_zero.mp h'
      exact absurd hj (Nat.not_lt.mpr (at_succ.mp h).1)
    | k + 1, k' + 1, h, h' =>
      obtain ⟨hk, hj⟩ := ih (at_succ.mp h).2 (at_succ.mp h').2
      exact ⟨congrArg (· + 1) hk, hj⟩

/-- The runs that have started at a position are those up to the run of the position. -/
theorem At.length_takeWhile {runs : List ℕ} {pos i k j : ℕ} (h : At runs i k j) :
    ((starts runs pos).takeWhile fun s => s ≤ pos + i).length = k + 1 := by
  induction runs generalizing pos i k with
  | nil =>
    obtain ⟨n, hn, -⟩ := h
    cases hn
  | cons n rest ih =>
    rw [starts, List.takeWhile_cons_of_pos (by simp), List.length_cons]
    cases k with
    | zero =>
      obtain ⟨hj, rfl⟩ := at_zero.mp h
      -- No later run has started.
      have hnone : ((starts rest (pos + n)).takeWhile fun s => decide (s ≤ pos + j)) = [] := by
        cases hl : starts rest (pos + n) with
        | nil => rfl
        | cons s later =>
          have hge := mem_starts (hl ▸ List.mem_cons_self : s ∈ starts rest (pos + n))
          exact List.takeWhile_cons_of_neg (by simp only [decide_eq_true_eq]; omega)
      rw [hnone, List.length_nil]
    | succ k =>
      obtain ⟨hn, hrest⟩ := at_succ.mp h
      have hlen : ((starts rest (pos + n)).takeWhile fun s => s ≤ pos + n + (i - n)).length = k + 1 := ih hrest
      rw [show pos + n + (i - n) = pos + i by omega] at hlen
      rw [hlen]

end Runs

end Risuko
