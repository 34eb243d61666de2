import Mathlib.Tactic

/-!
# Gauss-Jordan elimination

A matrix `M` is inverted by row operations on `M` beside the identity. Whatever operations have been done, the left half is the right half times `M`, and
the left half sends no more vectors to zero than `M` does (`Follows`). When the left half has come to the identity the right half is the inverse; when no
pivot is left, `M` is singular.
-/

namespace Risuko

namespace GaussJordan

variable {K : Type*} [Field K] {n : ℕ}

/-- The two halves after some row operations. -/
structure Follows (M L R : Matrix (Fin n) (Fin n) K) : Prop where
  combines : L = R * M
  kernel : ∀ v, L.mulVec v = 0 → M.mulVec v = 0

variable {M L R : Matrix (Fin n) (Fin n) K}

theorem Follows.start (M : Matrix (Fin n) (Fin n) K) : Follows M M 1 := ⟨(Matrix.one_mul M).symm, fun _ h => h⟩

/-! ## Row operations -/

/-- Rows change places. -/
theorem Follows.permute (h : Follows M L R) (σ : Equiv.Perm (Fin n)) :
    Follows M (Matrix.of fun i j => L (σ i) j) (Matrix.of fun i j => R (σ i) j) where
  combines := by
    ext i j
    have hrow := congrFun (congrFun h.combines (σ i)) j
    exact hrow
  kernel := by
    intro v hv
    refine h.kernel v (funext fun i => ?_)
    have hrow := congrFun hv (σ.symm i)
    simpa [Matrix.mulVec, dotProduct] using hrow

/-- Each row is multiplied by some element that is not zero. -/
theorem Follows.scale (h : Follows M L R) {d : Fin n → K} (hd : ∀ i, d i ≠ 0) :
    Follows M (Matrix.of fun i j => d i * L i j) (Matrix.of fun i j => d i * R i j) where
  combines := by
    ext i j
    simp only [Matrix.of_apply, Matrix.mul_apply, h.combines, Finset.mul_sum, mul_assoc]
  kernel := by
    intro v hv
    refine h.kernel v (funext fun i => ?_)
    have hrow := congrFun hv i
    simp only [Matrix.mulVec, dotProduct, Matrix.of_apply, mul_assoc, ← Finset.mul_sum, Pi.zero_apply] at hrow
    exact (mul_eq_zero.mp hrow).resolve_left (hd i)

/-- Some multiple of the row `c` is added to each other row. -/
theorem Follows.eliminate (h : Follows M L R) {c : Fin n} {g : Fin n → K} (hg : g c = 0) :
    Follows M (Matrix.of fun i j => L i j + g i * L c j) (Matrix.of fun i j => R i j + g i * R c j) where
  combines := by
    ext i j
    simp only [Matrix.of_apply, Matrix.mul_apply, h.combines, Finset.mul_sum, add_mul, Finset.sum_add_distrib, mul_assoc]
  kernel := by
    intro v hv
    have hrows : ∀ i, L.mulVec v i + g i * L.mulVec v c = 0 := by
      intro i
      have hrow := congrFun hv i
      simp only [Matrix.mulVec, dotProduct, Matrix.of_apply, add_mul, mul_assoc, Finset.sum_add_distrib, ← Finset.mul_sum, Pi.zero_apply] at hrow
      exact hrow
    have hc : L.mulVec v c = 0 := by
      simpa [hg] using hrows c
    refine h.kernel v (funext fun i => ?_)
    simpa [hc] using hrows i

/-! ## Columns -/

/-- The first columns of the left half are those of the identity. -/
def UnitBelow (L : Matrix (Fin n) (Fin n) K) (t : ℕ) : Prop := ∀ i j : Fin n, (j : ℕ) < t → L i j = if i = j then 1 else 0

/-- When all columns are done, the right half is the inverse. -/
theorem Follows.inverse (h : Follows M L R) (hunit : UnitBelow L n) : R * M = 1 ∧ M * R = 1 := by
  have hone : L = 1 := by
    ext i j
    rw [hunit i j j.isLt, Matrix.one_apply]
  have hleft : R * M = 1 := h.combines.symm.trans hone
  exact ⟨hleft, mul_eq_one_comm.mp hleft⟩

/-- When a column has no pivot, the matrix is singular: this column is a combination of those before it. -/
theorem Follows.singular (h : Follows M L R) {t : Fin n} (hunit : UnitBelow L t) (hnone : ∀ i : Fin n, t ≤ i → L i t = 0) : ¬ IsUnit M := by
  intro hinvertible
  let v : Fin n → K := fun j => if j = t then 1 else if j < t then -L j t else 0
  have hv : v ≠ 0 := by
    intro hzero
    have ht := congrFun hzero t
    simp [v] at ht
  have hrow : ∀ i, L.mulVec v i = 0 := by
    intro i
    have hterm : ∀ j, L i j * v j = (if j = t then L i t else 0) + if j = i ∧ i < t then -L i t else 0 := by
      intro j
      by_cases hjt : j = t
      · subst hjt
        have hnot : ¬ (j = i ∧ i < j) := by
          rintro ⟨rfl, hlt⟩
          exact lt_irrefl _ hlt
        simp [v, hnot]
      · by_cases hlt : j < t
        · rw [hunit i j hlt]
          by_cases hij : i = j
          · subst hij
            simp [v, hjt, hlt]
          · have hji : ¬ j = i := fun heq => hij heq.symm
            simp [v, hjt, hij, hji]
        · have hnot : ¬ (j = i ∧ i < t) := by
            rintro ⟨rfl, hlt'⟩
            exact hlt hlt'
          simp [v, hjt, hlt, hnot]
    simp only [Matrix.mulVec, dotProduct, hterm, Finset.sum_add_distrib, Finset.sum_ite_eq', Finset.mem_univ, if_true]
    by_cases hi : i < t
    · simp [hi]
    · simp [hi, hnone i (not_lt.mp hi)]
  have hzero := h.kernel v (funext hrow)
  obtain ⟨N, hN⟩ := hinvertible.exists_left_inv
  refine hv ?_
  calc v = (N * M).mulVec v := by rw [hN, Matrix.one_mulVec]
    _ = N.mulVec (M.mulVec v) := (Matrix.mulVec_mulVec ..).symm
    _ = 0 := by rw [hzero, Matrix.mulVec_zero]

end GaussJordan

end Risuko
