import Mathlib.Data.BitVec
import Risuko.Lib.GaussJordan
import Risuko.Usenet.Packets

/-!
# The loops of the matrix inversion

What each loop over the entries of a row makes of the matrix, and the elimination of a column as row operations on its two halves.
-/

namespace Risuko

namespace Usenet

/-- That `rust_par2`'s multiplication and inverse make a field of the words, with exclusive or as addition: the words are read as elements of it. -/
structure GfField (mul : UInt16 → UInt16 → UInt16) (inv : UInt16 → UInt16) (K : Type*) [Field K] where
  val : UInt16 ≃ K
  val_one : val 1 = 1
  val_xor : ∀ a b, val (a ^^^ b) = val a + val b
  val_mul : ∀ a b, val (mul a b) = val a * val b
  val_inv : ∀ a, a ≠ 0 → val (inv a) = (val a)⁻¹

variable {mul : UInt16 → UInt16 → UInt16} {inv : UInt16 → UInt16} {K : Type*} [Field K] (g : GfField mul inv K)

namespace GfField

theorem val_zero : g.val 0 = 0 := by
  have hself := g.val_xor 0 0
  rw [UInt16.xor_self] at hself
  exact left_eq_add.mp hself

theorem val_eq_zero {a : UInt16} : g.val a = 0 ↔ a = 0 := by
  rw [← g.val_zero, g.val.apply_eq_iff_eq]

/-- Every element is its own opposite. -/
theorem add_self (g : GfField mul inv K) (x : K) : x + x = 0 := by
  obtain ⟨a, rfl⟩ := g.val.surjective x
  rw [← g.val_xor, UInt16.xor_self, g.val_zero]

end GfField

namespace GfMatrix

variable {a : GfMatrix} {i j n : ℕ}

theorem get_set (row column : ℕ) (value : UInt16) : (a.set row column value).get i j = if i = row ∧ j = column then value else a.get i j := rfl

/-! ## Loops over the entries of a row -/

theorem get_normalise (column width : ℕ) (x : UInt16) :
    (normalise mul a column width x).get i j = if i = column ∧ j < width then mul (a.get column j) x else a.get i j := by
  unfold normalise
  induction width generalizing i j with
  | zero => simp
  | succ width ih =>
    rw [List.range_succ, List.foldl_append, List.foldl_cons, List.foldl_nil, get_set, ih, ih]
    by_cases hi : i = column
    · subst hi
      rcases lt_trichotomy j width with hj | hj | hj
      · simp [hj, hj.ne, Nat.lt_succ_of_lt hj]
      · simp [hj]
      · have hlarge : ¬ j < width + 1 := by
          omega
        simp [hj.ne', hlarge, not_lt.mpr hj.le]
    · simp [hi]

theorem get_addRow {column row : ℕ} (hne : row ≠ column) (width : ℕ) (factor : UInt16) :
    (addRow mul a column row width factor).get i j =
      if i = row ∧ j < width then a.get row j ^^^ mul factor (a.get column j) else a.get i j := by
  unfold addRow
  induction width generalizing i j with
  | zero => simp
  | succ width ih =>
    rw [List.range_succ, List.foldl_append, List.foldl_cons, List.foldl_nil, get_set, ih, ih, ih]
    by_cases hi : i = row
    · subst hi
      rcases lt_trichotomy j width with hj | hj | hj
      · simp [hj, hj.ne, Nat.lt_succ_of_lt hj]
      · subst hj
        simp [hne.symm]
      · have hlarge : ¬ j < width + 1 := by
          omega
        simp [hj.ne', hlarge, not_lt.mpr hj.le]
    · simp [hi]

theorem get_swapRows {column pivot : ℕ} (hne : pivot ≠ column) (width : ℕ) :
    (swapRows a column pivot width).get i j = if j < width then a.get (Equiv.swap column pivot i) j else a.get i j := by
  unfold swapRows
  induction width generalizing i j with
  | zero => simp
  | succ width ih =>
    rw [List.range_succ, List.foldl_append, List.foldl_cons, List.foldl_nil]
    simp only [get_set, ih, lt_irrefl, if_false]
    rcases lt_trichotomy j width with hj | hj | hj
    · simp [hj, hj.ne, Nat.lt_succ_of_lt hj]
    · subst hj
      by_cases hp : i = pivot
      · subst hp
        simp
      · by_cases hc : i = column
        · subst hc
          simp [hp]
        · simp [hp, hc, Equiv.swap_apply_of_ne_of_ne hc hp]
    · have hlarge : ¬ j < width + 1 := by
        omega
      simp [hj.ne', hlarge, not_lt.mpr hj.le]

/-- The other rows are made zero in the column, one after the other. -/
theorem val_get_eliminate (column size : ℕ) :
    g.val ((eliminate mul a column size).get i j) =
      g.val (a.get i j) + if i < size ∧ i ≠ column ∧ j < size * 2 then g.val (a.get i column) * g.val (a.get column j) else 0 := by
  unfold eliminate
  suffices hrows : ∀ k i j, g.val (((List.range k).foldl (fun a row =>
      if row = column then a else let factor := a.get row column; if factor = 0 then a else addRow mul a column row (size * 2) factor) a).get i j) =
      g.val (a.get i j) + if i < k ∧ i ≠ column ∧ j < size * 2 then g.val (a.get i column) * g.val (a.get column j) else 0 from hrows size i j
  intro k
  induction k with
  | zero => simp
  | succ k ih =>
    intro i j
    rw [List.range_succ, List.foldl_append, List.foldl_cons, List.foldl_nil]
    generalize (List.range k).foldl _ a = done at ih
    have hrow : g.val (done.get k column) = g.val (a.get k column) := by
      simp [ih]
    have hpivot : ∀ j, g.val (done.get column j) = g.val (a.get column j) := by
      intro j
      simp [ih]
    have hother : i ≠ k → (i < k + 1 ↔ i < k) := fun hi => by omega
    split
    · rename_i hk
      subst hk
      rw [ih]
      by_cases hi : i = k
      · simp [hi]
      · simp [hother hi]
    · rename_i hk
      dsimp only
      split
      · rename_i hzero
        have hzero' : g.val (a.get k column) = 0 := by
          rw [← hrow, hzero, g.val_zero]
        rw [ih]
        by_cases hi : i = k
        · simp [hi, hzero']
        · simp [hother hi]
      · rw [get_addRow hk]
        by_cases hi : i = k
        · subst hi
          by_cases hj : j < size * 2
          · rw [if_pos ⟨rfl, hj⟩, g.val_xor, g.val_mul, hrow, hpivot, ih]
            simp [hk, hj]
          · rw [if_neg (fun h => hj h.2), ih]
            simp [hj]
        · rw [if_neg (fun h => hi h.1), ih]
          simp [hother hi]

/-! ## Columns -/

open GaussJordan

/-- The matrix as one over the field. -/
def toMatrix (n : ℕ) (a : GfMatrix) : Matrix (Fin n) (Fin n) K := Matrix.of fun i j => g.val (a.get i j)

/-- What stands beside it. -/
def beside (n : ℕ) (a : GfMatrix) : Matrix (Fin n) (Fin n) K := Matrix.of fun i j => g.val (a.get i (n + j))

variable {M : Matrix (Fin n) (Fin n) K}

/-- The halves while the first columns are done. -/
structure Reduced (M : Matrix (Fin n) (Fin n) K) (t : ℕ) (a : GfMatrix) : Prop where
  follows : Follows M (toMatrix g n a) (beside g n a)
  unit : UnitBelow (toMatrix g n a) t

variable {g}

theorem findPivot_none {column : ℕ} (h : findPivot a column n = none) : ∀ i, column ≤ i → i < n → a.get i column = 0 := by
  intro i hlo hhi
  have hall := List.find?_eq_none.mp h i (List.mem_range'_1.mpr ⟨hlo, by omega⟩)
  simpa using hall

theorem findPivot_some {column pivot : ℕ} (h : findPivot a column n = some pivot) : column ≤ pivot ∧ pivot < n ∧ a.get pivot column ≠ 0 := by
  have hmem := List.mem_range'_1.mp (List.mem_of_find?_eq_some h)
  have hne := List.find?_some h
  exact ⟨hmem.1, by omega, by simpa using hne⟩

theorem Reduced.swap {t pivot : ℕ} (h : Reduced g M t a) (hlo : t ≤ pivot) (hlt : pivot < n) :
    Reduced g M t (if pivot ≠ t then swapRows a t pivot (n * 2) else a) := by
  by_cases hne : pivot ≠ t
  · rw [if_pos hne]
    have htn : t < n := hlo.trans_lt hlt
    have hσ : ∀ i : Fin n, ((Equiv.swap (⟨t, htn⟩ : Fin n) ⟨pivot, hlt⟩ i : Fin n) : ℕ) = Equiv.swap t pivot (i : ℕ) := by
      intro i
      simp only [Equiv.swap_apply_def, Fin.ext_iff]
      split
      · rfl
      split
      · rfl
      · rfl
    have hleft : toMatrix g n (swapRows a t pivot (n * 2)) =
        Matrix.of fun i j => toMatrix g n a (Equiv.swap (⟨t, htn⟩ : Fin n) ⟨pivot, hlt⟩ i) j := by
      ext i j
      have hj : (j : ℕ) < n * 2 := by
        omega
      simp only [toMatrix, Matrix.of_apply, get_swapRows hne, hσ, if_pos hj]
    have hright : beside g n (swapRows a t pivot (n * 2)) =
        Matrix.of fun i j => beside g n a (Equiv.swap (⟨t, htn⟩ : Fin n) ⟨pivot, hlt⟩ i) j := by
      ext i j
      have hj : n + (j : ℕ) < n * 2 := by
        omega
      simp only [beside, Matrix.of_apply, get_swapRows hne, hσ, if_pos hj]
    refine ⟨?_, fun i j hj => ?_⟩
    · rw [hleft, hright]
      exact h.follows.permute _
    · -- Both rows are zero in the columns that are done.
      rw [hleft, Matrix.of_apply, h.unit _ j hj]
      have hiff : Equiv.swap (⟨t, htn⟩ : Fin n) ⟨pivot, hlt⟩ i = j ↔ i = j := by
        rw [Equiv.swap_apply_eq_iff, Equiv.swap_apply_of_ne_of_ne]
        · intro heq
          rw [heq] at hj
          exact lt_irrefl _ hj
        · intro heq
          rw [heq] at hj
          exact absurd hj (not_lt.mpr hlo)
      simp only [hiff]
  · rw [if_neg hne]
    exact h

theorem Reduced.normalise {t : ℕ} (h : Reduced g M t a) (ht : t < n) (hne : a.get t t ≠ 0) :
    Reduced g M t (normalise mul a t (n * 2) (inv (a.get t t))) ∧ g.val ((GfMatrix.normalise mul a t (n * 2) (inv (a.get t t))).get t t) = 1 := by
  have hval : g.val (a.get t t) ≠ 0 := fun hzero => hne (g.val_eq_zero.mp hzero)
  have hd : ∀ i : Fin n, (if (i : ℕ) = t then (g.val (a.get t t))⁻¹ else 1) ≠ 0 := by
    intro i
    split
    · exact inv_ne_zero hval
    · exact one_ne_zero
  have hentry : ∀ i j, j < n * 2 → g.val ((GfMatrix.normalise mul a t (n * 2) (inv (a.get t t))).get i j) =
      (if i = t then (g.val (a.get t t))⁻¹ else 1) * g.val (a.get i j) := by
    intro i j hj
    rw [get_normalise]
    by_cases hi : i = t
    · subst hi
      rw [if_pos ⟨rfl, hj⟩, g.val_mul, g.val_inv _ hne, if_pos rfl, mul_comm]
    · rw [if_neg (fun h => hi h.1), if_neg hi, one_mul]
  have hleft : toMatrix g n (GfMatrix.normalise mul a t (n * 2) (inv (a.get t t))) =
      Matrix.of fun (i j : Fin n) => (if (i : ℕ) = t then (g.val (a.get t t))⁻¹ else 1) * toMatrix g n a i j := by
    ext i j
    exact hentry i j (by omega)
  have hright : beside g n (GfMatrix.normalise mul a t (n * 2) (inv (a.get t t))) =
      Matrix.of fun (i j : Fin n) => (if (i : ℕ) = t then (g.val (a.get t t))⁻¹ else 1) * beside g n a i j := by
    ext i j
    exact hentry i (n + j) (by omega)
  refine ⟨⟨?_, fun i j hj => ?_⟩, ?_⟩
  · rw [hleft, hright]
    exact h.follows.scale hd
  · rw [hleft, Matrix.of_apply, h.unit i j hj]
    by_cases hij : i = j
    · subst hij
      rw [if_neg hj.ne, one_mul]
    · rw [if_neg hij, mul_zero]
  · rw [hentry t t (by omega), if_pos rfl, inv_mul_cancel₀ hval]

theorem Reduced.eliminate {t : ℕ} (h : Reduced g M t a) (ht : t < n) (hone : g.val (a.get t t) = 1) : Reduced g M (t + 1) (eliminate mul a t n) := by
  have hentry : ∀ (i : Fin n) (j : ℕ), j < n * 2 → g.val ((GfMatrix.eliminate mul a t n).get i j) =
      g.val (a.get i j) + (if (i : ℕ) = t then 0 else g.val (a.get i t)) * g.val (a.get t j) := by
    intro i j hj
    rw [val_get_eliminate]
    by_cases hi : (i : ℕ) = t
    · simp [hi]
    · simp [hi, hj]
  have hleft : toMatrix g n (GfMatrix.eliminate mul a t n) =
      Matrix.of fun (i j : Fin n) => toMatrix g n a i j + (if (i : ℕ) = t then 0 else g.val (a.get i t)) * toMatrix g n a ⟨t, ht⟩ j := by
    ext i j
    exact hentry i j (by omega)
  have hright : beside g n (GfMatrix.eliminate mul a t n) =
      Matrix.of fun (i j : Fin n) => beside g n a i j + (if (i : ℕ) = t then 0 else g.val (a.get i t)) * beside g n a ⟨t, ht⟩ j := by
    ext i j
    exact hentry i (n + j) (by omega)
  refine ⟨?_, fun i j hj => ?_⟩
  · rw [hleft, hright]
    exact h.follows.eliminate (if_pos rfl)
  · rw [hleft, Matrix.of_apply]
    rcases Nat.lt_succ_iff_lt_or_eq.mp hj with hlt | heq
    · -- The row of the pivot is zero in a column that is done.
      have hzero : toMatrix g n a ⟨t, ht⟩ j = 0 := by
        rw [h.unit _ j hlt, if_neg]
        rintro rfl
        exact lt_irrefl _ hlt
      rw [hzero, mul_zero, add_zero]
      exact h.unit i j hlt
    · obtain rfl : j = ⟨t, ht⟩ := Fin.ext heq
      have hpivot : toMatrix g n a ⟨t, ht⟩ ⟨t, ht⟩ = 1 := hone
      rw [hpivot, mul_one]
      by_cases hi : (i : ℕ) = t
      · obtain rfl : i = ⟨t, ht⟩ := Fin.ext hi
        rw [hpivot, if_pos rfl, add_zero, if_pos rfl]
      · have hne : i ≠ ⟨t, ht⟩ := fun heq => hi (congrArg Fin.val heq)
        rw [if_neg hi, if_neg hne]
        exact g.add_self _

/-- A column ends reduced, or the matrix is singular. -/
theorem Reduced.column {t : ℕ} (h : Reduced g M t a) (ht : t < n) :
    (∃ a', reduceColumn mul inv (fun _ => false) n a t = .ok a' ∧ Reduced g M (t + 1) a') ∨
    reduceColumn mul inv (fun _ => false) n a t = .error (.repair "Decode matrix is singular") ∧ ¬ IsUnit M := by
  unfold reduceColumn
  rw [if_neg Bool.false_ne_true]
  cases hpivot : findPivot a t n with
  | none =>
    refine Or.inr ⟨rfl, h.follows.singular (t := ⟨t, ht⟩) h.unit fun i hi => ?_⟩
    show g.val (a.get i t) = 0
    rw [findPivot_none hpivot i hi i.isLt, g.val_zero]
  | some pivot =>
    obtain ⟨hlo, hlt, hne⟩ := findPivot_some hpivot
    have hswapped := h.swap hlo hlt
    have hat : (if pivot ≠ t then swapRows a t pivot (n * 2) else a).get t t ≠ 0 := by
      by_cases heq : pivot = t
      · rw [if_neg (not_not.mpr heq)]
        rwa [heq] at hne
      · have htn : t < n * 2 := by
          omega
        rw [if_pos heq, get_swapRows heq, if_pos htn, Equiv.swap_apply_left]
        exact hne
    obtain ⟨hnormal, hone⟩ := hswapped.normalise ht hat
    exact Or.inl ⟨_, rfl, hnormal.eliminate ht hone⟩

theorem Reduced.columns (h : Reduced g M 0 a) {k : ℕ} (hk : k ≤ n) :
    (∃ a', (List.range k).foldlM (reduceColumn mul inv (fun _ => false) n) a = .ok a' ∧ Reduced g M k a') ∨
    (List.range k).foldlM (reduceColumn mul inv (fun _ => false) n) a = .error (.repair "Decode matrix is singular") ∧ ¬ IsUnit M := by
  induction k with
  | zero => exact Or.inl ⟨a, rfl, h⟩
  | succ k ih =>
    rw [List.range_succ, List.foldlM_append]
    rcases ih (by omega) with ⟨a', heq, hreduced⟩ | ⟨heq, hsingular⟩
    · rw [heq]
      rcases hreduced.column hk with ⟨a'', hcolumn, hreduced'⟩ | ⟨hcolumn, hsingular⟩
      · refine Or.inl ⟨a'', ?_, hreduced'⟩
        show [k].foldlM (reduceColumn mul inv (fun _ => false) n) a' = _
        rw [List.foldlM_cons, hcolumn]
        rfl
      · refine Or.inr ⟨?_, hsingular⟩
        show [k].foldlM (reduceColumn mul inv (fun _ => false) n) a' = _
        rw [List.foldlM_cons, hcolumn]
        rfl
    · rw [heq]
      exact Or.inr ⟨rfl, hsingular⟩

/-! ## The first matrix and the last -/

/-- A loop that writes the first entries of a row. -/
theorem get_fillRow (f : ℕ → UInt16) (row width : ℕ) :
    ((List.range width).foldl (fun a column => a.set row column (f column)) a).get i j = if i = row ∧ j < width then f j else a.get i j := by
  induction width generalizing i j with
  | zero => simp
  | succ width ih =>
    rw [List.range_succ, List.foldl_append, List.foldl_cons, List.foldl_nil, get_set, ih]
    by_cases hj : j = width
    · subst hj
      simp
    · have hsame : j < width + 1 ↔ j < width := by
        omega
      simp [hj, hsame]

theorem get_augment (m : GfMatrix) (i j : ℕ) :
    (augment m).get i j = if i < m.rows then (if j = m.rows + i then 1 else if j < m.rows then m.get i j else 0) else 0 := by
  unfold augment
  suffices hrows : ∀ k i j, ((List.range k).foldl (fun a row =>
      ((List.range m.rows).foldl (fun a column => a.set row column (m.get row column)) a).set row (m.rows + row) 1)
      (zeros m.rows (m.rows * 2))).get i j = if i < k then (if j = m.rows + i then 1 else if j < m.rows then m.get i j else 0) else 0 from
    hrows m.rows i j
  intro k
  induction k with
  | zero =>
    intro i j
    rfl
  | succ k ih =>
    intro i j
    rw [List.range_succ, List.foldl_append, List.foldl_cons, List.foldl_nil, get_set, get_fillRow, ih]
    by_cases hi : i = k
    · subst hi
      simp
    · have hsame : i < k + 1 ↔ i < k := by
        omega
      simp [hi, hsame]

theorem reduced_augment (m : GfMatrix) : Reduced g (toMatrix g m.rows m) 0 (augment m) := by
  have hleft : toMatrix g m.rows (augment m) = toMatrix g m.rows m := by
    ext i j
    have hj : (j : ℕ) ≠ m.rows + i := by
      omega
    simp [toMatrix, get_augment, hj]
  have hright : beside g m.rows (augment m) = 1 := by
    ext i j
    simp only [beside, Matrix.of_apply, get_augment, if_pos i.isLt, Matrix.one_apply]
    by_cases hij : i = j
    · subst hij
      rw [if_pos rfl, if_pos rfl, g.val_one]
    · have hne : ¬ m.rows + (j : ℕ) = m.rows + i := by
        omega
      have hlarge : ¬ m.rows + (j : ℕ) < m.rows := by
        omega
      rw [if_neg hne, if_neg hlarge, if_neg hij, g.val_zero]
  refine ⟨?_, nofun⟩
  rw [hleft, hright]
  exact Follows.start _

/-- The right half, as a matrix of its own. -/
theorem get_inverse (n : ℕ) (i j : ℕ) :
    ((List.range n).foldl (fun inverse row =>
      (List.range n).foldl (fun inverse column => inverse.set row column (a.get row (n + column))) inverse) (zeros n n)).get i j =
      if i < n ∧ j < n then a.get i (n + j) else 0 := by
  suffices hrows : ∀ k i j, ((List.range k).foldl (fun inverse row =>
      (List.range n).foldl (fun inverse column => inverse.set row column (a.get row (n + column))) inverse) (zeros n n)).get i j =
      if i < k ∧ j < n then a.get i (n + j) else 0 from hrows n i j
  intro k
  induction k with
  | zero =>
    intro i j
    simp [zeros]
  | succ k ih =>
    intro i j
    rw [List.range_succ, List.foldl_append, List.foldl_cons, List.foldl_nil, get_fillRow fun column => a.get k (n + column), ih]
    by_cases hi : i = k
    · subst hi
      simp
    · have hsame : i < k + 1 ↔ i < k := by
        omega
      simp [hi, hsame]

end GfMatrix

/-! ## A field of words -/

noncomputable section

/-- The bits of a word, as elements of the field of two. -/
def wordBits (a : UInt16) (i : Fin 16) : ZMod 2 := if a.toBitVec.getLsbD i then 1 else 0

theorem wordBits_xor (a b : UInt16) : wordBits (a ^^^ b) = wordBits a + wordBits b := by
  ext i
  unfold wordBits
  rw [UInt16.toBitVec_xor, BitVec.getLsbD_xor, Pi.add_apply]
  generalize a.toBitVec.getLsbD i = x
  generalize b.toBitVec.getLsbD i = y
  cases x <;> cases y <;> decide

theorem wordBits_injective : Function.Injective wordBits := by
  intro a b h
  refine UInt16.toBitVec_inj.mp (BitVec.eq_of_getLsbD_eq fun i hi => ?_)
  have hbit := congrFun h ⟨i, hi⟩
  unfold wordBits at hbit
  dsimp only at hbit
  revert hbit
  generalize a.toBitVec.getLsbD i = x
  generalize b.toBitVec.getLsbD i = y
  cases x <;> cases y <;> decide

theorem wordBits_bijective : Function.Bijective wordBits := by
  refine wordBits_injective.bijective_of_nat_card_le ?_
  have hcard : Nat.card UInt16 = 2 ^ 16 := by
    have e : UInt16 ≃ Fin (2 ^ 16) :=
      ⟨fun a => BitVec.equivFin a.toBitVec, fun x => UInt16.ofBitVec (BitVec.equivFin.symm x), fun a => by simp, fun x => by simp⟩
    rw [Nat.card_congr e, Nat.card_fin]
  rw [hcard]
  simp

/-- The field with as many elements as there are words is a space of as many dimensions as a word has bits. -/
def spaceEquiv : (Fin 16 → ZMod 2) ≃ₗ[ZMod 2] GaloisField 2 16 :=
  LinearEquiv.ofFinrankEq _ _ (by rw [GaloisField.finrank 2 (by decide : 16 ≠ 0), Module.finrank_fin_fun])

def unitElement : GaloisField 2 16 := spaceEquiv (wordBits 1)

theorem unitElement_ne_zero : unitElement ≠ 0 := by
  unfold unitElement
  rw [ne_eq, LinearEquiv.map_eq_zero_iff]
  intro hzero
  have hbit := congrFun hzero 0
  exact absurd hbit (by decide)

/-- The words as the elements of the field, the word one as its unit. -/
def wordEquiv : UInt16 ≃ GaloisField 2 16 :=
  ((Equiv.ofBijective wordBits wordBits_bijective).trans spaceEquiv.toEquiv).trans (Equiv.mulLeft₀ unitElement⁻¹ (inv_ne_zero unitElement_ne_zero))

theorem wordEquiv_apply (a : UInt16) : wordEquiv a = unitElement⁻¹ * spaceEquiv (wordBits a) := rfl

def wordMul (a b : UInt16) : UInt16 := wordEquiv.symm (wordEquiv a * wordEquiv b)

def wordInv (a : UInt16) : UInt16 := wordEquiv.symm (wordEquiv a)⁻¹

def wordField : GfField wordMul wordInv (GaloisField 2 16) where
  val := wordEquiv
  val_one := inv_mul_cancel₀ unitElement_ne_zero
  val_xor a b := by
    rw [wordEquiv_apply, wordEquiv_apply, wordEquiv_apply, wordBits_xor, map_add, mul_add]
  val_mul a b := Equiv.apply_symm_apply ..
  val_inv a _ := Equiv.apply_symm_apply ..

end

end Usenet

end Risuko
