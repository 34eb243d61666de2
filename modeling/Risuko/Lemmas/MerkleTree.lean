import Risuko.Merkle.Tree

/-!
# Roots and the streaming fold

What the loops of `core/merkle.rs` compute, as nodes of the tree over the padded leaves: the roots (`computeRootWithPad_eq_node`), the
padding (`padHash_eq_node`), and the fold, whose stack is the frontier of the leaves pushed so far (`stack_foldl_push`) and whose
result is the node over them (`finish_eq_node`).
-/

namespace Risuko

/-! ## Words -/

theorem isPowerOfTwo_iff {n : ℕ} : isPowerOfTwo n = true ↔ ∃ k, n = 2 ^ k := by
  unfold isPowerOfTwo
  rw [beq_iff_eq]
  constructor
  · intro h
    exact ⟨_, h.symm⟩
  · rintro ⟨k, rfl⟩
    rw [Nat.log_pow Nat.one_lt_two]

theorem trailingZeros_two_pow {width k : ℕ} (h : k ≤ width) : trailingZeros width (2 ^ k) = k := by
  induction k generalizing width with
  | zero => cases width <;> rfl
  | succ k ih =>
    obtain ⟨width, rfl⟩ := Nat.exists_eq_add_of_le' (Nat.lt_of_lt_of_le (Nat.succ_pos k) h)
    have hhalf : 2 ^ (k + 1) / 2 = 2 ^ k := by
      rw [pow_succ]
      omega
    have heven : 2 ^ (k + 1) % 2 ≠ 1 := by
      rw [pow_succ]
      omega
    rw [trailingZeros, if_neg heven, hhalf, ih (by omega)]

/-! ## Leaves -/

section

variable {α : Type}

/-- The leaves of a list, padded without end. -/
def leavesOf (l : List α) (pad : α) (i : ℕ) : α := l.getD i pad

theorem leavesOf_of_le {l : List α} {pad : α} {i : ℕ} (h : l.length ≤ i) : leavesOf l pad i = pad := by
  rw [leavesOf, List.getD_eq_getElem?_getD, List.getElem?_eq_none h, Option.getD_none]

theorem length_resize (l : List α) (n : ℕ) (pad : α) : (resize l n pad).length = n := by
  rw [resize, List.length_append, List.length_take, List.length_replicate]
  omega

theorem resize_eq_level (pair : α → α → α) {l : List α} {n : ℕ} (h : l.length ≤ n) (pad : α) :
    resize l n pad = Merkle.level pair (leavesOf l pad) 0 0 n := by
  apply List.ext_getElem?
  intro i
  by_cases hi : i < n
  · rw [Merkle.getElem?_level hi, Nat.zero_add, Merkle.node, leavesOf, resize, List.take_of_length_le h]
    by_cases hl : i < l.length
    · rw [List.getElem?_append_left hl, List.getD_eq_getElem?_getD, List.getElem?_eq_getElem hl, Option.getD_some]
    · rw [List.getElem?_append_right (not_lt.mp hl), List.getElem?_replicate, if_pos (by omega), List.getD_eq_getElem?_getD,
        List.getElem?_eq_none (not_lt.mp hl), Option.getD_none]
  · rw [List.getElem?_eq_none (by rw [length_resize]; omega), List.getElem?_eq_none (by rw [Merkle.length_level]; omega)]

end

/-! ## Roots -/

variable {sha256 : List UInt8 → Id32}

/-- The tree over leaves. -/
abbrev hashNode (sha256 : List UInt8 → Id32) (leaf : ℕ → Id32) (height i : ℕ) : Id32 :=
  Merkle.node (hashPair sha256) leaf height i

/-- The node of padding at a height. -/
abbrev padNode (sha256 : List UInt8 → Id32) (pad : Id32) (height : ℕ) : Id32 := hashNode sha256 (fun _ => pad) height 0

theorem padNode_succ (pad : Id32) (k : ℕ) :
    padNode sha256 pad (k + 1) = hashPair sha256 (padNode sha256 pad k) (padNode sha256 pad k) := by
  unfold padNode hashNode
  rw [Merkle.node, Merkle.node_const pad k (2 * 0), Merkle.node_const pad k (2 * 0 + 1)]

theorem reduceAll_level {k : ℕ} (leaf : ℕ → Id32) (h i : ℕ) :
    reduceAll sha256 (Merkle.level (hashPair sha256) leaf h (i * 2 ^ k) (2 ^ k)) = [hashNode sha256 leaf (h + k) i] := by
  unfold reduceAll
  rw [Merkle.length_level]
  exact Merkle.collapse_level (Nat.le_of_lt Nat.lt_two_pow_self) h i

theorem reduceAll_resize {l : List Id32} {k : ℕ} (h : l.length ≤ 2 ^ k) (pad : Id32) :
    reduceAll sha256 (resize l (2 ^ k) pad) = [hashNode sha256 (leavesOf l pad) k 0] := by
  have hlevel : reduceAll sha256 (Merkle.level (hashPair sha256) (leavesOf l pad) 0 (0 * 2 ^ k) (2 ^ k)) =
      [hashNode sha256 (leavesOf l pad) (0 + k) 0] := reduceAll_level _ 0 0
  rw [Nat.zero_mul, Nat.zero_add] at hlevel
  rw [resize_eq_level (hashPair sha256) h, hlevel]

theorem computeRootWithPad_eq_node {leaves : List Id32} {k : ℕ} (h : leaves.length ≤ 2 ^ k) (pad : Id32) :
    computeRootWithPad sha256 leaves (2 ^ k) pad = hashNode sha256 (leavesOf leaves pad) k 0 := by
  unfold computeRootWithPad
  rw [if_neg (Nat.ne_of_gt (Nat.two_pow_pos k)), reduceAll_resize h]
  rfl

theorem computeRoot_eq_node {leaves : List Id32} {k : ℕ} (h : Nat.clog 2 leaves.length = k) (hne : leaves ≠ []) :
    computeRoot sha256 leaves = hashNode sha256 (leavesOf leaves Id32.zero) k 0 := by
  match leaves, hne with
  | [leaf], _ =>
    rw [List.length_singleton, Nat.clog_one_right] at h
    rw [← h]
    rfl
  | a :: b :: rest, _ =>
    unfold computeRoot nextPowerOfTwo
    rw [h, reduceAll_resize (h ▸ Nat.le_pow_clog Nat.one_lt_two _)]
    rfl

theorem padHashLoop_eq {k : ℕ} (hk : k < 32) {fuel j : ℕ} (hj : j ≤ k) (hf : k ≤ j + fuel) :
    padHashLoop sha256 (2 ^ k) fuel (padNode sha256 Id32.zero j) (2 ^ j) = padNode sha256 Id32.zero k := by
  induction fuel generalizing j with
  | zero =>
    have hjk : j = k := by omega
    rw [hjk]
    rfl
  | succ fuel ih =>
    unfold padHashLoop
    by_cases hlt : j < k
    · have hspan : min (2 ^ j * 2) (2 ^ 32 - 1) = 2 ^ (j + 1) := by
        have hle : 2 ^ (j + 1) ≤ 2 ^ 31 := Nat.pow_le_pow_right (Nat.succ_pos 1) (by omega)
        rw [← pow_succ]
        omega
      rw [if_pos (Nat.pow_lt_pow_right Nat.one_lt_two hlt), hspan, ← padNode_succ, ih (by omega) (by omega)]
    · have hjk : j = k := by omega
      rw [hjk, if_neg (lt_irrefl _)]

theorem padHash_eq_node {k : ℕ} (hk : k < 32) : padHash sha256 (2 ^ k) = padNode sha256 Id32.zero k :=
  padHashLoop_eq hk (Nat.zero_le k) (by omega)

/-! ## The streaming fold -/

namespace LayerFold

theorem hashPair_odd (leaf : ℕ → Id32) (h : ℕ) {n : ℕ} (hn : n % 2 = 1) :
    hashPair sha256 (hashNode sha256 leaf h (n - 1)) (hashNode sha256 leaf h n) = hashNode sha256 leaf (h + 1) (n / 2) := by
  have hi : 2 * (n / 2) = n - 1 ∧ n - 1 + 1 = n := by omega
  unfold hashNode
  rw [Merkle.node, hi.1, hi.2]

theorem hashPair_even (leaf : ℕ → Id32) (h : ℕ) {n : ℕ} (hn : n % 2 = 0) :
    hashPair sha256 (hashNode sha256 leaf h n) (hashNode sha256 leaf h (n + 1)) = hashNode sha256 leaf (h + 1) (n / 2) := by
  have hi : 2 * (n / 2) = n := by omega
  unfold hashNode
  rw [Merkle.node, hi]

/-- A node that is pushed on the frontier of the nodes before it makes the frontier that includes it. -/
theorem pushNode_frontier (leaf : ℕ → Id32) (h n : ℕ) :
    pushNode sha256 (Merkle.frontier (hashPair sha256) leaf h n) (h, hashNode sha256 leaf h n) =
      Merkle.frontier (hashPair sha256) leaf h (n + 1) := by
  induction n using Nat.strongRecOn generalizing h with
  | _ n ih =>
    rcases Nat.mod_two_eq_zero_or_one n with hn | hn
    · -- The lowest subtree is higher than the node, which has no neighbour yet.
      have hhalf : (n + 1) / 2 = n / 2 := by omega
      rw [Merkle.frontier_odd (n := n + 1) (by omega), Nat.add_sub_cancel, hhalf, Merkle.frontier_even hn]
      cases hf : Merkle.frontier (hashPair sha256) leaf (h + 1) (n / 2) with
      | nil => rfl
      | cons e rest =>
        have hle := Merkle.le_of_mem_frontier (hf ▸ List.mem_cons_self)
        rw [pushNode, if_pos (show e.1 ≠ h by omega)]
    · -- The lowest subtree is the left neighbour, and their parent goes on.
      have hnext : (n + 1) / 2 = n / 2 + 1 := by omega
      rw [Merkle.frontier_odd hn, pushNode, if_neg (not_not.mpr rfl), hashPair_odd leaf h hn, ih (n / 2) (by omega),
        Merkle.frontier_even (n := n + 1) (by omega), hnext]

/-- The stack is the frontier of the leaves pushed so far. -/
theorem stack_foldl_push (leaf : ℕ → Id32) (n : ℕ) :
    (((List.range n).map leaf).foldl (push sha256) empty).stack = Merkle.frontier (hashPair sha256) leaf 0 n := by
  induction n with
  | zero =>
    rw [Merkle.frontier_zero]
    rfl
  | succ n ih =>
    rw [List.range_succ, List.map_append, List.foldl_append, List.map_singleton, List.foldl_cons, List.foldl_nil, push, ih,
      ← pushNode_frontier]
    rfl

theorem getElem?_pads (pad : Id32) {height k : ℕ} (hk : k < height) : (pads sha256 height pad)[k]? = some (padNode sha256 pad k) := by
  suffices ∀ j, (pads sha256 height (padNode sha256 pad j))[k]? = some (padNode sha256 pad (j + k)) by
    have hz := this 0
    rwa [Nat.zero_add] at hz
  induction k generalizing height with
  | zero =>
    obtain ⟨height, rfl⟩ := Nat.exists_eq_add_of_lt hk
    intro j
    rw [Nat.zero_add, pads]
    rfl
  | succ k ih =>
    obtain ⟨height, rfl⟩ := Nat.exists_eq_add_of_le' (Nat.lt_of_le_of_lt (Nat.zero_le _) hk)
    intro j
    rw [pads, List.getElem?_cons_succ, ← padNode_succ, ih (by omega), Nat.add_assoc, Nat.add_comm 1 k]

theorem eq_zero_of_mul_lt {j m n : ℕ} (hj : j * m < n) (hn : n ≤ m) : j = 0 := by
  by_contra hne
  have := Nat.le_mul_of_pos_left m (Nat.pos_of_ne_zero hne)
  omega

theorem half_bounds {j m n : ℕ} (hj : j * m < n) (hn : n ≤ (j + 1) * m) : j / 2 * (2 * m) < n ∧ n ≤ (j / 2 + 1) * (2 * m) := by
  have hlo : j / 2 * 2 * m ≤ j * m := Nat.mul_le_mul_right m (by omega)
  have hhi : (j + 1) * m ≤ (j / 2 + 1) * 2 * m := Nat.mul_le_mul_right m (by omega)
  rw [← Nat.mul_assoc, ← Nat.mul_assoc]
  exact ⟨hlo.trans_lt hj, hn.trans hhi⟩

/-- From the node over the last leaves and the frontier of the nodes before it, `finish` computes the node over all leaves. -/
theorem finishNode_frontier {leaf : ℕ → Id32} {pad : Id32} {n height : ℕ} (hn : n ≤ 2 ^ height) (hpad : ∀ i, n ≤ i → leaf i = pad)
    {fuel k j : ℕ} (hk : k ≤ height) (hf : height ≤ k + fuel) (hj : j * 2 ^ k < n) (hlast : n ≤ (j + 1) * 2 ^ k) :
    finishNode sha256 height (pads sha256 height pad) fuel (Merkle.frontier (hashPair sha256) leaf k j)
      (k, hashNode sha256 leaf k j) = hashNode sha256 leaf height 0 := by
  induction fuel generalizing k j with
  | zero =>
    have hkh : k = height := by omega
    rw [hkh] at hj ⊢
    rw [eq_zero_of_mul_lt hj hn]
    rfl
  | succ fuel ih =>
    unfold finishNode
    by_cases hlt : k < height
    · rw [if_pos hlt]
      obtain ⟨hj', hlast'⟩ := half_bounds hj hlast
      rw [← pow_succ'] at hj' hlast'
      have hnext := ih (k := k + 1) (j := j / 2) hlt (by omega) hj' hlast'
      rcases Nat.mod_two_eq_zero_or_one j with hpar | hpar
      · -- No subtree of this height is left over: the neighbour is padding.
        have hright : hashNode sha256 leaf k (j + 1) = padNode sha256 pad k := by
          unfold padNode hashNode
          rw [← Merkle.node_const pad k (j + 1)]
          apply Merkle.node_congr
          intro b hb _
          exact hpad b (hlast.trans hb)
        have hget : (pads sha256 height pad).getD k Id32.zero = hashNode sha256 leaf k (j + 1) := by
          rw [List.getD_eq_getElem?_getD, getElem?_pads pad hlt, Option.getD_some, hright]
        rw [Merkle.frontier_even hpar]
        dsimp only
        rw [hget, hashPair_even leaf k hpar]
        cases hfront : Merkle.frontier (hashPair sha256) leaf (k + 1) (j / 2) with
        | nil =>
          rw [hfront] at hnext
          exact hnext
        | cons e rest =>
          have hle := Merkle.le_of_mem_frontier (hfront ▸ List.mem_cons_self)
          rw [hfront] at hnext
          dsimp only
          rw [if_neg (show e.1 ≠ k by omega)]
          exact hnext
      · -- The lowest subtree is the left neighbour.
        rw [Merkle.frontier_odd hpar]
        dsimp only
        rw [if_pos rfl, hashPair_odd leaf k hpar]
        exact hnext
    · have hkh : k = height := by omega
      rw [if_neg hlt]
      rw [hkh] at hj ⊢
      rw [eq_zero_of_mul_lt hj hn]

/-- What `finish` computes of the first leaves of a padded layer. -/
theorem finish_eq_node {l : List Id32} {pad : Id32} {height : ℕ} (hne : l ≠ []) (hl : l.length ≤ 2 ^ height) :
    (l.foldl (push sha256) empty).finish sha256 height pad = hashNode sha256 (leavesOf l pad) height 0 := by
  have hleaves : l = (List.range l.length).map (leavesOf l pad) := by
    apply List.ext_getElem?
    intro i
    by_cases hi : i < l.length
    · rw [List.getElem?_map, List.getElem?_range hi, Option.map_some, leavesOf, List.getD_eq_getElem?_getD,
        List.getElem?_eq_getElem hi, Option.getD_some]
    · rw [List.getElem?_eq_none (not_lt.mp hi), List.getElem?_eq_none (by rw [List.length_map, List.length_range]; omega)]
  have hstack : (l.foldl (push sha256) empty).stack = Merkle.frontier (hashPair sha256) (leavesOf l pad) 0 l.length := by
    conv_lhs => rw [hleaves]
    exact stack_foldl_push _ _
  obtain ⟨k, j, hf, hn⟩ := Merkle.frontier_pos (hashPair sha256) (leavesOf l pad) 0 (List.length_pos_iff.mpr hne)
  rw [Nat.zero_add] at hf
  have hpos := Nat.two_pow_pos k
  have hk : k ≤ height := by
    apply (Nat.pow_le_pow_iff_right Nat.one_lt_two).mp
    exact (Nat.le_mul_of_pos_left _ (Nat.succ_pos j)).trans (hn ▸ hl)
  have hj : j * 2 ^ k < l.length := by
    rw [hn, Nat.succ_mul]
    omega
  unfold finish
  rw [hstack, hf]
  exact finishNode_frontier hl (fun i hi => leavesOf_of_le hi) hk (Nat.le_add_left _ _) hj (le_of_eq hn)

end LayerFold

end Risuko
