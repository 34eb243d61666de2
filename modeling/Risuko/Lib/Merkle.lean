import Mathlib.Data.Nat.Bitwise
import Mathlib.Tactic

/-!
# Binary Merkle trees

A tree is given by its leaves, counted from the left, and by what pairs two nodes. `node` is the node at a height. The lists that
programs keep are intervals of nodes of one height (`level`), and a proof of a node is the nodes its path misses (`uncles`). The
frontier of the first leaves is what a streaming fold keeps of them: one complete subtree for every one in the binary number.
-/

namespace Risuko

namespace Merkle

variable {H : Type*} (pair : H → H → H) (leaf : ℕ → H)

/-- The node at a height over the leaves. -/
def node : ℕ → ℕ → H
  | 0, i => leaf i
  | h + 1, i => pair (node h (2 * i)) (node h (2 * i + 1))

/-- Neighbours of one height. -/
def level (h start count : ℕ) : List H := (List.range' start count).map (node pair leaf h)

/-- One level up: neighbours in pairs. What has no neighbour is dropped. -/
def reduce : List H → List H
  | left :: right :: rest => pair left right :: reduce rest
  | _ => []

/-- Reduce while there is more than one node. Each turn shortens the list, and the fuel bounds the turns. -/
def collapse : ℕ → List H → List H
  | 0, layer => layer
  | fuel + 1, layer => if 1 < layer.length then collapse fuel (reduce pair layer) else layer

/-- All layers on the way. -/
def layers : ℕ → List H → List (List H)
  | 0, layer => [layer]
  | fuel + 1, layer => if 1 < layer.length then layer :: layers fuel (reduce pair layer) else [layer]

/-- The nodes beside a path that goes up from a node. -/
def uncles : ℕ → ℕ → ℕ → List H
  | _, _, 0 => []
  | h, i, k + 1 => node pair leaf h (i ^^^ 1) :: uncles (h + 1) (i / 2) k

/-- Go up from a node with the nodes beside the path. -/
def climb : H → ℕ → List H → H
  | x, _, [] => x
  | x, i, uncle :: rest => climb (if i % 2 = 0 then pair x uncle else pair uncle x) (i / 2) rest

/-- What a streaming fold keeps of the first nodes of a height: each complete subtree that has no neighbour yet, lowest first. -/
def frontier (h n : ℕ) : List (ℕ × H) :=
  if n = 0 then [] else if n % 2 = 1 then (h, node pair leaf h (n - 1)) :: frontier (h + 1) (n / 2) else frontier (h + 1) (n / 2)
termination_by n

variable {pair leaf}

/-! ## Nodes -/

theorem node_node (h k i : ℕ) : node pair (node pair leaf h) k i = node pair leaf (h + k) i := by
  induction k generalizing i with
  | zero => rfl
  | succ k ih =>
    rw [← Nat.add_assoc]
    simp only [node, ih]

/-- A node depends on the leaves below it only. -/
theorem node_congr {leaf' : ℕ → H} {k i : ℕ} (h : ∀ b, i * 2 ^ k ≤ b → b < (i + 1) * 2 ^ k → leaf b = leaf' b) :
    node pair leaf k i = node pair leaf' k i := by
  induction k generalizing i with
  | zero => exact h i (by simp) (by simp)
  | succ k ih =>
    have hpow : (2 : ℕ) ^ (k + 1) = 2 * 2 ^ k := by ring
    rw [hpow] at h
    have hleft : node pair leaf k (2 * i) = node pair leaf' k (2 * i) := by
      apply ih
      intro b hb hb'
      exact h b (by nlinarith) (by nlinarith)
    have hright : node pair leaf k (2 * i + 1) = node pair leaf' k (2 * i + 1) := by
      apply ih
      intro b hb hb'
      exact h b (by nlinarith) (by nlinarith)
    rw [node, node, hleft, hright]

/-- A node is the first one of its height over the leaves from its first leaf on. -/
theorem node_shift (k i : ℕ) : node pair leaf k i = node pair (fun b => leaf (i * 2 ^ k + b)) k 0 := by
  suffices ∀ k i j, node pair leaf k (i + j) = node pair (fun b => leaf (i * 2 ^ k + b)) k j from this k i 0
  intro k
  induction k with
  | zero =>
    intro i j
    rw [node, node, pow_zero, mul_one]
  | succ k ih =>
    intro i j
    have hleft : 2 * (i + j) = 2 * i + 2 * j := by ring
    have hpow : i * 2 ^ (k + 1) = 2 * i * 2 ^ k := by ring
    rw [node, node, hleft, Nat.add_assoc, ih, ih, hpow]

/-- Over equal leaves all nodes of a height are equal. -/
theorem node_const (p : H) (k i : ℕ) : node pair (fun _ => p) k i = node pair (fun _ => p) k 0 := by
  induction k generalizing i with
  | zero => rfl
  | succ k ih => rw [node, node, ih (2 * i), ih (2 * i + 1), ih (2 * 0), ih (2 * 0 + 1)]

/-! ## Levels -/

theorem length_level (h start count : ℕ) : (level pair leaf h start count).length = count := by
  rw [level, List.length_map, List.length_range']

theorem getElem?_level {h start count i : ℕ} (hi : i < count) :
    (level pair leaf h start count)[i]? = some (node pair leaf h (start + i)) := by
  rw [level, List.getElem?_map, List.getElem?_range' hi, one_mul, Option.map_some]

theorem reduce_level (h start count : ℕ) :
    reduce pair (level pair leaf h (2 * start) (2 * count)) = level pair leaf (h + 1) start count := by
  induction count generalizing start with
  | zero => rfl
  | succ count ih =>
    have htwo : 2 * (count + 1) = 2 * count + 1 + 1 := by ring
    have hnext : 2 * start + 1 + 1 = 2 * (start + 1) := by ring
    have hsplit : level pair leaf h (2 * start) (2 * count + 1 + 1) =
        node pair leaf h (2 * start) :: node pair leaf h (2 * start + 1) :: level pair leaf h (2 * (start + 1)) (2 * count) := by
      rw [level, List.range'_succ, List.range'_succ, hnext]
      rfl
    rw [htwo, hsplit, reduce, ih]
    rfl

/-- A power of two of neighbours collapses to the node above them. -/
theorem collapse_level {fuel k : ℕ} (hf : k ≤ fuel) (h i : ℕ) :
    collapse pair fuel (level pair leaf h (i * 2 ^ k) (2 ^ k)) = [node pair leaf (h + k) i] := by
  induction k generalizing fuel h with
  | zero =>
    have hone : level pair leaf h (i * 2 ^ 0) (2 ^ 0) = [node pair leaf h i] := by
      rw [pow_zero, mul_one]
      rfl
    rw [hone]
    cases fuel <;> rfl
  | succ k ih =>
    obtain ⟨fuel, rfl⟩ := Nat.exists_eq_add_of_le' (Nat.lt_of_lt_of_le (Nat.succ_pos k) hf)
    have hpow : (2 : ℕ) ^ (k + 1) = 2 * 2 ^ k := by ring
    have hmany : 1 < (level pair leaf h (i * 2 ^ (k + 1)) (2 ^ (k + 1))).length := by
      rw [length_level]
      exact Nat.one_lt_two_pow (Nat.succ_ne_zero k)
    have hstart : i * (2 * 2 ^ k) = 2 * (i * 2 ^ k) := by ring
    rw [collapse, if_pos hmany, hpow, hstart, reduce_level, ih (by omega), Nat.add_assoc, Nat.add_comm 1 k]

theorem layers_level {fuel k : ℕ} (hf : k ≤ fuel) (h : ℕ) :
    layers pair fuel (level pair leaf h 0 (2 ^ k)) =
      (List.range (k + 1)).map (fun j => level pair leaf (h + j) 0 (2 ^ (k - j))) := by
  induction k generalizing fuel h with
  | zero => cases fuel <;> rfl
  | succ k ih =>
    obtain ⟨fuel, rfl⟩ := Nat.exists_eq_add_of_le' (Nat.lt_of_lt_of_le (Nat.succ_pos k) hf)
    have hmany : 1 < (level pair leaf h 0 (2 ^ (k + 1))).length := by
      rw [length_level]
      exact Nat.one_lt_two_pow (Nat.succ_ne_zero k)
    have hreduce : reduce pair (level pair leaf h 0 (2 ^ (k + 1))) = level pair leaf (h + 1) 0 (2 ^ k) := by
      have hpow : (2 : ℕ) ^ (k + 1) = 2 * 2 ^ k := by ring
      rw [hpow]
      exact reduce_level h 0 (2 ^ k)
    rw [layers, if_pos hmany, hreduce, ih (by omega), List.range_succ_eq_map (n := k + 1), List.map_cons, List.map_map]
    congr 1
    apply List.map_congr_left
    intro j _
    rw [Function.comp_apply, Nat.succ_sub_succ, Nat.succ_eq_add_one, Nat.add_assoc, Nat.add_comm 1 j]

/-! ## Proofs -/

theorem length_uncles (h i k : ℕ) : (uncles pair leaf h i k).length = k := by
  induction k generalizing h i with
  | zero => rfl
  | succ k ih => rw [uncles, List.length_cons, ih]

/-- The nodes beside the path lead to the node above. -/
theorem climb_uncles (h i k : ℕ) :
    climb pair (node pair leaf h i) i (uncles pair leaf h i k) = node pair leaf (h + k) (i / 2 ^ k) := by
  induction k generalizing h i with
  | zero => rw [pow_zero, Nat.div_one]; rfl
  | succ k ih =>
    have hup : (if i % 2 = 0 then pair (node pair leaf h i) (node pair leaf h (i ^^^ 1))
        else pair (node pair leaf h (i ^^^ 1)) (node pair leaf h i)) = node pair leaf (h + 1) (i / 2) := by
      rw [node]
      split
      · rename_i heven
        have hi : 2 * (i / 2) = i := by omega
        rw [hi, Nat.xor_one_of_even (Nat.even_iff.mpr heven)]
      · rename_i hodd
        have hi : 2 * (i / 2) = i - 1 ∧ i - 1 + 1 = i := by omega
        rw [hi.1, hi.2, Nat.xor_one_of_odd (Nat.odd_iff.mpr (by omega))]
    rw [uncles, climb, hup, ih, Nat.div_div_eq_div_mul, pow_succ', Nat.add_assoc, Nat.add_comm 1 k]

/-! ## Frontiers -/

theorem frontier_zero (h : ℕ) : frontier pair leaf h 0 = [] := by
  rw [frontier, if_pos rfl]

theorem frontier_odd {h n : ℕ} (hn : n % 2 = 1) :
    frontier pair leaf h n = (h, node pair leaf h (n - 1)) :: frontier pair leaf (h + 1) (n / 2) := by
  rw [frontier, if_neg (by omega), if_pos hn]

theorem frontier_even {h n : ℕ} (hn : n % 2 = 0) : frontier pair leaf h n = frontier pair leaf (h + 1) (n / 2) := by
  by_cases hz : n = 0
  · rw [hz, Nat.zero_div, frontier_zero, frontier_zero]
  · rw [frontier, if_neg hz, if_neg (by omega)]

/-- The subtrees of a frontier are at least as high as its nodes. -/
theorem le_of_mem_frontier {h n : ℕ} {e : ℕ × H} (he : e ∈ frontier pair leaf h n) : h ≤ e.1 := by
  induction n using Nat.strongRecOn generalizing h with
  | _ n ih =>
    rcases Nat.mod_two_eq_zero_or_one n with hn | hn
    · by_cases hz : n = 0
      · rw [hz, frontier_zero] at he
        exact absurd he List.not_mem_nil
      · rw [frontier_even hn] at he
        exact Nat.le_of_succ_le (ih (n / 2) (by omega) he)
    · rw [frontier_odd hn, List.mem_cons] at he
      rcases he with rfl | he
      · exact le_rfl
      · exact Nat.le_of_succ_le (ih (n / 2) (by omega) he)

/-- Behind the lowest subtree of a frontier is the frontier of the nodes before it. -/
theorem frontier_pos (pair : H → H → H) (leaf : ℕ → H) (h : ℕ) {n : ℕ} (hn : 0 < n) :
    ∃ k j, frontier pair leaf h n = (h + k, node pair leaf (h + k) j) :: frontier pair leaf (h + k) j ∧ n = (j + 1) * 2 ^ k := by
  induction n using Nat.strongRecOn generalizing h with
  | _ n ih =>
    rcases Nat.mod_two_eq_zero_or_one n with hpar | hpar
    · obtain ⟨k, j, hf, hhalf⟩ := ih (n / 2) (by omega) (h + 1) (by omega)
      refine ⟨k + 1, j, ?_, ?_⟩
      · rw [frontier_even hpar, hf, Nat.add_assoc, Nat.add_comm 1 k]
      · rw [pow_succ, ← Nat.mul_assoc, ← hhalf]
        omega
    · refine ⟨0, n - 1, ?_, by omega⟩
      have hhalf : (n - 1) / 2 = n / 2 := by omega
      rw [Nat.add_zero h, frontier_odd hpar, frontier_even (n := n - 1) (by omega), hhalf]

end Merkle

end Risuko
