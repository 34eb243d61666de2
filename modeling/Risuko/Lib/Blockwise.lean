import Mathlib.Tactic

/-!
# Folding over blocks of a stream

A state takes blocks of a fixed size, one after the other. `whole` takes off all the blocks that are there and keeps what is left,
fewer items than a block. Items that come later go behind what was left, and how the stream is cut makes no difference
(`whole_append`).
-/

namespace Risuko

namespace Blockwise

variable {σ α : Type*} (size : ℕ) (f : σ → List α → σ)

/-- Take blocks off while there is one. Each turn takes a block, and the fuel bounds the turns. -/
def drain : ℕ → σ → List α → σ × List α
  | 0, s, items => (s, items)
  | fuel + 1, s, items => if size ≤ items.length then drain fuel (f s (items.take size)) (items.drop size) else (s, items)

/-- The state behind all the blocks, and the items that make no block. -/
def whole (s : σ) (items : List α) : σ × List α := drain size f items.length s items

/-- The block at an index. -/
def blockAt (items : List α) (i : ℕ) : List α := (items.drop (i * size)).take size

variable {size f} {s : σ} {items : List α}

theorem drain_short {fuel : ℕ} (h : items.length < size) : drain size f fuel s items = (s, items) := by
  cases fuel with
  | zero => rfl
  | succ fuel => rw [drain, if_neg (by omega)]

/-- Fuel above the length makes no difference. -/
theorem drain_eq_whole (hsize : 0 < size) {fuel : ℕ} (h : items.length ≤ fuel) : drain size f fuel s items = whole size f s items := by
  unfold whole
  suffices ∀ n fuel fuel' s (items : List α), items.length ≤ n → items.length ≤ fuel → items.length ≤ fuel' →
      drain size f fuel s items = drain size f fuel' s items from this items.length _ _ s items le_rfl h le_rfl
  intro n
  induction n with
  | zero =>
    intro fuel fuel' s items hn _ _
    rw [drain_short (by omega), drain_short (by omega)]
  | succ n ih =>
    intro fuel fuel' s items hn hf hf'
    by_cases hlong : size ≤ items.length
    · obtain ⟨k, rfl⟩ := Nat.exists_eq_succ_of_ne_zero (show fuel ≠ 0 by omega)
      obtain ⟨k', rfl⟩ := Nat.exists_eq_succ_of_ne_zero (show fuel' ≠ 0 by omega)
      have hdrop : (items.drop size).length = items.length - size := List.length_drop
      rw [drain, drain, if_pos hlong, if_pos hlong]
      exact ih k k' _ _ (by omega) (by omega) (by omega)
    · rw [drain_short (by omega), drain_short (by omega)]

theorem whole_short (h : items.length < size) : whole size f s items = (s, items) := drain_short h

theorem whole_block (hsize : 0 < size) (h : size ≤ items.length) :
    whole size f s items = whole size f (f s (items.take size)) (items.drop size) := by
  have hdrop : (items.drop size).length = items.length - size := List.length_drop
  obtain ⟨k, hk⟩ := Nat.exists_eq_succ_of_ne_zero (show items.length ≠ 0 by omega)
  rw [whole, hk, drain, if_pos h]
  exact drain_eq_whole hsize (by omega)

/-- An induction over the blocks of a stream. -/
theorem block_induction (hsize : 0 < size) {motive : σ → List α → Prop} (short : ∀ s items, items.length < size → motive s items)
    (block : ∀ s items, size ≤ items.length → motive (f s (items.take size)) (items.drop size) → motive s items) (s : σ)
    (items : List α) : motive s items := by
  generalize hn : items.length = n
  induction n using Nat.strong_induction_on generalizing s items with
  | _ n ih =>
    subst hn
    by_cases h : size ≤ items.length
    · refine block s items h (ih _ ?_ _ _ rfl)
      rw [List.length_drop]
      omega
    · exact short s items (by omega)

/-- What comes later goes behind what was left. -/
theorem whole_append (hsize : 0 < size) (s : σ) (items more : List α) :
    whole size f s (items ++ more) = whole size f (whole size f s items).1 ((whole size f s items).2 ++ more) := by
  induction s, items using block_induction (f := f) hsize with
  | short s items h => rw [whole_short h]
  | block s items h ih =>
    have hlong : size ≤ (items ++ more).length := by
      rw [List.length_append]
      omega
    rw [whole_block hsize hlong, List.take_append_of_le_length h, List.drop_append_of_le_length h, ih, whole_block hsize h]

theorem length_whole (hsize : 0 < size) (s : σ) (items : List α) : (whole size f s items).2.length = items.length % size := by
  induction s, items using block_induction (f := f) hsize with
  | short s items h => rw [whole_short h, Nat.mod_eq_of_lt h]
  | block s items h ih => rw [whole_block hsize h, ih, List.length_drop, ← Nat.mod_eq_sub_mod h]

/-- The state is the fold over the blocks by their index. -/
theorem whole_fst (hsize : 0 < size) (s : σ) (items : List α) :
    (whole size f s items).1 = (List.range (items.length / size)).foldl (fun s i => f s (blockAt size items i)) s := by
  induction s, items using block_induction (f := f) hsize with
  | short s items h => rw [whole_short h, Nat.div_eq_of_lt h, List.range_zero, List.foldl_nil]
  | block s items h ih =>
    have hturns : items.length / size = (items.drop size).length / size + 1 := by
      rw [List.length_drop, ← Nat.div_eq_sub_div hsize h]
    have hnext : ∀ i, blockAt size items (i + 1) = blockAt size (items.drop size) i := by
      intro i
      rw [blockAt, blockAt, List.drop_drop, Nat.succ_mul, Nat.add_comm]
    have hfirst : blockAt size items 0 = items.take size := by
      rw [blockAt, Nat.zero_mul, List.drop_zero]
    rw [whole_block hsize h, ih, hturns, List.range_succ_eq_map, List.foldl_cons, List.foldl_map, hfirst]
    simp only [Nat.succ_eq_add_one, hnext]

end Blockwise

end Risuko
