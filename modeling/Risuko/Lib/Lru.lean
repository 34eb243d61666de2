import Mathlib.Data.List.Perm.Subperm
import Risuko.Lib.OrdMap

/-!
# Least recently used

A cache with a capacity as the list of its entries, the least recently used first (`Lru.touch`, `Lru.store`), and the lazy form of that
list: a map from keys to values with stamps, and a queue of keys with stamps in which an entry counts when its stamp is the one in the
map (`Stamped`). The entries of the queue that count are the list (`held`).
-/

namespace Risuko

namespace Lru

variable {κ ν : Type*} [LinearOrder κ]

/-- The entries of the other keys. -/
def without (k : κ) (l : List (κ × ν)) : List (κ × ν) := l.filter fun e => e.1 ≠ k

/-- The value of a key; its entry comes last. -/
def touch (k : κ) (l : List (κ × ν)) : List (κ × ν) × Option ν :=
  match l.lookup k with
  | none => (l, none)
  | some v => (without k l ++ [(k, v)], some v)

/-- The weight of all entries. -/
def total (weight : ν → ℕ) (l : List (κ × ν)) : ℕ := (l.map fun e => weight e.2).sum

/-- The least recently used entries leave until `size` more fits. -/
def evict (weight : ν → ℕ) (capacity size : ℕ) : List (κ × ν) → List (κ × ν)
  | [] => []
  | e :: rest => if capacity < total weight (e :: rest) + size then evict weight capacity size rest else e :: rest

/-- A value that fits replaces the one of its key and comes last; one that does not fit is turned down. -/
def store (weight : ν → ℕ) (capacity : ℕ) (k : κ) (v : ν) (l : List (κ × ν)) : List (κ × ν) :=
  if capacity < weight v then l else evict weight capacity (weight v) (without k l) ++ [(k, v)]

variable {weight : ν → ℕ} {capacity size : ℕ} {k : κ} {l : List (κ × ν)}

theorem without_of_notMem (h : ∀ e ∈ l, e.1 ≠ k) : without k l = l := List.filter_eq_self.mpr fun e he => decide_eq_true (h e he)

theorem ne_of_mem_without {e : κ × ν} (h : e ∈ without k l) : e.1 ≠ k := of_decide_eq_true (List.mem_filter.mp h).2

theorem touch_snd (k : κ) (l : List (κ × ν)) : (touch k l).2 = l.lookup k := by
  unfold touch
  split <;> simp [*]

theorem touch_fst (k : κ) (l : List (κ × ν)) :
    (touch k l).1 = (touch k l).2.elim l fun v => without k l ++ [(k, v)] := by
  unfold touch
  split <;> rfl

/-- A lookup in a list with every key once finds its members. -/
theorem lookup_eq_some_iff {v : ν} (h : (l.map Prod.fst).Nodup) : l.lookup k = some v ↔ (k, v) ∈ l := by
  induction l with
  | nil => simp
  | cons e l ih =>
    rw [List.map_cons, List.nodup_cons] at h
    rw [List.lookup_cons, List.mem_cons]
    by_cases hk : k = e.1
    · have hnot : (k, v) ∉ l := fun hm => h.1 (hk ▸ List.mem_map_of_mem hm)
      simp [hk ▸ hnot, hk, Prod.ext_iff, eq_comm]
    · have hb : (k == e.1) = false := by simp [hk]
      simp [hb, ih h.2, hk, Prod.ext_iff]

end Lru

section Weights

variable {κ ν : Type*} {weight : ν → ℕ} {capacity size : ℕ}

namespace Lru

theorem evict_suffix (weight : ν → ℕ) (capacity size : ℕ) (l : List (κ × ν)) : evict weight capacity size l <:+ l := by
  induction l with
  | nil => exact List.suffix_refl _
  | cons e rest ih =>
    rw [evict]
    split
    · exact ih.trans (List.suffix_cons _ _)
    · exact List.suffix_refl _

theorem evict_of_le {l : List (κ × ν)} (h : total weight l + size ≤ capacity) : evict weight capacity size l = l := by
  cases l with
  | nil => rfl
  | cons e rest => rw [evict, if_neg (not_lt.mpr h)]

theorem total_evict (hsize : size ≤ capacity) (l : List (κ × ν)) : total weight (evict weight capacity size l) + size ≤ capacity := by
  induction l with
  | nil => simpa [evict, total] using hsize
  | cons e rest ih =>
    rw [evict]
    split
    · exact ih
    · omega

theorem total_append (weight : ν → ℕ) (l l' : List (κ × ν)) : total weight (l ++ l') = total weight l + total weight l' := by
  rw [total, List.map_append, List.sum_append, total, total]

end Lru

end Weights

open Lru

/-! ## Queues with stamps -/

section Stamped

variable {κ ν : Type*} [LinearOrder κ]

/-- Whether a stamp is the one in the map. -/
def current (m : OrdMap κ (ν × ℕ)) (e : κ × ℕ) : Bool := (m.get? e.1).any fun v => v.2 = e.2

/-- The entry that an element of the queue counts for. -/
def heldAt (m : OrdMap κ (ν × ℕ)) (e : κ × ℕ) : Option (κ × ν) := ((m.get? e.1).filter fun v => v.2 = e.2).map fun v => (e.1, v.1)

/-- The entries in the order of the queue. -/
def held (m : OrdMap κ (ν × ℕ)) (order : List (κ × ℕ)) : List (κ × ν) := order.filterMap (heldAt m)

/-- The stamps of the queue go up to the clock, and the queue has the stamp of every entry. -/
structure Stamped (m : OrdMap κ (ν × ℕ)) (order : List (κ × ℕ)) (clock : ℕ) : Prop where
  stamps : order.Pairwise fun a b => a.2 < b.2
  le_clock : ∀ e ∈ order, e.2 ≤ clock
  queued : ∀ k v s, m.get? k = some (v, s) → (k, s) ∈ order

variable {m : OrdMap κ (ν × ℕ)} {order : List (κ × ℕ)} {clock : ℕ} {k : κ} {v : ν} {s : ℕ}

theorem heldAt_eq_some {e : κ × ℕ} {x : κ × ν} : heldAt m e = some x ↔ e.1 = x.1 ∧ m.get? x.1 = some (x.2, e.2) := by
  obtain ⟨k, v⟩ := x
  unfold heldAt
  rw [Option.map_eq_some_iff]
  constructor
  · rintro ⟨⟨v', s⟩, hget, hx⟩
    rw [Option.filter_eq_some_iff, decide_eq_true_iff] at hget
    cases hx
    obtain ⟨hget, rfl⟩ := hget
    exact ⟨rfl, hget⟩
  · rintro ⟨rfl, hget⟩
    exact ⟨(v, e.2), by rw [Option.filter_eq_some_iff]; exact ⟨hget, decide_eq_true rfl⟩, rfl⟩

theorem current_iff {e : κ × ℕ} : current m e = true ↔ ∃ v, m.get? e.1 = some (v, e.2) := by
  unfold current
  rw [Option.any_eq_true]
  constructor
  · rintro ⟨⟨v, s⟩, hget, hs⟩
    rw [decide_eq_true_iff] at hs
    exact ⟨v, by rw [hget, ← hs]⟩
  · rintro ⟨v, hget⟩
    exact ⟨(v, e.2), hget, decide_eq_true rfl⟩

theorem heldAt_of_not_current {e : κ × ℕ} (h : ¬ current m e = true) : heldAt m e = none := by
  rw [Option.eq_none_iff_forall_ne_some]
  intro x hx
  rw [heldAt_eq_some] at hx
  exact h (current_iff.mpr ⟨x.2, by rw [hx.1, hx.2]⟩)

namespace Stamped

theorem mem_held (h : Stamped m order clock) : (k, v) ∈ held m order ↔ ∃ s, m.get? k = some (v, s) := by
  rw [held, List.mem_filterMap]
  constructor
  · rintro ⟨e, -, he⟩
    exact ⟨e.2, (heldAt_eq_some.mp he).2⟩
  · rintro ⟨s, hs⟩
    exact ⟨(k, s), h.queued k v s hs, heldAt_eq_some.mpr ⟨rfl, hs⟩⟩

/-- Every key is held once. -/
theorem keys_nodup (h : Stamped m order clock) : ((held m order).map Prod.fst).Nodup := by
  rw [List.nodup_iff_pairwise_ne, List.pairwise_map, held, List.pairwise_filterMap]
  refine h.stamps.imp fun {a b} hab x hx y hy hxy => ?_
  rw [heldAt_eq_some] at hx hy
  have := hx.2.symm.trans ((congrArg m.get? hxy).trans hy.2)
  rw [Option.some.injEq, Prod.mk.injEq] at this
  omega

theorem lookup_held (h : Stamped m order clock) (k : κ) : (held m order).lookup k = (m.get? k).map Prod.fst := by
  ext v
  rw [lookup_eq_some_iff h.keys_nodup, h.mem_held, Option.map_eq_some_iff]
  exact ⟨fun ⟨s, hs⟩ => ⟨(v, s), hs, rfl⟩, fun ⟨⟨_, s⟩, hs, hv⟩ => ⟨s, hv ▸ hs⟩⟩

theorem nodup (h : Stamped m order clock) : order.Nodup := by
  refine h.stamps.imp ?_
  rintro a b hab rfl
  exact absurd hab (lt_irrefl _)

/-- Compacting the queue changes nothing that is held. -/
theorem compact (h : Stamped m order clock) :
    Stamped m (order.filter (current m)) clock ∧ held m (order.filter (current m)) = held m order
      ∧ (order.filter (current m)).length ≤ m.size := by
  refine ⟨⟨h.stamps.filter _, fun e he => h.le_clock e (List.mem_of_mem_filter he), fun k v s hget => ?_⟩, ?_, ?_⟩
  · exact List.mem_filter.mpr ⟨h.queued k v s hget, current_iff.mpr ⟨v, hget⟩⟩
  · rw [held, held, List.filterMap_filter]
    refine List.filterMap_congr fun e _ => ?_
    split
    · rfl
    · rename_i hcur
      exact (heldAt_of_not_current hcur).symm
  · -- the keys of current stamps are different keys of the map
    have hnodup : ((order.filter (current m)).map Prod.fst).Nodup := by
      rw [List.nodup_iff_pairwise_ne, List.pairwise_map]
      refine (h.stamps.filter _).imp_of_mem fun {a b} ha hb hab hkey => ?_
      obtain ⟨v, hv⟩ := current_iff.mp (List.mem_filter.mp ha).2
      obtain ⟨w, hw⟩ := current_iff.mp (List.mem_filter.mp hb).2
      have := hv.symm.trans ((congrArg m.get? hkey).trans hw)
      rw [Option.some.injEq, Prod.mk.injEq] at this
      omega
    have hsub : (order.filter (current m)).map Prod.fst ⊆ m.keys := by
      intro k hk
      obtain ⟨e, he, rfl⟩ := List.mem_map.mp hk
      obtain ⟨v, hv⟩ := current_iff.mp (List.mem_filter.mp he).2
      exact OrdMap.mem_keys.mpr ⟨_, hv⟩
    have hle := (List.Nodup.subperm hnodup hsub).length_le
    rw [List.length_map, OrdMap.keys, List.length_map] at hle
    exact hle

/-- A new stamp puts an entry last. -/
theorem push (h : Stamped m order clock) (k : κ) (v : ν) :
    Stamped (m.insert k (v, clock + 1)) (order ++ [(k, clock + 1)]) (clock + 1)
      ∧ held (m.insert k (v, clock + 1)) (order ++ [(k, clock + 1)]) = without k (held m order) ++ [(k, v)] := by
  refine ⟨⟨?_, ?_, ?_⟩, ?_⟩
  · rw [List.pairwise_append]
    refine ⟨h.stamps, List.pairwise_singleton _ _, fun a ha b hb => ?_⟩
    have := h.le_clock a ha
    rw [List.mem_singleton.mp hb]
    omega
  · intro e he
    rcases List.mem_append.mp he with he | he
    · have := h.le_clock e he
      omega
    · rw [List.mem_singleton.mp he]
  · intro k' v' s' hget
    rw [OrdMap.get?_insert] at hget
    split at hget
    · rename_i hk
      cases hget
      rw [hk]
      exact List.mem_append_right _ (List.mem_singleton_self _)
    · exact List.mem_append_left _ (h.queued k' v' s' hget)
  · rw [held, List.filterMap_append, held, without, List.filter_filterMap]
    congr 1
    · refine List.filterMap_congr fun e he => ?_
      have hle := h.le_clock e he
      ext x
      rw [heldAt_eq_some, Option.filter_eq_some_iff, heldAt_eq_some, OrdMap.get?_insert, decide_eq_true_iff]
      by_cases hx : x.1 = k
      · rw [if_pos hx]
        simp only [hx, ne_eq, not_true_eq_false, and_false, iff_false, Option.some.injEq, Prod.mk.injEq]
        omega
      · rw [if_neg hx]
        exact ⟨fun hh => ⟨hh, hx⟩, fun hh => hh.1⟩
    · have hlast : heldAt (m.insert k (v, clock + 1)) (k, clock + 1) = some (k, v) :=
        heldAt_eq_some.mpr ⟨rfl, OrdMap.get?_insert_self m k _⟩
      rw [List.filterMap_cons_some hlast, List.filterMap_nil]

theorem erase (h : Stamped m order clock) (k : κ) :
    Stamped (m.erase k) order clock ∧ held (m.erase k) order = without k (held m order) := by
  refine ⟨⟨h.stamps, h.le_clock, fun k' v' s' hget => ?_⟩, ?_⟩
  · rw [OrdMap.get?_erase] at hget
    split at hget
    · cases hget
    · exact h.queued k' v' s' hget
  · rw [held, held, without, List.filter_filterMap]
    refine List.filterMap_congr fun e _ => ?_
    ext x
    rw [heldAt_eq_some, Option.filter_eq_some_iff, heldAt_eq_some, OrdMap.get?_erase, decide_eq_true_iff]
    by_cases hx : x.1 = k
    · rw [if_pos hx]
      simp [hx]
    · rw [if_neg hx]
      exact ⟨fun hh => ⟨hh, hx⟩, fun hh => hh.1⟩

/-- The first of the queue leaves when its stamp is old. -/
theorem pop_stale {e : κ × ℕ} (h : Stamped m (e :: order) clock) (he : ¬ current m e = true) :
    Stamped m order clock ∧ held m (e :: order) = held m order := by
  refine ⟨⟨(List.pairwise_cons.mp h.stamps).2, fun x hx => h.le_clock x (List.mem_cons_of_mem e hx), fun k v s hget => ?_⟩, ?_⟩
  · rcases List.mem_cons.mp (h.queued k v s hget) with rfl | hmem
    · exact absurd (current_iff.mpr ⟨v, hget⟩) he
    · exact hmem
  · rw [held, List.filterMap_cons_none (heldAt_of_not_current he), held]

/-- The first of the queue leaves with its entry when its stamp is current. -/
theorem pop_current {e : κ × ℕ} (h : Stamped m (e :: order) clock) (hget : m.get? e.1 = some (v, e.2)) :
    Stamped (m.erase e.1) order clock ∧ held m (e :: order) = (e.1, v) :: held (m.erase e.1) order := by
  have hhead : held m (e :: order) = (e.1, v) :: held m order := by
    have hfirst : heldAt m e = some (e.1, v) := heldAt_eq_some.mpr ⟨rfl, hget⟩
    rw [held, List.filterMap_cons_some hfirst, held]
  obtain ⟨herased, hwithout⟩ := h.erase e.1
  obtain ⟨hpopped, hsame⟩ := herased.pop_stale fun hcur => by
    obtain ⟨w, hw⟩ := current_iff.mp hcur
    rw [OrdMap.get?_erase_self] at hw
    cases hw
  refine ⟨hpopped, ?_⟩
  have hnodup := h.keys_nodup
  rw [hhead, List.map_cons, List.nodup_cons] at hnodup
  rw [hhead, ← hsame, hwithout, hhead, without, List.filter_cons_of_neg (by simp), ← without, without_of_notMem]
  exact fun x hx hxe => hnodup.1 (hxe ▸ List.mem_map_of_mem hx)

theorem sumOf_eq_total (h : Stamped m order clock) (weight : ν → ℕ) :
    m.sumOf (fun _ v => weight v.1) = total weight (held m order) := by
  have hperm : (m.entries.map fun e => (e.1, e.2.1)).Perm (held m order) := by
    have hkeys : ((m.entries.map fun e => (e.1, e.2.1)).map Prod.fst).Nodup := by
      rw [List.map_map]
      exact m.keys_nodup
    rw [List.perm_ext_iff_of_nodup hkeys.of_map h.keys_nodup.of_map]
    rintro ⟨k, v⟩
    rw [h.mem_held, List.mem_map]
    constructor
    · rintro ⟨⟨k', v', s⟩, hmem, heq⟩
      cases heq
      exact ⟨s, OrdMap.get?_eq_some_iff.mpr hmem⟩
    · rintro ⟨s, hs⟩
      exact ⟨(k, v, s), OrdMap.get?_eq_some_iff.mp hs, rfl⟩
  have hsum := (hperm.map fun e => weight e.2).sum_eq
  rw [List.map_map] at hsum
  exact hsum

end Stamped

end Stamped

end Risuko

/-!
## Recency lists

A set with a bound as the list of its members, the oldest first: a member leaves when as many others as the bound allows are newer.
-/

namespace Risuko

namespace Recency

variable {α : Type*} [DecidableEq α]

/-- The members behind `x`. -/
def newer (x : α) : List α → List α
  | [] => []
  | y :: rest => if y = x then rest else newer x rest

/-- A new member comes last, a member keeps its place, and those with `bound` newer ones leave. -/
def insert (bound : ℕ) (x : α) (l : List α) : List α :=
  let l := if x ∈ l then l else l ++ [x]
  l.filter fun y => (newer y l).length < bound

theorem newer_append_self {x : α} {l : List α} (h : x ∉ l) (rest : List α) : newer x (l ++ x :: rest) = rest := by
  induction l with
  | nil => simp [newer]
  | cons y l ih =>
    rw [List.mem_cons, not_or] at h
    rw [List.cons_append, newer, if_neg (Ne.symm h.1), ih h.2]

/-- The members with less than `n` newer ones are the last `n`. -/
theorem filter_newer (n : ℕ) {l : List α} (h : l.Nodup) : (l.filter fun y => (newer y l).length < n) = l.drop (l.length - n) := by
  induction l with
  | nil => simp
  | cons x l ih =>
    rw [List.nodup_cons] at h
    have hrest : (l.filter fun y => (newer y (x :: l)).length < n) = l.drop (l.length - n) := by
      rw [← ih h.2]
      refine List.filter_congr fun y hy => ?_
      rw [newer, if_neg (ne_of_mem_of_not_mem hy h.1).symm]
    have hx : newer x (x :: l) = l := by rw [newer, if_pos rfl]
    rw [List.filter_cons, hrest, hx, List.length_cons]
    by_cases hn : l.length < n
    · rw [if_pos (decide_eq_true hn), Nat.sub_eq_zero_of_le hn, Nat.sub_eq_zero_of_le (Nat.le_of_lt hn), List.drop_zero, List.drop_zero]
    · rw [if_neg (by simpa using hn), Nat.succ_sub (Nat.le_of_not_lt hn), List.drop_succ_cons]

variable {bound : ℕ} {x : α} {l : List α}

theorem insert_of_mem (hl : l.Nodup) (hlen : l.length ≤ bound) (hx : x ∈ l) : insert bound x l = l := by
  rw [insert, if_pos hx, filter_newer bound hl, Nat.sub_eq_zero_of_le hlen, List.drop_zero]

theorem insert_of_notMem (hl : l.Nodup) (hx : x ∉ l) : insert bound x l = (l ++ [x]).drop (l.length + 1 - bound) := by
  rw [insert, if_neg hx, filter_newer bound (List.nodup_append'.mpr ⟨hl, List.nodup_singleton x, List.disjoint_singleton.mpr hx⟩), List.length_append,
    List.length_singleton]

/-- What was inserted is a member. -/
theorem mem_insert_self (hbound : 0 < bound) (hx : x ∉ l) : x ∈ insert bound x l := by
  rw [insert, if_neg hx, List.mem_filter]
  exact ⟨List.mem_append_right l (List.mem_singleton_self x), by simpa [newer_append_self hx []] using hbound⟩

end Recency

end Risuko
