import Mathlib.Algebra.BigOperators.Group.List.Basic
import Mathlib.Algebra.Ring.Nat
import Mathlib.Data.List.Pairwise
import Mathlib.Data.List.Sort

/-!
# Finite maps in key order

A finite map is the list of its entries, with strictly increasing keys. The order makes iteration deterministic, and the
sums over the entries (`OrdMap.sumOf`) are what byte counters kept beside a map are compared with.
-/

namespace Risuko

/-- A finite map: its entries, in strictly increasing key order. -/
structure OrdMap (κ ν : Type*) [LinearOrder κ] where
  entries : List (κ × ν)
  sorted : (entries.map Prod.fst).Pairwise (· < ·)

namespace OrdMap

variable {κ ν : Type*} [LinearOrder κ]

/-! ## Entries as a list -/

/-- Put an entry at its place in a sorted list of entries, replacing the entry of the same key. -/
def insertList (k : κ) (v : ν) : List (κ × ν) → List (κ × ν)
  | [] => [(k, v)]
  | (k', v') :: rest =>
    if k < k' then (k, v) :: (k', v') :: rest
    else if k = k' then (k, v) :: rest
    else (k', v') :: insertList k v rest

/-- In a sorted list every later key is above the first one. -/
theorem lt_of_sorted_cons {e : κ × ν} {L : List (κ × ν)} (h : ((e :: L).map Prod.fst).Pairwise (· < ·)) :
    ∀ x ∈ L, e.1 < x.1 := by
  intro x hx
  rw [List.map_cons, List.pairwise_cons] at h
  exact h.1 x.1 (List.mem_map_of_mem hx)

/-- A lookup in a sorted list of entries finds exactly its members. -/
theorem lookup_eq_some_iff {k : κ} {v : ν} {L : List (κ × ν)} (h : (L.map Prod.fst).Pairwise (· < ·)) :
    L.lookup k = some v ↔ (k, v) ∈ L := by
  induction L with
  | nil => simp
  | cons e L ih =>
    obtain ⟨k', v'⟩ := e
    have hgt := lt_of_sorted_cons h
    have hrest : (L.map Prod.fst).Pairwise (· < ·) := (List.pairwise_cons.mp (by simpa using h)).2
    rw [List.lookup_cons]
    by_cases hk : k = k'
    · subst hk
      have hnot : (k, v) ∉ L := fun hm => lt_irrefl k (hgt _ hm)
      simp [hnot, eq_comm]
    · have hb : (k == k') = false := by simp [hk]
      simp [hb, ih hrest, hk]

/-- The entries after an insertion: the new one, and the old ones of another key. -/
theorem mem_insertList (k : κ) (v : ν) :
    ∀ {L : List (κ × ν)}, (L.map Prod.fst).Pairwise (· < ·) →
      ∀ e, e ∈ insertList k v L ↔ e = (k, v) ∨ (e ∈ L ∧ e.1 ≠ k)
  | [], _, e => by simp [insertList]
  | (k', v') :: rest, h, e => by
    have hgt := lt_of_sorted_cons h
    have hrest : (rest.map Prod.fst).Pairwise (· < ·) := (List.pairwise_cons.mp (by simpa using h)).2
    unfold insertList
    split
    · rename_i hlt
      have hne : ∀ x ∈ (k', v') :: rest, x.1 ≠ k := by
        intro x hx
        rcases List.mem_cons.mp hx with rfl | hx
        · exact ne_of_gt hlt
        · exact ne_of_gt (hlt.trans (hgt x hx))
      simp only [List.mem_cons] at hne ⊢
      constructor
      · rintro (he | he)
        · exact Or.inl he
        · exact Or.inr ⟨he, hne e he⟩
      · rintro (he | ⟨he, _⟩)
        · exact Or.inl he
        · exact Or.inr he
    · split
      · rename_i _ heq
        subst heq
        have hne : ∀ x ∈ rest, x.1 ≠ k := fun x hx => ne_of_gt (hgt x hx)
        simp only [List.mem_cons]
        constructor
        · rintro (he | he)
          · exact Or.inl he
          · exact Or.inr ⟨Or.inr he, hne e he⟩
        · rintro (he | ⟨he | he, hk⟩)
          · exact Or.inl he
          · exact absurd (by rw [he]) hk
          · exact Or.inr he
      · rename_i _ hne
        simp only [List.mem_cons, mem_insertList k v hrest e]
        constructor
        · rintro (he | he | ⟨he, hk⟩)
          · exact Or.inr ⟨Or.inl he, by rw [he]; exact fun h => hne h.symm⟩
          · exact Or.inl he
          · exact Or.inr ⟨Or.inr he, hk⟩
        · rintro (he | ⟨he | he, hk⟩)
          · exact Or.inr (Or.inl he)
          · exact Or.inl he
          · exact Or.inr (Or.inr ⟨he, hk⟩)

/-- An insertion keeps the key order. -/
theorem sorted_insertList (k : κ) (v : ν) :
    ∀ {L : List (κ × ν)}, (L.map Prod.fst).Pairwise (· < ·) → ((insertList k v L).map Prod.fst).Pairwise (· < ·)
  | [], _ => by simp [insertList]
  | (k', v') :: rest, h => by
    have hgt := lt_of_sorted_cons h
    have hrest : (rest.map Prod.fst).Pairwise (· < ·) := (List.pairwise_cons.mp (by simpa using h)).2
    unfold insertList
    split
    · rename_i hlt
      rw [List.map_cons, List.pairwise_cons]
      refine ⟨?_, h⟩
      intro x hx
      obtain ⟨e, he, rfl⟩ := List.mem_map.mp hx
      rcases List.mem_cons.mp he with rfl | he
      · exact hlt
      · exact hlt.trans (hgt e he)
    · split
      · rename_i _ heq
        subst heq
        simpa using h
      · rename_i hnlt hne
        rw [List.map_cons, List.pairwise_cons]
        refine ⟨?_, sorted_insertList k v hrest⟩
        intro x hx
        obtain ⟨e, he, rfl⟩ := List.mem_map.mp hx
        rcases (mem_insertList k v hrest e).mp he with rfl | ⟨he, _⟩
        · exact lt_of_le_of_ne (not_lt.mp hnlt) (fun h => hne h.symm)
        · exact hgt e he

/-! ## Operations -/

/-- The map with no entry. -/
def empty : OrdMap κ ν := ⟨[], by simp⟩

/-- The value stored at a key. -/
def get? (m : OrdMap κ ν) (k : κ) : Option ν := m.entries.lookup k

/-- Whether a key has a value. -/
def contains (m : OrdMap κ ν) (k : κ) : Bool := (m.get? k).isSome

/-- Store a value at a key, replacing the value stored there. -/
def insert (m : OrdMap κ ν) (k : κ) (v : ν) : OrdMap κ ν := ⟨insertList k v m.entries, sorted_insertList k v m.sorted⟩

/-- Keep the entries that satisfy a test. -/
def filter (m : OrdMap κ ν) (p : κ → ν → Bool) : OrdMap κ ν :=
  ⟨m.entries.filter (fun e => p e.1 e.2), m.sorted.sublist (List.Sublist.map _ List.filter_sublist)⟩

/-- Drop the entry of a key. -/
def erase (m : OrdMap κ ν) (k : κ) : OrdMap κ ν := m.filter (fun k' _ => k' ≠ k)

/-- Replace every value by one computed from it and its key. -/
def mapVal (m : OrdMap κ ν) (f : κ → ν → ν) : OrdMap κ ν :=
  ⟨m.entries.map (fun e => (e.1, f e.1 e.2)), by simpa [List.map_map, Function.comp_def] using m.sorted⟩

/-- The keys, in increasing order. -/
def keys (m : OrdMap κ ν) : List κ := m.entries.map Prod.fst

/-- The sum of a measure over the entries. -/
def sumOf (f : κ → ν → Nat) (m : OrdMap κ ν) : Nat := (m.entries.map (fun e => f e.1 e.2)).sum

/-- The number of entries. -/
def size (m : OrdMap κ ν) : Nat := m.entries.length

/-- Whether there is no entry. -/
def isEmpty (m : OrdMap κ ν) : Bool := m.entries.isEmpty

/-- The entry of the least key. -/
def first? (m : OrdMap κ ν) : Option (κ × ν) := m.entries.head?

/-! ## Lookups -/

/-- Two entries of the same key are the same entry. -/
theorem entry_unique (m : OrdMap κ ν) {k : κ} {v w : ν} (hv : (k, v) ∈ m.entries) (hw : (k, w) ∈ m.entries) : v = w := by
  have hnd : m.entries.Pairwise (fun a b => a.1 ≠ b.1) :=
    (List.pairwise_map.mp m.sorted).imp (fun h => ne_of_lt h)
  by_contra hne
  have hsym : Std.Symm (fun a b : κ × ν => a.1 ≠ b.1) := ⟨fun _ _ h => h.symm⟩
  exact hnd.forall hv hw (fun h => hne (congrArg Prod.snd h)) rfl

theorem get?_eq_some_iff {m : OrdMap κ ν} {k : κ} {v : ν} : m.get? k = some v ↔ (k, v) ∈ m.entries := lookup_eq_some_iff m.sorted

theorem get?_eq_none_iff {m : OrdMap κ ν} {k : κ} : m.get? k = none ↔ ∀ v, (k, v) ∉ m.entries := by
  constructor
  · intro h v hv
    rw [get?_eq_some_iff.mpr hv] at h
    cases h
  · intro h
    cases hg : m.get? k with
    | none => rfl
    | some v => exact absurd (get?_eq_some_iff.mp hg) (h v)

/-- Two lookups are equal as soon as they find the same values. -/
theorem get?_congr {m m' : OrdMap κ ν} {k k' : κ} (h : ∀ v, (k, v) ∈ m.entries ↔ (k', v) ∈ m'.entries) :
    m.get? k = m'.get? k' := by
  apply Option.ext
  intro v
  rw [get?_eq_some_iff, get?_eq_some_iff, h]

@[simp] theorem get?_empty (k : κ) : (empty : OrdMap κ ν).get? k = none := rfl

@[simp] theorem get?_insert_self (m : OrdMap κ ν) (k : κ) (v : ν) : (m.insert k v).get? k = some v := by
  rw [get?_eq_some_iff]
  exact (mem_insertList k v m.sorted _).mpr (Or.inl rfl)

theorem get?_insert_of_ne (m : OrdMap κ ν) {k k' : κ} (v : ν) (h : k' ≠ k) : (m.insert k v).get? k' = m.get? k' := by
  apply get?_congr
  intro w
  rw [show (m.insert k v).entries = insertList k v m.entries from rfl, mem_insertList k v m.sorted]
  simp [h]

theorem get?_insert (m : OrdMap κ ν) (k k' : κ) (v : ν) :
    (m.insert k v).get? k' = if k' = k then some v else m.get? k' := by
  by_cases h : k' = k
  · subst h
    simp
  · rw [get?_insert_of_ne m v h, if_neg h]

theorem mem_filter_entries {m : OrdMap κ ν} {p : κ → ν → Bool} {e : κ × ν} :
    e ∈ (m.filter p).entries ↔ e ∈ m.entries ∧ p e.1 e.2 = true := List.mem_filter

theorem get?_filter_eq_some {m : OrdMap κ ν} {p : κ → ν → Bool} {k : κ} {v : ν} :
    (m.filter p).get? k = some v ↔ m.get? k = some v ∧ p k v = true := by
  rw [get?_eq_some_iff, get?_eq_some_iff, mem_filter_entries]

theorem get?_filter (m : OrdMap κ ν) (p : κ → ν → Bool) (k : κ) : (m.filter p).get? k = (m.get? k).filter (p k) := by
  apply Option.ext
  intro v
  rw [get?_filter_eq_some, Option.filter_eq_some_iff]

@[simp] theorem get?_erase_self (m : OrdMap κ ν) (k : κ) : (m.erase k).get? k = none := by
  rw [get?_eq_none_iff]
  intro v hv
  simpa using (mem_filter_entries.mp hv).2

theorem get?_erase_of_ne (m : OrdMap κ ν) {k k' : κ} (h : k' ≠ k) : (m.erase k).get? k' = m.get? k' := by
  apply get?_congr
  intro v
  rw [erase, mem_filter_entries]
  simp [h]

theorem get?_erase (m : OrdMap κ ν) (k k' : κ) : (m.erase k).get? k' = if k' = k then none else m.get? k' := by
  by_cases h : k' = k
  · subst h
    simp
  · rw [get?_erase_of_ne m h, if_neg h]

/-- Dropping several keys. -/
theorem get?_foldl_erase (ks : List κ) (m : OrdMap κ ν) (k : κ) :
    (ks.foldl erase m).get? k = if k ∈ ks then none else m.get? k := by
  induction ks generalizing m with
  | nil => simp
  | cons k' ks ih =>
    rw [List.foldl_cons, ih, get?_erase]
    by_cases h1 : k ∈ ks
    · simp [h1]
    · by_cases h2 : k = k' <;> simp [h1, h2]

theorem get?_mapVal (m : OrdMap κ ν) (f : κ → ν → ν) (k : κ) : (m.mapVal f).get? k = (m.get? k).map (f k) := by
  apply Option.ext
  intro v
  rw [get?_eq_some_iff, Option.map_eq_some_iff]
  simp only [mapVal, List.mem_map, Prod.mk.injEq, get?_eq_some_iff]
  constructor
  · rintro ⟨e, he, rfl, rfl⟩
    exact ⟨e.2, he, rfl⟩
  · rintro ⟨w, hw, rfl⟩
    exact ⟨(k, w), hw, rfl, rfl⟩

theorem isEmpty_iff {m : OrdMap κ ν} : m.isEmpty = true ↔ ∀ k, m.get? k = none := by
  rw [isEmpty, List.isEmpty_iff]
  constructor
  · intro h k
    rw [get?_eq_none_iff, h]
    exact fun _ => List.not_mem_nil
  · intro h
    rw [List.eq_nil_iff_forall_not_mem]
    exact fun e he => get?_eq_none_iff.mp (h e.1) e.2 he

theorem get?_of_first? {m : OrdMap κ ν} {k : κ} {v : ν} (h : m.first? = some (k, v)) : m.get? k = some v :=
  get?_eq_some_iff.mpr (List.mem_of_head? h)

theorem mem_keys {m : OrdMap κ ν} {k : κ} : k ∈ m.keys ↔ ∃ v, m.get? k = some v := by
  simp only [keys, List.mem_map, get?_eq_some_iff]
  constructor
  · rintro ⟨e, he, rfl⟩
    exact ⟨e.2, he⟩
  · rintro ⟨v, hv⟩
    exact ⟨(k, v), hv, rfl⟩

theorem contains_iff {m : OrdMap κ ν} {k : κ} : m.contains k = true ↔ ∃ v, m.get? k = some v := by
  rw [contains, Option.isSome_iff_exists]

theorem keys_nodup (m : OrdMap κ ν) : m.keys.Nodup := m.sorted.imp (fun h => ne_of_lt h)

/-! ## Sums over the entries -/

/-- The entries after an insertion are, in some order, the new one and those of the other keys. -/
theorem insert_perm (m : OrdMap κ ν) (k : κ) (v : ν) : (m.insert k v).entries.Perm ((k, v) :: (m.erase k).entries) := by
  have hnd : ∀ m' : OrdMap κ ν, m'.entries.Nodup := fun m' => List.Nodup.of_map _ m'.keys_nodup
  have hnew : (k, v) ∉ (m.erase k).entries := fun h => by simpa using (mem_filter_entries.mp h).2
  rw [List.perm_ext_iff_of_nodup (hnd _) (List.nodup_cons.mpr ⟨hnew, hnd _⟩)]
  intro e
  rw [show (m.insert k v).entries = insertList k v m.entries from rfl, mem_insertList k v m.sorted, List.mem_cons, erase,
    mem_filter_entries]
  simp

/-- Taking out an entry that is there: the entries are that one and the rest. -/
theorem erase_perm (m : OrdMap κ ν) {k : κ} {v : ν} (h : m.get? k = some v) :
    m.entries.Perm ((k, v) :: (m.erase k).entries) := by
  have hnd : ∀ m' : OrdMap κ ν, m'.entries.Nodup := fun m' => List.Nodup.of_map _ m'.keys_nodup
  have hmem := get?_eq_some_iff.mp h
  have hnew : (k, v) ∉ (m.erase k).entries := fun h => by simpa using (mem_filter_entries.mp h).2
  rw [List.perm_ext_iff_of_nodup (hnd _) (List.nodup_cons.mpr ⟨hnew, hnd _⟩)]
  rintro ⟨k', v'⟩
  rw [List.mem_cons, erase, mem_filter_entries]
  by_cases hk : k' = k
  · subst hk
    constructor
    · intro hm
      exact Or.inl (by rw [m.entry_unique hm hmem])
    · rintro (he | ⟨hm, _⟩)
      · rw [he]; exact hmem
      · exact hm
  · simp [hk]

theorem size_erase_le (m : OrdMap κ ν) (k : κ) : (m.erase k).size ≤ m.size := List.length_filter_le ..

theorem size_insert_le (m : OrdMap κ ν) (k : κ) (v : ν) : (m.insert k v).size ≤ m.size + 1 := by
  have hperm := (m.insert_perm k v).length_eq
  have hle := m.size_erase_le k
  rw [List.length_cons] at hperm
  unfold size at hle ⊢
  omega

/-- Two maps that hold the same are the same. -/
theorem ext_get? {m m' : OrdMap κ ν} (h : ∀ k, m.get? k = m'.get? k) : m = m' := by
  have hnd : ∀ m' : OrdMap κ ν, m'.entries.Nodup := fun m' => List.Nodup.of_map _ m'.keys_nodup
  have hperm : m.entries.Perm m'.entries := by
    rw [List.perm_ext_iff_of_nodup (hnd _) (hnd _)]
    rintro ⟨k, v⟩
    rw [← get?_eq_some_iff, ← get?_eq_some_iff, h k]
  have heq := hperm.eq_of_pairwise (fun a b _ _ hab hba => absurd (lt_trans hab hba) (lt_irrefl _))
    (List.pairwise_map.mp m.sorted) (List.pairwise_map.mp m'.sorted)
  cases m
  cases m'
  simp only [mk.injEq]
  exact heq

theorem insert_erase (m : OrdMap κ ν) (k : κ) (v : ν) : (m.erase k).insert k v = m.insert k v := by
  refine ext_get? (fun k' => ?_)
  rw [get?_insert, get?_insert, get?_erase]
  split <;> rfl

@[simp] theorem sumOf_empty (f : κ → ν → Nat) : (empty : OrdMap κ ν).sumOf f = 0 := rfl

theorem sumOf_insert (f : κ → ν → Nat) (m : OrdMap κ ν) (k : κ) (v : ν) :
    (m.insert k v).sumOf f = f k v + (m.erase k).sumOf f := by
  have := (m.insert_perm k v).map (fun e => f e.1 e.2)
  simpa [sumOf] using this.sum_eq

theorem sumOf_erase (f : κ → ν → Nat) (m : OrdMap κ ν) {k : κ} {v : ν} (h : m.get? k = some v) :
    m.sumOf f = f k v + (m.erase k).sumOf f := by
  have := (m.erase_perm h).map (fun e => f e.1 e.2)
  simpa [sumOf] using this.sum_eq

/-- Dropping a key that has no entry changes nothing. -/
theorem erase_of_get?_none (m : OrdMap κ ν) {k : κ} (h : m.get? k = none) : m.erase k = m := by
  have : m.entries.filter (fun e => decide (e.1 ≠ k)) = m.entries := by
    rw [List.filter_eq_self]
    intro e he
    simp only [ne_eq, decide_not, Bool.not_eq_eq_eq_not, Bool.not_true, decide_eq_false_iff_not]
    rintro rfl
    exact get?_eq_none_iff.mp h e.2 he
  cases m
  simp only [erase, filter, mk.injEq]
  exact this

/-- What a filter keeps and what it drops add up to the whole. -/
theorem sumOf_filter_add (f : κ → ν → Nat) (m : OrdMap κ ν) (p : κ → ν → Bool) :
    m.sumOf f = (m.filter p).sumOf f + (m.filter (fun k v => !p k v)).sumOf f := by
  simp only [sumOf, filter]
  induction m.entries with
  | nil => rfl
  | cons e L ih =>
    by_cases h : p e.1 e.2 = true
    · simp [h, ih, Nat.add_assoc]
    · simp only [Bool.not_eq_true] at h
      simp [h, ih]
      omega

theorem sumOf_mapVal (f : κ → ν → Nat) (m : OrdMap κ ν) (g : κ → ν → ν) :
    (m.mapVal g).sumOf f = m.sumOf (fun k v => f k (g k v)) := by
  simp [sumOf, mapVal, List.map_map, Function.comp_def]

/-- A map whose values weigh no more than those of another weighs no more. -/
theorem sumOf_le {f : κ → ν → Nat} {m m' : OrdMap κ ν} (h : ∀ k v', m'.get? k = some v' → f k v' ≤ (m.get? k).elim 0 (f k)) :
    m'.sumOf f ≤ m.sumOf f := by
  generalize hn : m'.entries.length = n
  induction n generalizing m m' with
  | zero =>
    have : m'.entries = [] := List.eq_nil_of_length_eq_zero hn
    simp [sumOf, this]
  | succ n ih =>
    obtain ⟨⟨k, v'⟩, hkv⟩ : ∃ e, e ∈ m'.entries := by
      rcases hm : m'.entries with _ | ⟨e, rest⟩
      · rw [hm] at hn
        cases hn
      · exact ⟨e, List.mem_cons_self ..⟩
    have hk := get?_eq_some_iff.mpr hkv
    have hlen : (m'.erase k).entries.length = n := by
      have := (m'.erase_perm hk).length_eq
      rw [List.length_cons] at this
      omega
    have hrest : (m'.erase k).sumOf f ≤ (m.erase k).sumOf f := ih
      (by
        intro k' w hw
        rw [get?_erase] at hw
        split at hw
        · cases hw
        · rename_i hne
          rw [get?_erase_of_ne m hne]
          exact h k' w hw)
      hlen
    have hone := h k v' hk
    rw [m'.sumOf_erase f hk]
    cases hv : m.get? k with
    | none =>
      rw [hv] at hone
      rw [m.erase_of_get?_none hv] at hrest
      simp only [Option.elim_none] at hone
      omega
    | some v =>
      rw [hv] at hone
      rw [m.sumOf_erase f hv]
      simp only [Option.elim_some] at hone
      omega

end OrdMap

end Risuko
