import Mathlib.Data.List.Nodup
import Mathlib.Data.List.Perm.Subperm

/-!
# A ranking that shares out a number of slots

The members of a queue get the slots by rank. A round takes the slots from running members whose rank is too low, and then gives free slots to the
first members that are able to start. If both rules speak of the same members the rounds come to rest, and then the first able members run
(`Ranking.settles`).
-/

namespace Risuko

variable {ι : Type*} [DecidableEq ι]

theorem filter_contains_of_sublist {xs ys : List ι} (h : xs.Sublist ys) (hn : ys.Nodup) : ys.filter (fun y => xs.contains y) = xs := by
  induction h with
  | slnil => rfl
  | cons y hsub ih =>
    obtain ⟨hy, hn⟩ := List.nodup_cons.mp hn
    rw [List.filter_cons_of_neg]
    · exact ih hn
    · intro hmem
      exact hy (hsub.subset (List.contains_iff_mem.mp hmem))
  | cons_cons y hsub ih =>
    obtain ⟨hy, hn⟩ := List.nodup_cons.mp hn
    rw [List.filter_cons_of_pos (by simp)]
    congr 1
    refine Eq.trans (List.filter_congr ?_) (ih hn)
    intro z hz
    have hne : z ≠ y := fun he => hy (he ▸ hz)
    simp [hne]

/-- Sublists of a list without repetitions are equal if they have the same elements. -/
theorem eq_of_sublist_of_mem_iff {xs ys zs : List ι} (hx : xs.Sublist zs) (hy : ys.Sublist zs) (hn : zs.Nodup) (h : ∀ z, z ∈ xs ↔ z ∈ ys) :
    xs = ys := by
  rw [← filter_contains_of_sublist hx hn, ← filter_contains_of_sublist hy hn]
  refine List.filter_congr ?_
  intro z _
  simp [h z]

/-- A queue without repetitions, and who in it is able to start. -/
structure Ranking (ι : Type*) where
  queue : List ι
  able : ι → Bool
  nodup : queue.Nodup

namespace Ranking

variable (r : Ranking ι) (limit : ℕ)

/-- The first that are able to start. -/
def first : List ι := (r.queue.filter r.able).take limit

/-- Both rules speak of the same members: everyone who is ranked is able, or nobody is able who is not ranked. -/
def Agrees : Prop := (∀ x ∈ r.queue.take limit, r.able x = true) ∨ ∀ x ∈ r.queue.drop limit, r.able x = false

/-- What is given when some are busy. -/
def starts (busy : List ι) : List ι := ((r.queue.filter r.able).filter fun x => !busy.contains x).take (limit - busy.length)

/-- A round: those that run and are ranked keep their slots, and are busy; the free slots are given. -/
structure Round (running busy running' : List ι) : Prop where
  nodup : busy.Nodup
  keeps : ∀ x ∈ running, x ∈ r.queue.take limit → x ∈ busy
  sublist : running'.Sublist r.queue
  mem : ∀ x, x ∈ running' ↔ (x ∈ running ∧ x ∈ r.queue.take limit) ∨ x ∈ r.starts limit busy

/-- Nobody loses a slot, nobody gets one, and the first that are able run. -/
structure Settled (running busy : List ι) : Prop where
  keeps : ∀ x ∈ running, x ∈ r.queue.take limit
  starts : r.starts limit busy = []
  first : running = r.first limit

variable {r limit} {running busy running' : List ι}

omit [DecidableEq ι] in
theorem mem_first_of_ranked {x : ι} (h : x ∈ r.queue.take limit) (ha : r.able x = true) : x ∈ r.first limit := by
  have hprefix : ((r.queue.take limit).filter r.able) <+: r.first limit :=
    List.prefix_take_iff.mpr ⟨(List.take_prefix limit r.queue).filter r.able,
      Nat.le_trans (List.length_filter_le _ _) (List.length_take_le _ _)⟩
  exact hprefix.subset (List.mem_filter.mpr ⟨h, ha⟩)

omit [DecidableEq ι] in
theorem first_sublist : (r.first limit).Sublist r.queue := (List.take_sublist _ _).trans List.filter_sublist

omit [DecidableEq ι] in
theorem able_of_mem_first {x : ι} (h : x ∈ r.first limit) : r.able x = true := (List.mem_filter.mp (List.mem_of_mem_take h)).2

omit [DecidableEq ι] in
/-- If there are fewer than the limit, all that are able are first. -/
theorem first_eq_or (r : Ranking ι) (limit : ℕ) : r.first limit = r.queue.filter r.able ∨ (r.first limit).length = limit := by
  unfold first
  rw [List.length_take]
  by_cases h : (r.queue.filter r.able).length ≤ limit
  · exact .inl (List.take_of_length_le h)
  · exact .inr (by omega)

omit [DecidableEq ι] in
theorem agrees_iff : r.Agrees limit ↔ ∀ x ∈ r.first limit, x ∈ r.queue.take limit := by
  have hsplit : r.queue.filter r.able = (r.queue.take limit).filter r.able ++ (r.queue.drop limit).filter r.able := by
    rw [← List.filter_append, List.take_append_drop]
  constructor
  · rintro (hall | hnone) x hx
    · rw [List.filter_eq_self.mpr hall] at hsplit
      unfold first at hx
      rw [hsplit] at hx
      by_cases hlen : r.queue.length ≤ limit
      · rw [List.take_of_length_le hlen]
        exact first_sublist.subset (by unfold first; rw [hsplit]; exact hx)
      · rwa [List.take_left' (by rw [List.length_take]; omega)] at hx
    · have hmem := first_sublist.subset hx
      rw [← List.take_append_drop limit r.queue] at hmem
      rcases List.mem_append.mp hmem with htake | hdrop
      · exact htake
      · exact absurd (able_of_mem_first hx) (by simp [hnone x hdrop])
  · intro hsub
    by_cases hall : ∀ x ∈ r.queue.take limit, r.able x = true
    · exact .inl hall
    · right
      intro x hx
      by_contra hable
      have hdrop : x ∈ (r.queue.drop limit).filter r.able := List.mem_filter.mpr ⟨hx, by simpa using hable⟩
      obtain ⟨z, rest, hz⟩ := List.exists_cons_of_ne_nil (List.ne_nil_of_mem hdrop)
      -- the first able member behind the ranked ones takes the slot of one that is not able
      have hshort : ((r.queue.take limit).filter r.able).length < limit := by
        refine Nat.lt_of_lt_of_le ?_ (List.length_take_le limit r.queue)
        refine Nat.lt_of_le_of_ne (List.length_filter_le _ _) ?_
        intro hlen
        exact hall (List.length_filter_eq_length_iff.mp hlen)
      have hzfirst : z ∈ r.first limit := by
        unfold first
        rw [hsplit, hz]
        refine List.mem_take_iff_getElem.mpr ⟨((r.queue.take limit).filter r.able).length, ?_, ?_⟩
        · simp only [List.length_append, List.length_cons]
          omega
        · simp
      have hztake := hsub z hzfirst
      have hzdrop : z ∈ r.queue.drop limit := (List.mem_filter.mp (hz ▸ List.mem_cons_self : z ∈ (r.queue.drop limit).filter r.able)).1
      exact List.disjoint_take_drop r.nodup (Nat.le_refl limit) hztake hzdrop

/-! ## One round -/

/-- The members of `first` that are not busy come first among those that are free. -/
theorem firstFree_isPrefix : ((r.first limit).filter fun x => !busy.contains x) <+: (r.queue.filter r.able).filter fun x => !busy.contains x :=
  (List.take_prefix _ _).filter _

theorem length_firstFree (r : Ranking ι) (limit : ℕ) (busy : List ι) :
    (r.first limit).length =
      ((r.first limit).filter fun x => busy.contains x).length + ((r.first limit).filter fun x => !busy.contains x).length :=
  List.length_eq_length_filter_add _

omit [DecidableEq ι] in
theorem nodup_first : (r.first limit).Nodup := first_sublist.nodup r.nodup

omit [DecidableEq ι] in
theorem mem_of_mem_take_of_isPrefix {xs ys : List ι} {k : ℕ} {x : ι} (h : xs <+: ys) (hk : k ≤ xs.length) (hx : x ∈ ys.take k) : x ∈ xs := by
  obtain ⟨rest, rfl⟩ := h
  rw [List.take_append_of_le_length hk] at hx
  exact List.mem_of_mem_take hx

/-- The free slots go to members of `first`: if all these are not enough there are no others. -/
theorem mem_first_of_mem_starts {x : ι} (hx : x ∈ r.starts limit busy) : x ∈ r.first limit := by
  have hfree : x ∈ (r.queue.filter r.able).filter fun x => !busy.contains x := List.mem_of_mem_take hx
  rcases first_eq_or r limit with hall | hfull
  · rw [hall]
    exact (List.mem_filter.mp hfree).1
  · have hbusy : ((r.first limit).filter fun x => busy.contains x).length ≤ busy.length := by
      refine (List.subperm_of_subset (nodup_first.filter _) ?_).length_le
      intro y hy
      exact List.contains_iff_mem.mp (List.mem_filter.mp hy).2
    have hcount := length_firstFree r limit busy
    exact (List.mem_filter.mp (mem_of_mem_take_of_isPrefix firstFree_isPrefix (by omega) hx)).1

theorem Round.running_subset_first (h : r.Round limit running busy running') (hk : ∀ x ∈ running, x ∈ r.queue.take limit → x ∈ r.first limit) :
    ∀ x ∈ running', x ∈ r.first limit := by
  intro x hx
  rcases (h.mem x).mp hx with ⟨hrunning, hranked⟩ | hstarts
  · exact hk x hrunning hranked
  · exact mem_first_of_mem_starts hstarts

/-- If only members of `first` are busy, all the others of them get a slot. -/
theorem mem_starts_of_first {x : ι} (hn : busy.Nodup) (hsub : ∀ y ∈ busy, y ∈ r.first limit) (hx : x ∈ r.first limit) (hfree : x ∉ busy) :
    x ∈ r.starts limit busy := by
  have hcount := length_firstFree r limit busy
  have hbusy : busy.length ≤ ((r.first limit).filter fun x => busy.contains x).length := by
    refine (List.subperm_of_subset hn ?_).length_le
    intro y hy
    exact List.mem_filter.mpr ⟨hsub y hy, List.contains_iff_mem.mpr hy⟩
  have hlimit : (r.first limit).length ≤ limit := List.length_take_le _ _
  have hprefix : ((r.first limit).filter fun x => !busy.contains x) <+: r.starts limit busy :=
    List.prefix_take_iff.mpr ⟨firstFree_isPrefix, by omega⟩
  exact hprefix.subset (List.mem_filter.mpr ⟨hx, by simpa using hfree⟩)

/-- When the ranked ones among those that run are all that is busy, a round fills up `first`. -/
theorem Round.fills (h : r.Round limit running busy running') (hagrees : r.Agrees limit) (hfirst : ∀ x ∈ running, x ∈ r.first limit)
    (hbusy : ∀ x ∈ busy, x ∈ running) : running' = r.first limit := by
  have hranked := agrees_iff.mp hagrees
  refine eq_of_sublist_of_mem_iff h.sublist first_sublist r.nodup ?_
  intro x
  constructor
  · exact h.running_subset_first (fun y hy _ => hfirst y hy) x
  · intro hx
    by_cases hmem : x ∈ busy
    · exact (h.mem x).mpr (.inl ⟨hbusy x hmem, hranked x hx⟩)
    · exact (h.mem x).mpr (.inr (mem_starts_of_first h.nodup (fun y hy => hfirst y (hbusy y hy)) hx hmem))

theorem settled_of_first (hagrees : r.Agrees limit) (hrunning : running = r.first limit) (hbusy : ∀ x ∈ running, x ∈ busy) :
    r.Settled limit running busy := by
  subst hrunning
  refine ⟨agrees_iff.mp hagrees, ?_, rfl⟩
  refine List.eq_nil_iff_forall_not_mem.mpr ?_
  intro x hx
  have hfree := (List.mem_filter.mp (List.mem_of_mem_take hx)).2
  simp [hbusy x (mem_first_of_mem_starts hx)] at hfree

/-! ## Rounds after rounds -/

variable {runs busies : ℕ → List ι}

/-- The rounds come to rest if and only if the two rules speak of the same members, and those that run and are ranked are able to start. From the
second round on nobody is busy who does not run. -/
theorem settles (h : ∀ k, r.Round limit (runs k) (busies k) (runs (k + 1))) (hbusy : ∀ k, 0 < k → ∀ x ∈ busies k, x ∈ runs k) :
    (∃ n, ∀ k, n ≤ k → r.Settled limit (runs k) (busies k)) ↔
      r.Agrees limit ∧ ∀ x ∈ runs 0, x ∈ r.queue.take limit → r.able x = true := by
  constructor
  · rintro ⟨n, hn⟩
    have hsettled := hn n (Nat.le_refl n)
    refine ⟨agrees_iff.mpr fun x hx => hsettled.keeps x (hsettled.first ▸ hx), ?_⟩
    intro x hx hranked
    -- a ranked member that runs goes on running
    have hstays : ∀ k, x ∈ runs k := by
      intro k
      induction k with
      | zero => exact hx
      | succ k ih => exact ((h k).mem x).mpr (.inl ⟨ih, hranked⟩)
    exact able_of_mem_first (hsettled.first ▸ hstays n)
  · rintro ⟨hagrees, hable⟩
    have hone : ∀ x ∈ runs 1, x ∈ r.first limit :=
      (h 0).running_subset_first fun x hx hranked => mem_first_of_ranked hranked (hable x hx hranked)
    have hfull : ∀ k, runs (k + 2) = r.first limit := by
      intro k
      induction k with
      | zero => exact (h 1).fills hagrees hone (hbusy 1 Nat.one_pos)
      | succ k ih =>
        refine (h (k + 2)).fills hagrees ?_ (hbusy (k + 2) (by omega))
        intro x hx
        rwa [ih] at hx
    refine ⟨2, fun k hk => ?_⟩
    obtain ⟨j, rfl⟩ := Nat.exists_eq_add_of_le' hk
    refine settled_of_first hagrees (hfull j) ?_
    intro x hx
    have hfirst : x ∈ r.first limit := by rwa [hfull j] at hx
    exact (h (j + 2)).keeps x hx (agrees_iff.mp hagrees x hfirst)

end Ranking

end Risuko
