import Mathlib.Data.List.ReduceOption
import Risuko.Cache.ReadCache

/-!
# The read cache accounts for its bytes

`Inner.Counted` says that `bytes` is the sum of the entries and that `lru` lists each entry once, under its stamp. A step of a
cache changes the shared counter by what it changes the cache's weight by (`Accounts`): the weight is what the cache holds, and
what a reservation that failed still has to give back.
-/

namespace Risuko

namespace Inner

variable {inner : Inner} {start : Nat} {e : Entry}

structure Counted (inner : Inner) : Prop where
  bytes : inner.bytes = inner.entries.sumOf (fun _ e => e.data.length)
  lru : ∀ t k, inner.lru.get? t = some k ↔ ∃ e, inner.entries.get? k = some e ∧ e.used = t
  ticks : ∀ k e, inner.entries.get? k = some e → e.used ≤ inner.tick
  exact : inner.underflow = false

theorem counted_default : Inner.default.Counted := ⟨rfl, fun t k => by simp [Inner.default], fun k e h => (by cases h), rfl⟩

theorem Counted.of_eq {inner' : Inner} (h : inner.Counted) (he : inner'.entries = inner.entries) (hl : inner'.lru = inner.lru)
    (hb : inner'.bytes = inner.bytes) (ht : inner.tick ≤ inner'.tick) (hu : inner'.underflow = inner.underflow) : inner'.Counted where
  bytes := by rw [hb, he]; exact h.bytes
  lru := by rw [hl, he]; exact h.lru
  ticks := fun k e hk => le_trans (h.ticks k e (by rw [← he]; exact hk)) ht
  exact := by rw [hu]; exact h.exact

/-- Taking an entry out of both indexes. -/
theorem Counted.removeEntry (h : inner.Counted) (he : inner.entries.get? start = some e) :
    ({ inner with lru := inner.lru.erase e.used }.removeEntry start e).Counted ∧ e.data.length ≤ inner.bytes := by
  have hsum := inner.entries.sumOf_erase (fun _ e => e.data.length) he
  have hle : e.data.length ≤ inner.bytes := by rw [h.bytes, hsum]; exact Nat.le_add_right _ _
  refine ⟨⟨?_, fun t k => ?_, fun k e' hk => ?_, ?_⟩, hle⟩
  · simp only [Inner.removeEntry, freeBytes]
    rw [h.bytes, hsum]
    omega
  · simp only [Inner.removeEntry, freeBytes, OrdMap.get?_erase]
    constructor
    · intro hk
      split at hk
      · cases hk
      rename_i hne
      obtain ⟨e', he', hu⟩ := (h.lru t k).mp hk
      refine ⟨e', ?_, hu⟩
      rw [if_neg]
      · exact he'
      · rintro rfl
        rw [he] at he'
        cases he'
        exact hne hu.symm
    · rintro ⟨e', he', hu⟩
      split at he'
      · cases he'
      rename_i hne
      rw [if_neg]
      · exact (h.lru t k).mpr ⟨e', he', hu⟩
      · rintro rfl
        have h1 := (h.lru e.used k).mpr ⟨e', he', hu⟩
        have h2 := (h.lru e.used start).mpr ⟨e, he, rfl⟩
        rw [h1] at h2
        cases h2
        exact hne rfl
  · simp only [Inner.removeEntry, freeBytes, OrdMap.get?_erase] at hk ⊢
    split at hk
    · cases hk
    · exact h.ticks k e' hk
  · simp only [Inner.removeEntry, freeBytes, h.exact, Bool.false_or, decide_eq_false_iff_not]
    omega

/-- Adding an entry that is not there yet, under a new stamp. -/
theorem Counted.addEntry {inner' : Inner} (h : inner.Counted) (he : inner.entries.get? start = none)
    (hu : inner.tick < e.used) (ht : inner'.tick = e.used) (hl : inner'.lru = inner.lru.insert e.used start)
    (hen : inner'.entries = inner.entries.insert start e) (hb : inner'.bytes = inner.bytes + e.data.length)
    (hx : inner'.underflow = inner.underflow) : inner'.Counted := by
  refine ⟨?_, fun t k => ?_, fun k e' hk => ?_, by rw [hx]; exact h.exact⟩
  · rw [hb, hen, OrdMap.sumOf_insert, inner.entries.erase_of_get?_none he, h.bytes]
    omega
  · rw [hl, hen]
    simp only [OrdMap.get?_insert]
    constructor
    · intro hk
      split at hk
      · rename_i hte
        cases hk
        exact ⟨e, by rw [if_pos rfl], hte.symm⟩
      · obtain ⟨e', he', hu'⟩ := (h.lru t k).mp hk
        refine ⟨e', ?_, hu'⟩
        rw [if_neg]
        · exact he'
        · rintro rfl
          rw [he] at he'
          cases he'
    · rintro ⟨e', he', hu'⟩
      split at he'
      · rename_i hk
        cases he'
        rw [if_pos hu'.symm, hk]
      · rw [if_neg]
        · exact (h.lru t k).mpr ⟨e', he', hu'⟩
        · have := h.ticks k e' he'
          omega
  · rw [hen, OrdMap.get?_insert] at hk
    rw [ht]
    split at hk
    · cases hk
      exact Nat.le_refl _
    · exact le_of_lt (lt_of_le_of_lt (h.ticks k e' hk) hu)

/-- Using an entry moves it to a new stamp. -/
theorem Counted.touch (h : inner.Counted) (he : inner.entries.get? start = some e) (now : Nat) :
    ({ inner with tick := inner.tick + 1 }.touch start e now).Counted := by
  obtain ⟨hrem, hle⟩ := h.removeEntry he
  refine hrem.addEntry (e := { e with used := inner.tick + 1, last := now }) ?_ (Nat.lt_succ_self _) rfl rfl
    (inner.entries.insert_erase start _).symm ?_ ?_
  · simp [Inner.removeEntry, freeBytes]
  · simp only [Inner.touch, Inner.removeEntry, freeBytes]
    omega
  · simp only [Inner.touch, Inner.removeEntry, freeBytes, h.exact, Bool.false_or]
    symm
    simp only [decide_eq_false_iff_not]
    omega

/-- Keeping some entries: the others leave both indexes, and their bytes are given back. -/
theorem Counted.retain (h : inner.Counted) (keep : Nat → Entry → Bool) :
    (inner.retain keep).1.Counted ∧ (inner.retain keep).1.bytes + (inner.retain keep).2 = inner.bytes := by
  have hsum := inner.entries.sumOf_filter_add (fun _ e => e.data.length) keep
  have hle : (inner.entries.filter (fun start e => !keep start e)).sumOf (fun _ e => e.data.length) ≤ inner.bytes := by
    rw [h.bytes, hsum]
    exact Nat.le_add_left _ _
  have hgone : ∀ t, t ∈ ((inner.entries.filter (fun start e => !keep start e)).entries.map (fun e : Nat × Entry => e.2.used)) ↔
      ∃ k e, inner.entries.get? k = some e ∧ keep k e = false ∧ e.used = t := by
    intro t
    simp only [List.mem_map, OrdMap.mem_filter_entries, Prod.exists, OrdMap.get?_eq_some_iff, Bool.not_eq_true']
    exact ⟨fun ⟨k, e, ⟨hm, hk⟩, hu⟩ => ⟨k, e, hm, hk, hu⟩, fun ⟨k, e, hm, hk, hu⟩ => ⟨k, e, ⟨hm, hk⟩, hu⟩⟩
  refine ⟨⟨?_, fun t k => ?_, fun k e hk => ?_, ?_⟩, ?_⟩
  · simp only [Inner.retain, freeBytes]
    rw [h.bytes, hsum]
    omega
  · simp only [Inner.retain, freeBytes, OrdMap.get?_foldl_erase, OrdMap.get?_filter_eq_some]
    constructor
    · intro hk
      split at hk
      · cases hk
      rename_i hnot
      obtain ⟨e, he, hu⟩ := (h.lru t k).mp hk
      refine ⟨e, ⟨he, ?_⟩, hu⟩
      by_contra hfail
      exact hnot ((hgone t).mpr ⟨k, e, he, Bool.eq_false_iff.mpr hfail, hu⟩)
    · rintro ⟨e, ⟨he, hkeep⟩, hu⟩
      rw [if_neg]
      · exact (h.lru t k).mpr ⟨e, he, hu⟩
      · -- a stamp belongs to one entry only
        intro hmem
        obtain ⟨k', e', he', hfail, hu'⟩ := (hgone t).mp hmem
        have h1 := (h.lru t k).mpr ⟨e, he, hu⟩
        have h2 := (h.lru t k').mpr ⟨e', he', hu'⟩
        rw [h1] at h2
        cases h2
        rw [he] at he'
        cases he'
        rw [hkeep] at hfail
        cases hfail
  · simp only [Inner.retain, freeBytes] at hk ⊢
    exact h.ticks k e (OrdMap.get?_filter_eq_some.mp hk).1
  · simp only [Inner.retain, freeBytes, h.exact, Bool.false_or, decide_eq_false_iff_not]
    omega
  · simp only [Inner.retain, freeBytes]
    omega

end Inner

/-- What a failed reservation has yet to give back. -/
def LockSection.owed : LockSection → Nat
  | .undo p => p.len
  | _ => 0

/-- The data on its way into the entries. -/
def LockSection.completion : LockSection → Option Completion
  | .refresh _ => none
  | .fits p | .evict p | .pop p | .reserve p | .undo p => some p

namespace ReadCache

variable {shared : Shared} {c c' : ReadCache} {processCap : Nat} {gets : OrdMap Nat Get}

/-- What the cache has added to the shared counter. -/
def weight (c : ReadCache) : Nat := c.inner.bytes + c.holder.elim 0 LockSection.owed

structure Accounted (c : ReadCache) : Prop where
  counted : c.inner.Counted
  fits : c.inner.bytes ≤ c.capacity
  pending : ∀ sec p, c.holder = some sec → sec.completion = some p → p.data.length = p.len ∧ c.inner.entries.get? p.start = none
  loads : ∀ key get id generation read, c.gets.get? key = some get → get.phase = .loading id generation read → read.length = get.len

/-- What a step does to the accounts. -/
structure Accounts (processCap : Nat) (c : ReadCache) (shared : Shared) (c' : ReadCache) (shared' : Shared) : Prop where
  accounted : c'.Accounted
  balance : shared'.total + c.weight = shared.total + c'.weight
  exact : shared'.underflow = shared.underflow
  capped : c'.inner.bytes ≤ c.inner.bytes ∨ shared'.total ≤ processCap

/-- What is released comes off the shared total, which holds at least that. -/
theorem release_spec {len : Nat} (h : len ≤ shared.total) :
    (shared.release len).total + len = shared.total ∧ (shared.release len).underflow = shared.underflow := by
  unfold Shared.release
  split
  · refine ⟨?_, ?_⟩
    · simp only [Shared.fetchSub]
      omega
    · simp only [Shared.fetchSub]
      rw [decide_eq_false (by omega), Bool.or_false]
  · exact ⟨by omega, rfl⟩

theorem accounted_new (capacity : Nat) (disk : Nat → UInt8) : (new capacity disk).Accounted :=
  ⟨Inner.counted_default, Nat.zero_le _, fun _ _ h => (by cases h), fun _ _ _ _ _ h => (by cases h)⟩

/-- Steps that touch neither the entries nor the shared counter, and hold no completion. -/
theorem Accounted.of_same (h : c.Accounted)
    (hi : c'.inner.Counted) (hb : c'.inner.bytes = c.inner.bytes) (he : ∀ k, c.inner.entries.get? k = none → c'.inner.entries.get? k = none)
    (hc : c'.capacity = c.capacity) (ho : c'.holder.elim 0 LockSection.owed = c.holder.elim 0 LockSection.owed)
    (hp : ∀ sec p, c'.holder = some sec → sec.completion = some p → ∃ sec', c.holder = some sec' ∧ sec'.completion = some p)
    (hl : ∀ key get id generation read, c'.gets.get? key = some get → get.phase = .loading id generation read → read.length = get.len) :
    Accounts processCap c shared c' shared where
  accounted := by
    refine ⟨hi, by rw [hb, hc]; exact h.fits, fun sec p hs hq => ?_, hl⟩
    obtain ⟨sec', hs', hq'⟩ := hp sec p hs hq
    obtain ⟨h1, h2⟩ := h.pending sec' p hs' hq'
    exact ⟨h1, he _ h2⟩
  balance := by rw [weight, weight, hb, ho]
  exact := rfl
  capped := Or.inl hb.le

/-- A phase other than loading keeps the lengths of the loads. -/
theorem loads_insert (key : Nat) (get : Get)
    (h : ∀ key get id generation read, gets.get? key = some get → get.phase = .loading id generation read → read.length = get.len)
    (hg : ∀ id generation read, get.phase = .loading id generation read → read.length = get.len) :
    ∀ key' get' id generation read, (gets.insert key get).get? key' = some get' → get'.phase = .loading id generation read →
      read.length = get'.len := by
  intro key' get' id generation read hk hphase
  rw [OrdMap.get?_insert] at hk
  split at hk
  · cases hk
    exact hg id generation read hphase
  · exact h key' get' id generation read hk hphase

theorem accounts_beginGet (h : c.Accounted) (hfree : c.holder = none)
    (key start len blockOff blockLen now : Nat) :
    Accounts processCap c shared (c.beginGet key start len blockOff blockLen now) shared := by
  have hnone : ∀ phase, (∀ id generation read, phase ≠ .loading id generation read) → ∀ get : Get, get.phase = phase →
      ∀ id generation read, get.phase = .loading id generation read → read.length = get.len :=
    fun phase hp get hg id generation read hl => absurd (hg.symm.trans hl) (hp id generation read)
  unfold ReadCache.beginGet
  simp only
  split
  · rename_i e he
    have hget : c.inner.entries.get? start = some e := (Option.filter_eq_some_iff.mp he).1
    refine h.of_same (h.counted.touch hget now) rfl (fun k hk => ?_) rfl rfl (fun sec p hs => ?_)
      (loads_insert _ _ h.loads (hnone _ (fun _ _ _ => GetPhase.noConfusion) _ rfl))
    · simp only [Inner.touch, OrdMap.get?_insert]
      rw [if_neg]
      · exact hk
      · rintro rfl
        rw [hget] at hk
        cases hk
    · rw [hfree] at hs
      cases hs
  · split
    · refine h.of_same (h.counted.of_eq rfl rfl rfl (Nat.le_succ _) rfl) rfl (fun k hk => hk) rfl rfl (fun sec p hs => ?_)
        (loads_insert _ _ h.loads (hnone _ (fun _ _ _ => GetPhase.noConfusion) _ rfl))
      rw [hfree] at hs
      cases hs
    · refine h.of_same (h.counted.of_eq rfl rfl rfl (Nat.le_succ _) rfl) rfl (fun k hk => hk) rfl ?_ (fun sec p hs hq => ?_)
        (loads_insert _ _ h.loads (hnone _ (fun _ _ _ => GetPhase.noConfusion) _ rfl))
      · rw [hfree]
        rfl
      · cases hs
        cases hq

theorem loads_deliver (waiters : List Nat) (data : List Byte)
    (h : ∀ key get id generation read, gets.get? key = some get → get.phase = .loading id generation read → read.length = get.len) :
    ∀ key get id generation read, (deliver gets waiters data).get? key = some get → get.phase = .loading id generation read →
      read.length = get.len := by
  intro key get id generation read hk hphase
  rw [deliver, OrdMap.get?_mapVal, Option.map_eq_some_iff] at hk
  obtain ⟨old, hold, rfl⟩ := hk
  split at hphase
  · cases hphase
  · rename_i hno
    rw [if_neg hno]
    exact h key old id generation read hold hphase

theorem accounts_completeLoad (h : c.Accounted) (hfree : c.holder = none)
    (hw : c.weight ≤ shared.total) {key : Nat} {get : Get} {id generation : Nat} {data : List Byte} (hlen : data.length = get.len) :
    Accounts processCap c shared (c.completeLoad shared key get id generation data).1
      (c.completeLoad shared key get id generation data).2 := by
  have hl := loads_insert key { get with phase := .closing id data } h.loads (fun _ _ _ hp => by cases hp)
  have howed : ∀ sec : LockSection, sec.owed = 0 → (some sec).elim 0 LockSection.owed = c.holder.elim 0 LockSection.owed := by
    intro sec hs
    rw [hfree]
    exact hs
  unfold ReadCache.completeLoad
  simp only
  split
  · split
    · have hld := loads_deliver ((c.inner.inflight.get? get.start).elim [] Inflight.waiters) data hl
      split
      · rename_i hnone
        refine ⟨⟨h.counted.of_eq rfl rfl rfl (Nat.le_refl _) rfl, h.fits, fun sec p hs hq => ?_, hld⟩, ?_, rfl, Or.inl (Nat.le_refl _)⟩
        · cases hs
          cases hq
          exact ⟨hlen, hnone⟩
        · simp only [weight]
          rw [howed _ rfl]
      · rename_i old hold
        obtain ⟨hcounted, hle⟩ := h.counted.removeEntry hold
        have hle' : old.data.length ≤ shared.total := by
          rw [weight] at hw
          omega
        obtain ⟨htotal, hexact⟩ := release_spec hle'
        refine ⟨⟨hcounted.of_eq rfl rfl rfl (Nat.le_refl _) rfl, ?_, fun sec p hs hq => ?_, hld⟩, ?_, hexact, Or.inl ?_⟩
        · simp only [Inner.removeEntry, Inner.freeBytes]
          have := h.fits
          omega
        · cases hs
          cases hq
          refine ⟨hlen, ?_⟩
          simp [Inner.removeEntry, Inner.freeBytes]
        · simp only [weight, Inner.removeEntry, Inner.freeBytes]
          rw [howed _ rfl]
          omega
        · simp only [Inner.removeEntry, Inner.freeBytes]
          omega
    · refine h.of_same (h.counted.of_eq rfl rfl rfl (Nat.le_refl _) rfl) rfl (fun k hk => hk) rfl (howed _ rfl)
        (fun sec p hs hq => ?_) (loads_deliver _ _ hl)
      cases hs
      cases hq
  · refine h.of_same h.counted rfl (fun k hk => hk) rfl (howed _ rfl) (fun sec p hs hq => ?_) hl
    cases hs
    cases hq

/-- The gets after a leader's lock section: a get is as it was, or it is the leader and starts its load. -/
theorem get?_startLoad {leader : Option Nat} {key : Nat} {get : Get}
    (h : (startLoad gets leader).get? key = some get) :
    gets.get? key = some get ∨ ∃ old id generation, gets.get? key = some old ∧ old.phase = .registering id generation ∧
      leader = some key ∧ get = { old with phase := .loading id generation (List.replicate old.len none) } := by
  rw [startLoad, OrdMap.get?_mapVal, Option.map_eq_some_iff] at h
  obtain ⟨old, hold, heq⟩ := h
  split at heq
  · rename_i id generation hphase
    split at heq
    · rename_i hleader
      exact Or.inr ⟨old, id, generation, hold, hphase, hleader, heq.symm⟩
    · exact Or.inl (heq ▸ hold)
  · exact Or.inl (heq ▸ hold)

theorem accounts_advance (h : c.Accounted) (hw : c.weight ≤ shared.total)
    (now : Nat) {sec : LockSection} (hsec : c.holder = some sec) :
    Accounts processCap c shared (c.advance shared processCap now sec).1 (c.advance shared processCap now sec).2 := by
  -- a section that goes on with the same completion
  have hsame : ∀ sec' : LockSection, sec'.completion = sec.completion → ∀ sec'' p, some sec' = some sec'' → sec''.completion = some p →
      ∃ s, c.holder = some s ∧ s.completion = some p := by
    intro sec' hc sec'' p hs hq
    cases hs
    exact ⟨sec, hsec, hc ▸ hq⟩
  have hdone : ∀ sec'' p, some (LockSection.refresh none) = some sec'' → sec''.completion = some p →
      ∃ s, c.holder = some s ∧ s.completion = some p := by
    intro sec'' p hs hq
    cases hs
    cases hq
  cases sec with
  | refresh leader =>
    refine h.of_same h.counted rfl (fun k hk => hk) rfl (by rw [hsec]; rfl) (fun sec p hs => by cases hs) ?_
    intro key get id generation read hk hphase
    rcases get?_startLoad hk with hk | ⟨old, id', generation', _, _, _, rfl⟩
    · exact h.loads key get id generation read hk hphase
    · cases hphase
      exact List.length_replicate
  | fits p | evict p =>
    simp only [ReadCache.advance]
    split
    · exact h.of_same h.counted rfl (fun k hk => hk) rfl (by rw [hsec]; rfl) (hsame _ rfl) h.loads
    · exact h.of_same h.counted rfl (fun k hk => hk) rfl (by rw [hsec]; rfl) (hsame _ rfl) h.loads
  | pop p =>
    simp only [ReadCache.advance]
    split
    · exact h.of_same h.counted rfl (fun k hk => hk) rfl (by rw [hsec]; rfl) (hsame _ rfl) h.loads
    rename_i used start hfirst
    obtain ⟨e, he, hu⟩ := (h.counted.lru used start).mp (OrdMap.get?_of_first? hfirst)
    subst hu
    simp only [he]
    obtain ⟨hcounted, hle⟩ := h.counted.removeEntry he
    rw [weight, hsec] at hw
    obtain ⟨htotal, hexact⟩ := release_spec (le_trans hle (le_trans (Nat.le_add_right _ _) hw))
    obtain ⟨hlen, hnone⟩ := h.pending _ p hsec rfl
    refine ⟨⟨hcounted, ?_, fun sec q hs hq => ?_, h.loads⟩, ?_, hexact, Or.inl ?_⟩
    · simp only [Inner.removeEntry, Inner.freeBytes]
      have := h.fits
      omega
    · cases hs
      cases hq
      refine ⟨hlen, ?_⟩
      simp only [Inner.removeEntry, Inner.freeBytes, OrdMap.get?_erase]
      split
      · rfl
      · exact hnone
    · simp only [weight, hsec, Inner.removeEntry, Inner.freeBytes, Option.elim_some, LockSection.owed]
      omega
    · simp only [Inner.removeEntry, Inner.freeBytes]
      omega
  | reserve p =>
    obtain ⟨hlen, hnone⟩ := h.pending _ p hsec rfl
    simp only [ReadCache.advance]
    split
    · rename_i hcap
      split
      · refine ⟨⟨h.counted, h.fits, fun sec q hs hq => ?_, h.loads⟩, ?_, rfl, Or.inl (Nat.le_refl _)⟩
        · cases hs
          cases hq
          exact ⟨hlen, hnone⟩
        · simp only [weight, hsec, Option.elim_some, LockSection.owed]
          omega
      · rename_i hproc
        refine ⟨⟨?_, hcap, fun sec q hs hq => ?_, h.loads⟩, ?_, rfl, Or.inr (Nat.not_lt.mp hproc)⟩
        · exact h.counted.addEntry (e := { data := p.data, used := c.inner.tick + 1, last := now }) hnone (Nat.lt_succ_self _)
            rfl rfl rfl (by rw [hlen]) rfl
        · cases hs
          cases hq
        · simp only [weight, hsec, Option.elim_some, LockSection.owed]
          omega
    · exact h.of_same h.counted rfl (fun k hk => hk) rfl (by rw [hsec]; rfl) hdone h.loads
  | undo p =>
    rw [weight, hsec] at hw
    simp only [Option.elim_some, LockSection.owed] at hw
    refine ⟨⟨h.counted, h.fits, fun sec q hs hq => ?_, h.loads⟩, ?_, ?_, Or.inl (Nat.le_refl _)⟩
    · cases hs
      cases hq
    · simp only [ReadCache.advance, Shared.fetchSub, weight, hsec, Option.elim_some, LockSection.owed]
      omega
    · simp only [ReadCache.advance, Shared.fetchSub]
      rw [decide_eq_false (by omega), Bool.or_false]

/-- A lock section that lets some entries go and gives their bytes back. -/
theorem accounts_retain (h : c.Accounted) (hfree : c.holder = none)
    (hw : c.weight ≤ shared.total) (keep : Nat → Entry → Bool) (he : c'.inner.entries = (c.inner.retain keep).1.entries)
    (hl : c'.inner.lru = (c.inner.retain keep).1.lru) (hb : c'.inner.bytes = (c.inner.retain keep).1.bytes)
    (ht : c'.inner.tick = (c.inner.retain keep).1.tick) (hx : c'.inner.underflow = (c.inner.retain keep).1.underflow)
    (hc : c'.capacity = c.capacity) (hh : c'.holder = some (.refresh none)) (hg : c'.gets = c.gets) :
    Accounts processCap c shared c' (shared.release (c.inner.retain keep).2) := by
  obtain ⟨hcounted, hbytes⟩ := h.counted.retain keep
  rw [weight, hfree] at hw
  obtain ⟨htotal, hexact⟩ := release_spec (show (c.inner.retain keep).2 ≤ shared.total by simp only [Option.elim_none] at hw; omega)
  refine ⟨⟨hcounted.of_eq he hl hb ht.ge hx, ?_, fun sec p hs hq => ?_, by rw [hg]; exact h.loads⟩, ?_, hexact, Or.inl ?_⟩
  · rw [hb, hc]
    have := h.fits
    omega
  · rw [hh] at hs
    cases hs
    cases hq
  · rw [weight, weight, hfree, hh, hb]
    simp only [Option.elim_none, Option.elim_some, LockSection.owed]
    omega
  · rw [hb]
    omega

theorem accounts_invalidateAll (h : c.Accounted) (hfree : c.holder = none)
    (hw : c.weight ≤ shared.total) : Accounts processCap c shared (c.invalidateAll shared).1 (c.invalidateAll shared).2 := by
  rw [weight, hfree] at hw
  obtain ⟨htotal, hexact⟩ := release_spec (show c.inner.bytes ≤ shared.total by simpa using hw)
  refine ⟨⟨⟨rfl, fun t k => ?_, fun k e hk => ?_, h.counted.exact⟩, Nat.zero_le _, fun sec p hs hq => ?_, h.loads⟩, ?_, hexact,
    Or.inl (Nat.zero_le _)⟩
  · simp [ReadCache.invalidateAll]
  · simp [ReadCache.invalidateAll] at hk
  · cases hs
    cases hq
  · simp only [ReadCache.invalidateAll, weight, hfree, Option.elim_none, Option.elim_some, LockSection.owed]
    omega

/-- Steps that only change the gets and the writes. -/
theorem Accounted.of_gets (h : c.Accounted) (hi : c'.inner = c.inner)
    (hc : c'.capacity = c.capacity) (hh : c'.holder = c.holder)
    (hl : ∀ key get id generation read, c'.gets.get? key = some get → get.phase = .loading id generation read → read.length = get.len) :
    Accounts processCap c shared c' shared :=
  h.of_same (by rw [hi]; exact h.counted) (by rw [hi]) (fun k hk => by rw [hi]; exact hk) hc (by rw [hh])
    (fun sec p hs hq => ⟨sec, by rw [← hh]; exact hs, hq⟩) hl

theorem length_reduceOption {read : List (Option Byte)} (h : read.all Option.isSome = true) : read.reduceOption.length = read.length := by
  rw [List.reduceOption_length_eq_iff]
  exact List.all_eq_true.mp h

/-! ## What a step does -/

/-- What the events of a cache do, and when they can take place. -/
inductive Does (processCap : Nat) (c : ReadCache) (shared : Shared) : CacheEvent → ReadCache × Shared → Prop where
  | beginGet {key start len blockOff blockLen now : Nat} (hfree : c.holder = none) (hnew : c.gets.get? key = none)
      (hext : start + len ≤ maxOffset) (hoff : start ≤ blockOff) :
      Does processCap c shared (.beginGet key start len blockOff blockLen now) (c.beginGet key start len blockOff blockLen now, shared)
  | advance {now : Nat} {sec : LockSection} (hsec : c.holder = some sec) :
      Does processCap c shared (.advance now) (c.advance shared processCap now sec)
  | readByte {key k id generation : Nat} {get : Get} {read : List (Option Byte)} (hg : c.gets.get? key = some get)
      (hphase : get.phase = .loading id generation read) : Does processCap c shared (.readByte key k)
      ({ c with gets := c.gets.insert key { get with phase := .loading id generation (read.set k (c.disk (get.start + k))) } }, shared)
  | finishLoad {key id generation : Nat} {get : Get} {read : List (Option Byte)} (hg : c.gets.get? key = some get)
      (hphase : get.phase = .loading id generation read) (hfree : c.holder = none) (hread : read.all Option.isSome = true) :
      Does processCap c shared (.finishLoad key) (c.completeLoad shared key get id generation read.reduceOption)
  | failLoad {key id generation : Nat} {get : Get} {read : List (Option Byte)} (hg : c.gets.get? key = some get)
      (hphase : get.phase = .loading id generation read) :
      Does processCap c shared (.failLoad key) ({ c with gets := c.gets.insert key { get with phase := .failing id } }, shared)
  | closeGuard {key id : Nat} {get : Get} {data : List Byte} (hg : c.gets.get? key = some get) (hphase : get.phase = .closing id data)
      (hfree : c.holder = none) : Does processCap c shared (.dropGuard key) (c.dropGuard key get id (some (get.slice data)), shared)
  | failGuard {key id : Nat} {get : Get} (hg : c.gets.get? key = some get) (hfree : c.holder = none) :
      Does processCap c shared (.dropGuard key) (c.dropGuard key get id none, shared)
  | giveUp {key : Nat} {get : Get} (hg : c.gets.get? key = some get) :
      Does processCap c shared (.giveUp key) ({ c with gets := c.gets.insert key { get with phase := .done none } }, shared)
  | beginWrite {key offset len : Nat} : Does processCap c shared (.beginWrite key offset len)
      ({ c with writes := c.writes.insert key { offset := offset, len := len, stamps := fun _ => none, checked := false } }, shared)
  | writeByte {key k : Nat} {value : UInt8} {w : Write} (hw : c.writes.get? key = some w) :
      Does processCap c shared (.writeByte key k value) (c.writeByte key w k value, shared)
  | checkActive {key : Nat} {w : Write} (hw : c.writes.get? key = some w) :
      Does processCap c shared (.checkActive key) ({ c with writes := c.writes.insert key { w with checked := true } }, shared)
  | checkInactive {key : Nat} {w : Write} (hw : c.writes.get? key = some w) (hact : c.active = false) :
      Does processCap c shared (.checkActive key) ({ c with writes := c.writes.erase key, floor := w.raise c.floor }, shared)
  | invalidateRange {key : Nat} {w : Write} (hw : c.writes.get? key = some w) (hfree : c.holder = none) :
      Does processCap c shared (.invalidateRange key) (c.invalidateRange shared key w)
  | invalidateAll (hfree : c.holder = none) : Does processCap c shared .invalidateAll (c.invalidateAll shared)
  | trimIdle {now : Nat} (hfree : c.holder = none) : Does processCap c shared (.trimIdle now) (c.trimIdle shared now)

/-- A step of a cache does one of these things. -/
theorem does_of_apply {event : CacheEvent} {r : ReadCache × Shared}
    (hs : event.apply processCap c shared = some r) : Does processCap c shared event r := by
  have guarded : ∀ {p : Prop} [Decidable p] {x : ReadCache × Shared}, (if p then some x else none) = some r → p ∧ x = r := by
    intro p _ x h
    obtain ⟨hp, h⟩ := Option.ite_none_right_eq_some.mp h
    exact ⟨hp, Option.some.inj h⟩
  cases event <;> simp only [CacheEvent.apply] at hs
  case beginGet =>
    obtain ⟨⟨hfree, hnew, hext, hoff, -⟩, rfl⟩ := guarded hs
    exact .beginGet (Option.isNone_iff_eq_none.mp hfree) hnew hext hoff
  case advance =>
    obtain ⟨sec, hsec, rfl⟩ := Option.map_eq_some_iff.mp hs
    exact .advance hsec
  case beginWrite =>
    obtain ⟨-, rfl⟩ := guarded hs
    exact .beginWrite
  case invalidateAll =>
    obtain ⟨hfree, rfl⟩ := guarded hs
    exact .invalidateAll (Option.isNone_iff_eq_none.mp hfree)
  case trimIdle =>
    obtain ⟨hfree, rfl⟩ := guarded hs
    exact .trimIdle (Option.isNone_iff_eq_none.mp hfree)
  case writeByte =>
    split at hs
    · rename_i hw
      obtain ⟨-, rfl⟩ := guarded hs
      exact .writeByte hw
    · cases hs
  case checkActive =>
    split at hs
    · rename_i hw
      split at hs
      · cases hs
        exact .checkActive hw
      · rename_i hact
        cases hs
        exact .checkInactive hw (Bool.eq_false_iff.mpr hact)
    · cases hs
  case invalidateRange =>
    split at hs
    · rename_i hw
      obtain ⟨⟨hfree, -⟩, rfl⟩ := guarded hs
      exact .invalidateRange hw (Option.isNone_iff_eq_none.mp hfree)
    · cases hs
  case readByte =>
    split at hs
    · rename_i hg
      split at hs
      · rename_i hphase
        obtain ⟨-, rfl⟩ := guarded hs
        exact .readByte hg hphase
      · cases hs
    · cases hs
  case finishLoad =>
    split at hs
    · rename_i hg
      split at hs
      · rename_i hphase
        obtain ⟨⟨hfree, hread⟩, rfl⟩ := guarded hs
        exact .finishLoad hg hphase (Option.isNone_iff_eq_none.mp hfree) hread
      · cases hs
    · cases hs
  case failLoad =>
    split at hs
    · rename_i hg
      split at hs
      · rename_i hphase
        cases hs
        exact .failLoad hg hphase
      · cases hs
    · cases hs
  case dropGuard =>
    split at hs
    · rename_i hg
      split at hs
      · rename_i hphase
        obtain ⟨hfree, rfl⟩ := guarded hs
        exact .closeGuard hg hphase (Option.isNone_iff_eq_none.mp hfree)
      · obtain ⟨hfree, rfl⟩ := guarded hs
        exact .failGuard hg (Option.isNone_iff_eq_none.mp hfree)
      · cases hs
    · cases hs
  case giveUp =>
    split at hs
    · rename_i hg
      split at hs
      · cases hs
        exact .giveUp hg
      · cases hs
    · cases hs

theorem accounts_dropGuard (h : c.Accounted) (hfree : c.holder = none)
    (key : Nat) (get : Get) (id : Nat) (result : Option (List Byte)) :
    Accounts processCap c shared (c.dropGuard key get id result) shared := by
  refine h.of_same ?_ ?_ (fun k hk => ?_) rfl (by rw [hfree]; rfl) (fun sec p hs hq => ?_)
    (loads_insert _ _ h.loads (fun _ _ _ hp => by cases hp))
  · simp only [ReadCache.dropGuard]
    split
    · exact h.counted.of_eq rfl rfl rfl (Nat.le_refl _) rfl
    · exact h.counted
  · simp only [ReadCache.dropGuard]
    split <;> rfl
  · simp only [ReadCache.dropGuard]
    split <;> exact hk
  · cases hs
    cases hq

/-- Every step of a cache keeps the accounts. -/
theorem Accounted.apply (h : c.Accounted) (hw : c.weight ≤ shared.total)
    {event : CacheEvent} {r : ReadCache × Shared} (hs : event.apply processCap c shared = some r) :
    Accounts processCap c shared r.1 r.2 := by
  cases does_of_apply hs with
  | beginGet hfree => exact accounts_beginGet h hfree ..
  | advance hsec => exact accounts_advance h hw _ hsec
  | @readByte _ _ _ _ get _ hg hphase =>
    refine h.of_gets rfl rfl rfl (loads_insert _ _ h.loads (fun id' generation' read' hp => ?_))
    cases hp
    rw [List.length_set]
    exact h.loads _ get _ _ _ hg hphase
  | finishLoad hg hphase hfree hread =>
    exact accounts_completeLoad h hfree hw ((length_reduceOption hread).trans (h.loads _ _ _ _ _ hg hphase))
  | failLoad | giveUp => exact h.of_gets rfl rfl rfl (loads_insert _ _ h.loads (fun _ _ _ hp => by cases hp))
  | closeGuard _ _ hfree => exact accounts_dropGuard h hfree ..
  | failGuard _ hfree => exact accounts_dropGuard h hfree ..
  | beginWrite | writeByte | checkActive | checkInactive => exact h.of_gets rfl rfl rfl h.loads
  | invalidateRange hwrite hfree =>
    refine accounts_retain h hfree hw _ ?_ ?_ ?_ ?_ ?_ rfl rfl rfl
    all_goals
      simp only [ReadCache.invalidateRange]
      split <;> rfl
  | invalidateAll hfree => exact accounts_invalidateAll h hfree hw
  | trimIdle hfree => exact accounts_retain h hfree hw _ rfl rfl rfl rfl rfl rfl rfl rfl

end ReadCache

end Risuko
