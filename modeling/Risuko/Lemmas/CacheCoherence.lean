import Risuko.Lemmas.CacheAccounting

/-!
# The read cache is coherent

`Coherent` is what every step of a cache keeps: the bytes in the entries, and the bytes read by a load that is still registered,
are at least as new as the floors; the bytes of any get are at least as new as the floors it began with. The flag is unset only
while there is nothing an invalidation could miss: no entry, and no load that has read a byte.
-/

namespace Risuko

/-- The bytes of an extent are at least as new as some floors. -/
def NewerThan (floor : Nat → Nat) (start : Nat) (data : List Byte) : Prop := ∀ (k : Nat) (b : Byte), data[k]? = some b → floor (start + k) ≤ b.version

theorem NewerThan.mono {floor floor' : Nat → Nat} {start : Nat} {data : List Byte} (h : NewerThan floor start data)
    (hle : ∀ p, floor' p ≤ floor p) : NewerThan floor' start data := fun k b hk => le_trans (hle _) (h k b hk)

namespace ReadCache

variable {c c' : ReadCache} {get : Get} {key start k id : Nat} {w : Write} {read : List (Option Byte)}

/-- The load with this id is registered for this extent, if it is registered at all. -/
def Owns (c : ReadCache) (get : Get) (id : Nat) : Prop :=
  id ≤ c.inner.nextId ∧ ∀ start f, c.inner.inflight.get? start = some f → f.id = id → start = get.start ∧ f.len = get.len

/-- What a load has read: bytes as new as the floors its get began with, and as the floors now while it is registered. -/
def ReadSoFar (c : ReadCache) (get : Get) (id : Nat) (read : List (Option Byte)) : Prop :=
  read.length = get.len ∧ ∀ (k : Nat) (b : Byte), read[k]? = some (some b) → get.since (get.start + k) ≤ b.version ∧
    ∀ start f, c.inner.inflight.get? start = some f → f.id = id → c.floor (get.start + k) ≤ b.version

/-- What holds of a get in its phase. -/
def Right (c : ReadCache) (get : Get) : Prop :=
  match get.phase with
  | .registering id _ => c.Owns get id
  | .loading id _ read => c.Owns get id ∧ c.ReadSoFar get id read
  | .waiting => True
  | .closing _ data => NewerThan get.since get.start data
  | .failing _ => True
  | .done none => True
  | .done (some result) => NewerThan get.since get.blockOff result

structure Coherent (c : ReadCache) : Prop where
  disk : ∀ p, c.floor p ≤ (c.disk p).version
  stamps : ∀ key w k v, c.writes.get? key = some w → w.stamps k = some v → v ≤ (c.disk (w.offset + k)).version
  since : ∀ key get, c.gets.get? key = some get → (∀ p, get.since p ≤ c.floor p) ∧ get.start ≤ get.blockOff ∧ get.start + get.len ≤ maxOffset
  right : ∀ key get, c.gets.get? key = some get → c.Right get
  entries : ∀ start e, c.inner.entries.get? start = some e → start + e.data.length ≤ maxOffset ∧ NewerThan c.floor start e.data
  inflight : ∀ start f, c.inner.inflight.get? start = some f → f.id ≤ c.inner.nextId ∧ start + f.len ≤ maxOffset
  waiters : ∀ start f key, c.inner.inflight.get? start = some f → key ∈ f.waiters →
    ∃ get, c.gets.get? key = some get ∧ (get.phase = .waiting → get.start = start)
  pending : ∀ sec p, c.holder = some sec → sec.completion = some p → c.active = true ∧ p.start + p.data.length ≤ maxOffset ∧
    NewerThan c.floor p.start p.data
  unseen : c.active = false → (∀ start, c.inner.entries.get? start = none) ∧
    ∀ start f key get id generation read, c.inner.inflight.get? start = some f → c.gets.get? key = some get →
      get.phase = .loading id generation read → id ≠ f.id
  quiet : c.holder = none → c.active = false → ∀ start, c.inner.inflight.get? start = none

theorem coherent_new (capacity : Nat) (disk : Nat → UInt8) : (new capacity disk).Coherent where
  disk := fun _ => Nat.le_refl _
  stamps := fun _ _ _ _ h => by cases h
  since := fun _ _ h => by cases h
  right := fun _ _ h => by cases h
  entries := fun _ _ h => by cases h
  inflight := fun _ _ h => by cases h
  waiters := fun _ _ _ h => by cases h
  pending := fun _ _ h => by cases h
  unseen := fun _ => ⟨fun _ => rfl, fun _ _ _ _ _ _ _ h => by cases h⟩
  quiet := fun _ _ _ => rfl

/-! ## Parts of steps -/

/-- A get stays right when loads leave the table and floors stay. -/
theorem Right.of_sub (h : c.Right get) (hf : c'.floor = c.floor) (hn : c.inner.nextId ≤ c'.inner.nextId)
    (hi : ∀ start f, c'.inner.inflight.get? start = some f → (∃ f', c.inner.inflight.get? start = some f' ∧ f'.id = f.id ∧ f'.len = f.len) ∨
      c.inner.nextId < f.id) : c'.Right get := by
  have howns : ∀ id, c.Owns get id → c'.Owns get id := by
    intro id ho
    refine ⟨le_trans ho.1 hn, fun start f hs hid => ?_⟩
    rcases hi start f hs with ⟨f', hs', hid', hlen⟩ | hlt
    · obtain ⟨h1, h2⟩ := ho.2 start f' hs' (hid'.trans hid)
      exact ⟨h1, hlen ▸ h2⟩
    · have := ho.1
      omega
  unfold Right at h ⊢
  split at h
  · exact howns _ h
  · obtain ⟨ho, hlen, hread⟩ := h
    refine ⟨howns _ ho, hlen, fun k b hb => ⟨(hread k b hb).1, fun start f hs hid => ?_⟩⟩
    rcases hi start f hs with ⟨f', hs', hid', _⟩ | hlt
    · rw [hf]
      exact (hread k b hb).2 start f' hs' (hid'.trans hid)
    · have := ho.1
      omega
  · trivial
  · exact h
  · trivial
  · trivial
  · exact h

/-- A step under the lock that lets entries and loads go. -/
theorem Coherent.of_sub (h : c.Coherent) (hd : c'.disk = c.disk) (hf : c'.floor = c.floor) (hw : c'.writes = c.writes)
    (hg : c'.gets = c.gets) (hn : c'.inner.nextId = c.inner.nextId)
    (he : ∀ start e, c'.inner.entries.get? start = some e → ∃ e', c.inner.entries.get? start = some e' ∧ e'.data = e.data)
    (hi : ∀ start f, c'.inner.inflight.get? start = some f → c.inner.inflight.get? start = some f)
    (ha : c'.active = c.active)
    (hp : ∀ sec p, c'.holder = some sec → sec.completion = some p → c.active = true ∧ p.start + p.data.length ≤ maxOffset ∧
      NewerThan c.floor p.start p.data)
    (hq : c'.holder = none → c.holder = none) : c'.Coherent where
  disk := by rw [hd, hf]; exact h.disk
  stamps := by rw [hd, hw]; exact h.stamps
  since := by rw [hg, hf]; exact h.since
  right := by
    rw [hg]
    exact fun key get hk => (h.right key get hk).of_sub hf hn.ge (fun start f hs => Or.inl ⟨f, hi start f hs, rfl, rfl⟩)
  entries := by
    intro start e hs
    obtain ⟨e', hs', hdata⟩ := he start e hs
    rw [hf, ← hdata]
    exact h.entries start e' hs'
  inflight := fun start f hs => by rw [hn]; exact h.inflight start f (hi start f hs)
  waiters := by
    rw [hg]
    exact fun start f key hs => h.waiters start f key (hi start f hs)
  pending := by rw [ha, hf]; exact hp
  unseen := by
    rw [ha, hg]
    intro hact
    refine ⟨fun start => ?_, fun start f key get id generation read hs => (h.unseen hact).2 start f key get id generation read (hi start f hs)⟩
    cases hs : c'.inner.entries.get? start with
    | none => rfl
    | some e =>
      obtain ⟨e', hs', _⟩ := he start e hs
      rw [(h.unseen hact).1 start] at hs'
      cases hs'
  quiet := by
    intro hn' hact start
    rw [ha] at hact
    cases hs : c'.inner.inflight.get? start with
    | none => rfl
    | some f =>
      have := hi start f hs
      rw [h.quiet (hq hn') hact start] at this
      cases this

/-- Raising the floors over the range of a write, when nothing in the cache is in the range. -/
theorem Coherent.raise (h : c.Coherent) (hw : c.writes.get? key = some w)
    (hf : c'.floor = w.raise c.floor) (hd : c'.disk = c.disk) (hws : c'.writes = c.writes.erase key) (hg : c'.gets = c.gets)
    (hin : c'.inner = c.inner) (hh : c'.holder = c.holder) (ha : c'.active = c.active)
    (he : ∀ start e k, c.inner.entries.get? start = some e → k < e.data.length → ¬ (w.offset ≤ start + k ∧ start + k < w.offset + w.len))
    (hl : ∀ key get id generation read start f k, c.gets.get? key = some get → get.phase = .loading id generation read →
      c.inner.inflight.get? start = some f → f.id = id → k < read.length →
        ¬ (w.offset ≤ get.start + k ∧ get.start + k < w.offset + w.len))
    (hp : ∀ sec p, c.holder = some sec → sec.completion ≠ some p) : c'.Coherent := by
  have hmono : ∀ p, c.floor p ≤ c'.floor p := by
    intro p
    rw [hf]
    unfold Write.raise
    split
    · exact Nat.le_max_left _ _
    · exact Nat.le_refl _
  have hout : ∀ p, ¬ (w.offset ≤ p ∧ p < w.offset + w.len) → c'.floor p = c.floor p := by
    intro p hp
    rw [hf]
    unfold Write.raise
    rw [if_neg hp]
  refine ⟨fun p => ?_, fun key' w' k v hk => ?_, fun key' get hk => ?_, fun key' get hk => ?_, fun start e hs => ?_, ?_, ?_,
    fun sec p hs hq => ?_, ?_, ?_⟩
  · rw [hd, hf]
    unfold Write.raise
    split
    · rename_i hin
      refine Nat.max_le.mpr ⟨h.disk p, ?_⟩
      cases hst : w.stamps (p - w.offset) with
      | none => exact Nat.zero_le _
      | some v =>
        have := h.stamps key w _ v hw hst
        rwa [Nat.add_sub_cancel' hin.1] at this
    · exact h.disk p
  · rw [hd]
    rw [hws, OrdMap.get?_erase] at hk
    split at hk
    · cases hk
    · exact h.stamps key' w' k v hk
  · rw [hg] at hk
    obtain ⟨h1, h2⟩ := h.since key' get hk
    exact ⟨fun p => le_trans (h1 p) (hmono p), h2⟩
  · rw [hg] at hk
    have hright := h.right key' get hk
    unfold Right at hright ⊢
    split at hright
    · unfold Owns at hright ⊢
      rw [hin]
      exact hright
    · rename_i id generation read hphase
      obtain ⟨ho, hlen, hread⟩ := hright
      refine ⟨?_, hlen, fun k b hb => ⟨(hread k b hb).1, fun start f hs hid => ?_⟩⟩
      · unfold Owns at ho ⊢
        rw [hin]
        exact ho
      · rw [hin] at hs
        rw [hout _ (hl key' get id generation read start f k hk hphase hs hid (List.getElem?_eq_some_iff.mp hb).1)]
        exact (hread k b hb).2 start f hs hid
    · trivial
    · exact hright
    · trivial
    · trivial
    · exact hright
  · rw [hin] at hs
    obtain ⟨h1, h2⟩ := h.entries start e hs
    refine ⟨h1, fun k b hb => ?_⟩
    rw [hout _ (he start e k hs (List.getElem?_eq_some_iff.mp hb).1)]
    exact h2 k b hb
  · rw [hin]
    exact h.inflight
  · rw [hin, hg]
    exact h.waiters
  · rw [hh] at hs
    exact absurd hq (hp sec p hs)
  · rw [ha, hin, hg]
    exact h.unseen
  · rw [hh, ha, hin]
    exact h.quiet

/-- A get goes on to another phase. -/
theorem Coherent.set_get (h : c.Coherent) (hk : c.gets.get? key = some get) {phase : GetPhase}
    (hr : c.Right { get with phase := phase })
    (hl : ∀ id generation read, phase = .loading id generation read → ∃ generation' read', get.phase = .loading id generation' read')
    (hw : phase ≠ .waiting) : ({ c with gets := c.gets.insert key { get with phase := phase } } : ReadCache).Coherent := by
  have hcases : ∀ key' get', (c.gets.insert key { get with phase := phase }).get? key' = some get' →
      (key' = key ∧ get' = { get with phase := phase }) ∨ c.gets.get? key' = some get' := by
    intro key' get' hg
    rw [OrdMap.get?_insert] at hg
    split at hg
    · rename_i hkey
      cases hg
      exact Or.inl ⟨hkey, rfl⟩
    · exact Or.inr hg
  refine ⟨h.disk, h.stamps, fun key' get' hg => ?_, fun key' get' hg => ?_, h.entries, h.inflight, fun start f key' hs hm => ?_, h.pending,
    fun hact => ⟨(h.unseen hact).1, fun start f key' get' id generation read hs hg hp => ?_⟩, h.quiet⟩
  · rcases hcases key' get' hg with ⟨_, rfl⟩ | hg
    · exact h.since key get hk
    · exact h.since key' get' hg
  · rcases hcases key' get' hg with ⟨_, rfl⟩ | hg
    · exact hr
    · exact h.right key' get' hg
  · obtain ⟨get', hg, hstart⟩ := h.waiters start f key' hs hm
    by_cases hkey : key' = key
    · subst hkey
      exact ⟨_, OrdMap.get?_insert_self .., fun hwait => absurd hwait hw⟩
    · exact ⟨get', by rw [OrdMap.get?_insert_of_ne _ _ hkey]; exact hg, hstart⟩
  · rcases hcases key' get' hg with ⟨_, rfl⟩ | hg
    · obtain ⟨generation', read', hold⟩ := hl id generation read hp
      exact (h.unseen hact).2 start f key get id generation' read' hs hk hold
    · exact (h.unseen hact).2 start f key' get' id generation read hs hg hp

/-- A new get that loads nothing yet. -/
theorem Coherent.add_get (h : c.Coherent) (get : Get) (hk : c.gets.get? key = none)
    (hs : get.since = c.floor) (hb : get.start ≤ get.blockOff) (he : get.start + get.len ≤ maxOffset) (hr : c.Right get)
    (hl : ∀ id generation read, get.phase ≠ .loading id generation read) :
    ({ c with gets := c.gets.insert key get } : ReadCache).Coherent := by
  have hcases : ∀ key' get', (c.gets.insert key get).get? key' = some get' → get' = get ∨ c.gets.get? key' = some get' := by
    intro key' get' hg
    rw [OrdMap.get?_insert] at hg
    split at hg
    · cases hg
      exact Or.inl rfl
    · exact Or.inr hg
  refine ⟨h.disk, h.stamps, fun key' get' hg => ?_, fun key' get' hg => ?_, h.entries, h.inflight, fun start f key' hst hm => ?_,
    h.pending, fun hact => ⟨(h.unseen hact).1, fun start f key' get' id generation read hst hg hp => ?_⟩, h.quiet⟩
  · rcases hcases key' get' hg with rfl | hg
    · exact ⟨fun p => by rw [hs], hb, he⟩
    · exact h.since key' get' hg
  · rcases hcases key' get' hg with rfl | hg
    · exact hr
    · exact h.right key' get' hg
  · obtain ⟨get', hg, hstart⟩ := h.waiters start f key' hst hm
    have hne : key' ≠ key := by
      rintro rfl
      rw [hk] at hg
      cases hg
    exact ⟨get', by rw [OrdMap.get?_insert_of_ne _ _ hne]; exact hg, hstart⟩
  · rcases hcases key' get' hg with rfl | hg
    · exact absurd hp (hl id generation read)
    · exact (h.unseen hact).2 start f key' get' id generation read hst hg hp

/-- The block of data that is new enough is new enough. -/
theorem newerThan_slice {floor : Nat → Nat} {data : List Byte} (h : NewerThan floor get.start data)
    (hb : get.start ≤ get.blockOff) : NewerThan floor get.blockOff (get.slice data) := by
  intro k b hk
  unfold Get.slice at hk
  rw [List.getElem?_take] at hk
  split at hk
  · rw [List.getElem?_drop] at hk
    have := h _ b hk
    rwa [← Nat.add_assoc, Nat.add_sub_cancel' hb] at this
  · cases hk

/-- The waiters of a load get bytes as new as the floors they began with. -/
theorem Coherent.deliver (h : c.Coherent) {f : Inflight} (hf : c.inner.inflight.get? start = some f)
    {data : List Byte} (hnew : NewerThan c.floor start data) :
    ({ c with gets := ReadCache.deliver c.gets f.waiters data } : ReadCache).Coherent := by
  have hcases : ∀ key get', (ReadCache.deliver c.gets f.waiters data).get? key = some get' → c.gets.get? key = some get' ∨
      ∃ get, c.gets.get? key = some get ∧ key ∈ f.waiters ∧ get.phase = .waiting ∧
        get' = { get with phase := .done (some (get.slice data)) } := by
    intro key get' hg
    rw [ReadCache.deliver, OrdMap.get?_mapVal, Option.map_eq_some_iff] at hg
    obtain ⟨get, hget, heq⟩ := hg
    split at heq
    · rename_i hcond
      exact Or.inr ⟨get, hget, hcond.1, hcond.2, heq.symm⟩
    · exact Or.inl (heq ▸ hget)
  refine ⟨h.disk, h.stamps, fun key get' hg => ?_, fun key get' hg => ?_, h.entries, h.inflight, fun st f' key hs hm => ?_, h.pending,
    fun hact => ⟨(h.unseen hact).1, fun st f' key get' id generation read hs hg hp => ?_⟩, h.quiet⟩
  · rcases hcases key get' hg with hg | ⟨get, hold, _, _, rfl⟩
    · exact h.since key get' hg
    · exact h.since key get hold
  · rcases hcases key get' hg with hg | ⟨get, hold, hm, hwait, rfl⟩
    · exact h.right key get' hg
    · obtain ⟨get', hget', hstart⟩ := h.waiters start f key hf hm
      rw [hold] at hget'
      cases hget'
      obtain ⟨hsince, hblock, _⟩ := h.since key get hold
      have hnew' : NewerThan get.since get.start data := by
        rw [hstart hwait]
        exact hnew.mono hsince
      exact newerThan_slice hnew' hblock
  · obtain ⟨get, hg, hstart⟩ := h.waiters st f' key hs hm
    simp only [ReadCache.deliver, OrdMap.get?_mapVal, hg, Option.map_some]
    refine ⟨_, rfl, fun hwait => ?_⟩
    split at hwait
    · cases hwait
    · rename_i hno
      rw [if_neg hno]
      exact hstart hwait
  · rcases hcases key get' hg with hg | ⟨get, hg, _, _, rfl⟩
    · exact (h.unseen hact).2 st f' key get' id generation read hs hg hp
    · cases hp

/-! ## Gets -/

theorem getElem?_reduceOption (h : read.all Option.isSome = true) {b : Byte}
    (hk : read.reduceOption[k]? = some b) : read[k]? = some (some b) := by
  have hmap : ∀ read : List (Option Byte), read.all Option.isSome = true → read.reduceOption.map some = read := by
    intro read
    induction read with
    | nil => exact fun _ => rfl
    | cons x rest ih =>
      intro h
      rw [List.all_cons, Bool.and_eq_true] at h
      obtain ⟨y, rfl⟩ := Option.isSome_iff_exists.mp h.1
      rw [List.reduceOption_cons_of_some, List.map_cons, ih h.2]
  rw [← hmap read h, List.getElem?_map, hk]
  rfl

theorem Coherent.beginGet (h : c.Coherent) (hfree : c.holder = none) {len blockOff blockLen : Nat} (now : Nat)
    (hk : c.gets.get? key = none) (hext : start + len ≤ maxOffset) (hb : start ≤ blockOff) :
    (c.beginGet key start len blockOff blockLen now).Coherent := by
  unfold ReadCache.beginGet
  simp only
  split
  · -- a hit: the entry's data does not change
    rename_i e he
    have hget : c.inner.entries.get? start = some e := (Option.filter_eq_some_iff.mp he).1
    have hmid : ({ c with inner := ({ c.inner with tick := c.inner.tick + 1 } : Inner).touch start e now } : ReadCache).Coherent := by
      refine h.of_sub rfl rfl rfl rfl rfl (fun st e' hs => ?_) (fun _ _ hs => hs) rfl h.pending (fun hn => hn)
      simp only [Inner.touch, OrdMap.get?_insert] at hs
      split at hs
      · rename_i hst
        cases hs
        exact ⟨e, by rw [hst]; exact hget, rfl⟩
      · exact ⟨e', hs, rfl⟩
    exact hmid.add_get _ hk rfl hb hext (newerThan_slice (h.entries start e hget).2 hb) (fun _ _ _ => GetPhase.noConfusion)
  rename_i hmiss
  split
  · -- a waiter joins the load of the extent
    rename_i f hf
    have hget : c.inner.inflight.get? start = some f := (Option.filter_eq_some_iff.mp hf).1
    have hmid := h.add_get ⟨start, len, blockOff, blockLen, c.floor, .waiting⟩ hk rfl hb hext trivial
      (fun _ _ _ => GetPhase.noConfusion)
    have hinf : ∀ st f', (c.inner.inflight.insert start { f with waiters := f.waiters ++ [key] }).get? st = some f' →
        ∃ f₀, c.inner.inflight.get? st = some f₀ ∧ f₀.id = f'.id ∧ f₀.len = f'.len := by
      intro st f' hs
      rw [OrdMap.get?_insert] at hs
      split at hs
      · rename_i hst
        cases hs
        exact ⟨f, by rw [hst]; exact hget, rfl, rfl⟩
      · exact ⟨f', hs, rfl, rfl⟩
    refine ⟨hmid.disk, hmid.stamps, hmid.since, fun key' get hg => ?_, hmid.entries, fun st f' hs => ?_, fun st f' key' hs hm => ?_,
      hmid.pending, fun hact => ?_, fun _ hact => ?_⟩
    · exact (hmid.right key' get hg).of_sub rfl (Nat.le_refl _) (fun st f' hs => Or.inl (hinf st f' hs))
    · obtain ⟨f₀, hs₀, hid, hlen⟩ := hinf st f' hs
      rw [← hid, ← hlen]
      exact h.inflight st f₀ hs₀
    · simp only [OrdMap.get?_insert] at hs
      split at hs
      · rename_i hst
        cases hs
        rcases List.mem_append.mp hm with hm | hm
        · exact hst ▸ hmid.waiters start f key' hget hm
        · rw [List.mem_singleton] at hm
          subst hm
          exact ⟨_, OrdMap.get?_insert_self .., fun _ => hst.symm⟩
      · exact hmid.waiters st f' key' hs hm
    · rw [h.quiet hfree hact start] at hget
      cases hget
    · rw [h.quiet hfree hact start] at hget
      cases hget
  · -- a leader registers a load under a new id
    have hinf : ∀ st f', (c.inner.inflight.insert start { id := c.inner.nextId + 1, len := len, waiters := [] }).get? st = some f' →
        (st = start ∧ f' = { id := c.inner.nextId + 1, len := len, waiters := [] }) ∨ c.inner.inflight.get? st = some f' := by
      intro st f' hs
      rw [OrdMap.get?_insert] at hs
      split at hs
      · rename_i hst
        cases hs
        exact Or.inl ⟨hst, rfl⟩
      · exact Or.inr hs
    have hmid : ({ c with
        inner := { c.inner with
          tick := c.inner.tick + 1
          nextId := c.inner.nextId + 1
          inflight := c.inner.inflight.insert start { id := c.inner.nextId + 1, len := len, waiters := [] } }
        holder := some (.refresh (some key)) } : ReadCache).Coherent := by
      refine ⟨h.disk, h.stamps, h.since, fun key' get hg => ?_, h.entries, fun st f' hs => ?_, fun st f' key' hs hm => ?_,
        fun sec p hs hq => ?_, fun hact => ⟨(h.unseen hact).1, fun st f' key' get id generation read hs hg hp => ?_⟩, fun hn => by cases hn⟩
      · refine (h.right key' get hg).of_sub rfl (Nat.le_succ _) (fun st f' hs => ?_)
        rcases hinf st f' hs with ⟨_, rfl⟩ | hs
        · exact Or.inr (Nat.lt_succ_self _)
        · exact Or.inl ⟨f', hs, rfl, rfl⟩
      · rcases hinf st f' hs with ⟨rfl, rfl⟩ | hs
        · exact ⟨Nat.le_refl _, hext⟩
        · exact ⟨le_trans (h.inflight st f' hs).1 (Nat.le_succ _), (h.inflight st f' hs).2⟩
      · rcases hinf st f' hs with ⟨_, rfl⟩ | hs
        · cases hm
        · exact h.waiters st f' key' hs hm
      · cases hs
        cases hq
      · rcases hinf st f' hs with ⟨_, rfl⟩ | hs
        · have hright := h.right key' get hg
          unfold Right at hright
          rw [hp] at hright
          have := hright.1.1
          simp only
          omega
        · exact (h.unseen hact).2 st f' key' get id generation read hs hg hp
    refine hmid.add_get _ hk rfl hb hext ?_ (fun _ _ _ => GetPhase.noConfusion)
    refine ⟨Nat.le_refl _, fun st f' hs hid => ?_⟩
    rcases hinf st f' hs with ⟨rfl, rfl⟩ | hs
    · exact ⟨rfl, rfl⟩
    · have := (h.inflight st f' hs).1
      omega

theorem Coherent.readByte (h : c.Coherent) {generation : Nat}
    (hg : c.gets.get? key = some get) (hp : get.phase = .loading id generation read) :
    ({ c with gets := c.gets.insert key { get with
        phase := .loading id generation (read.set k (some (c.disk (get.start + k)))) } } : ReadCache).Coherent := by
  have hright := h.right key get hg
  unfold Right at hright
  rw [hp] at hright
  obtain ⟨ho, hlen, hread⟩ := hright
  refine h.set_get hg ⟨ho, by rw [List.length_set]; exact hlen, fun j b hb => ?_⟩ (fun id' generation' read' he => ?_)
    GetPhase.noConfusion
  · rw [List.getElem?_set] at hb
    split at hb
    · rename_i hkj
      subst hkj
      split at hb
      · cases hb
        exact ⟨le_trans ((h.since key get hg).1 _) (h.disk _), fun _ _ _ _ => h.disk _⟩
      · cases hb
    · exact hread j b hb
  · cases he
    exact ⟨generation, read, hp⟩

theorem Coherent.completeLoad (h : c.Coherent) (hfree : c.holder = none) (shared : Shared) {generation : Nat}
    (hg : c.gets.get? key = some get) (hp : get.phase = .loading id generation read)
    (hall : read.all Option.isSome = true) : (c.completeLoad shared key get id generation read.reduceOption).1.Coherent := by
  have hright := h.right key get hg
  unfold Right at hright
  rw [hp] at hright
  obtain ⟨ho, hlen, hread⟩ := hright
  have hsince : NewerThan get.since get.start read.reduceOption := fun k b hk => (hread k b (getElem?_reduceOption hall hk)).1
  have hmid : ({ c with gets := c.gets.insert key { get with phase := .closing id read.reduceOption } } : ReadCache).Coherent :=
    h.set_get hg hsince (fun _ _ _ he => by cases he) GetPhase.noConfusion
  unfold ReadCache.completeLoad
  simp only
  split
  · rename_i hours
    obtain ⟨f, hf, hid⟩ : ∃ f, c.inner.inflight.get? get.start = some f ∧ f.id = id := by
      unfold Inner.ours at hours
      cases hf : c.inner.inflight.get? get.start with
      | none =>
        rw [hf] at hours
        cases hours
      | some f =>
        rw [hf] at hours
        exact ⟨f, rfl, by simpa using hours⟩
    have hfloor : NewerThan c.floor get.start read.reduceOption :=
      fun k b hk => (hread k b (getElem?_reduceOption hall hk)).2 get.start f hf hid
    have hactive : c.active = true := by
      by_contra hact
      rw [h.quiet hfree (Bool.eq_false_iff.mpr hact) get.start] at hf
      cases hf
    have hdel := hmid.deliver hf hfloor
    have hinf : ∀ start f', (c.inner.inflight.erase get.start).get? start = some f' → c.inner.inflight.get? start = some f' := by
      intro start f' hs
      rw [OrdMap.get?_erase] at hs
      split at hs
      · cases hs
      · exact hs
    have hpend : ∀ sec p, some (LockSection.fits ⟨get.start, get.len, read.reduceOption⟩) = some sec → sec.completion = some p →
        c.active = true ∧ p.start + p.data.length ≤ maxOffset ∧ NewerThan c.floor p.start p.data := by
      intro sec p hs hq
      cases hs
      cases hq
      refine ⟨hactive, ?_, hfloor⟩
      rw [length_reduceOption hall, hlen]
      exact (h.since key get hg).2.2
    simp only [hf, Option.elim_some]
    split
    · split
      · exact hdel.of_sub rfl rfl rfl rfl rfl (fun _ e hs => ⟨e, hs, rfl⟩) hinf rfl hpend (fun hn => by cases hn)
      refine hdel.of_sub rfl rfl rfl rfl rfl (fun start e hs => ?_) hinf rfl hpend (fun hn => by cases hn)
      simp only [Inner.removeEntry, Inner.freeBytes, OrdMap.get?_erase] at hs
      split at hs
      · cases hs
      · exact ⟨e, hs, rfl⟩
    · refine hdel.of_sub rfl rfl rfl rfl rfl (fun _ e hs => ⟨e, hs, rfl⟩) hinf rfl (fun sec p hs hq => ?_) (fun hn => by cases hn)
      cases hs
      cases hq
  · refine hmid.of_sub rfl rfl rfl rfl rfl (fun _ e hs => ⟨e, hs, rfl⟩) (fun _ _ hs => hs) rfl (fun sec p hs hq => ?_)
      (fun hn => by cases hn)
    cases hs
    cases hq

theorem Coherent.dropGuard (h : c.Coherent) (hg : c.gets.get? key = some get)
    {result : Option (List Byte)} (hr : c.Right { get with phase := .done result }) : (c.dropGuard key get id result).Coherent := by
  have hmid := h.set_get hg hr (fun _ _ _ he => by cases he) GetPhase.noConfusion
  refine hmid.of_sub rfl rfl rfl rfl ?_ (fun start e hs => ⟨e, ?_, rfl⟩) (fun start f hs => ?_) rfl (fun sec p hs hq => ?_)
    (fun hn => by cases hn)
  · simp only [ReadCache.dropGuard]
    split <;> rfl
  · simp only [ReadCache.dropGuard] at hs
    split at hs <;> exact hs
  · simp only [ReadCache.dropGuard] at hs
    split at hs
    · rw [OrdMap.get?_erase] at hs
      split at hs
      · cases hs
      · exact hs
    · exact hs
  · cases hs
    cases hq

/-! ## The lock holder -/

theorem Coherent.refresh (h : c.Coherent) (leader : Option Nat) :
    ({ c with active := c.inner.inUse, holder := none, gets := startLoad c.gets leader } : ReadCache).Coherent := by
  have hempty : c.inner.inUse = false →
      (∀ start, c.inner.entries.get? start = none) ∧ ∀ start, c.inner.inflight.get? start = none := by
    intro hu
    simp only [Inner.inUse, Bool.or_eq_false_iff, Bool.not_eq_false'] at hu
    exact ⟨OrdMap.isEmpty_iff.mp hu.1, OrdMap.isEmpty_iff.mp hu.2⟩
  refine ⟨h.disk, h.stamps, fun key get hg => ?_, fun key get hg => ?_, h.entries, h.inflight, fun start f key hs hm => ?_,
    fun sec p hs => (by cases hs), fun hact => ⟨(hempty hact).1, fun start f key get id generation read hs => ?_⟩,
    fun _ hact => (hempty hact).2⟩
  · rcases get?_startLoad hg with hg | ⟨old, id, generation, hold, _, _, rfl⟩
    · exact h.since key get hg
    · exact h.since key old hold
  · rcases get?_startLoad hg with hg | ⟨old, id, generation, hold, hphase, _, rfl⟩
    · exact h.right key get hg
    · have hright := h.right key old hold
      unfold Right at hright
      rw [hphase] at hright
      refine ⟨hright, List.length_replicate, fun k b hb => ?_⟩
      rw [List.getElem?_replicate] at hb
      split at hb <;> cases hb
  · obtain ⟨get, hg, hstart⟩ := h.waiters start f key hs hm
    simp only [startLoad, OrdMap.get?_mapVal, hg, Option.map_some]
    refine ⟨_, rfl, fun hwait => ?_⟩
    split at hwait
    · split at hwait
      · cases hwait
      · rename_i hphase _
        rw [hphase] at hwait
        cases hwait
    · exact hstart hwait
  · rw [(hempty hact).2 start] at hs
    cases hs

theorem Coherent.advance (h : c.Coherent) (shared : Shared) (processCap now : Nat) {sec : LockSection}
    (hsec : c.holder = some sec) : (c.advance shared processCap now sec).1.Coherent := by
  have hnext : ∀ sec' : LockSection, sec'.completion = sec.completion ∨ sec'.completion = none →
      ∀ sec'' p, some sec' = some sec'' → sec''.completion = some p →
        c.active = true ∧ p.start + p.data.length ≤ maxOffset ∧ NewerThan c.floor p.start p.data := by
    intro sec' hc sec'' p hs hq
    cases hs
    rcases hc with hc | hc
    · exact h.pending sec p hsec (hc ▸ hq)
    · rw [hc] at hq
      cases hq
  have hstay : ∀ sec' : LockSection, sec'.completion = sec.completion ∨ sec'.completion = none →
      ({ c with holder := some sec' } : ReadCache).Coherent := fun sec' hc =>
    h.of_sub rfl rfl rfl rfl rfl (fun _ e hs => ⟨e, hs, rfl⟩) (fun _ _ hs => hs) rfl (hnext sec' hc) (fun hn => by cases hn)
  cases sec with
  | refresh leader => exact h.refresh leader
  | fits p | evict p =>
    simp only [ReadCache.advance]
    split
    · exact hstay _ (Or.inl rfl)
    · exact hstay _ (Or.inl rfl)
  | pop p =>
    simp only [ReadCache.advance]
    split
    · exact hstay _ (Or.inl rfl)
    split
    · exact h.of_sub rfl rfl rfl rfl rfl (fun _ e hs => ⟨e, hs, rfl⟩) (fun _ _ hs => hs) rfl (hnext _ (Or.inl rfl)) (fun hn => by cases hn)
    refine h.of_sub rfl rfl rfl rfl rfl (fun start e hs => ?_) (fun _ _ hs => hs) rfl (hnext _ (Or.inl rfl)) (fun hn => by cases hn)
    simp only [Inner.removeEntry, Inner.freeBytes, OrdMap.get?_erase] at hs
    split at hs
    · cases hs
    · exact ⟨e, hs, rfl⟩
  | reserve p =>
    obtain ⟨hactive, hext, hnew⟩ := h.pending _ p hsec rfl
    simp only [ReadCache.advance]
    split
    · split
      · exact hstay _ (Or.inl rfl)
      · -- the bytes are still as new as the floors: the lock was held since they were checked
        refine ⟨h.disk, h.stamps, h.since, fun key get hg => ?_, fun start e hs => ?_, h.inflight, h.waiters,
          fun sec q hs hq => ?_, fun hact => ?_, fun hn => by cases hn⟩
        · exact (h.right key get hg).of_sub rfl (Nat.le_refl _) (fun _ f hs => Or.inl ⟨f, hs, rfl, rfl⟩)
        · simp only [OrdMap.get?_insert] at hs
          split at hs
          · rename_i hst
            cases hs
            rw [hst]
            exact ⟨hext, hnew⟩
          · exact h.entries start e hs
        · cases hs
          cases hq
        · simp only [hactive] at hact
          cases hact
    · exact hstay _ (Or.inr rfl)
  | undo p => exact hstay _ (Or.inr rfl)

/-! ## Writes and invalidations -/

theorem Coherent.writeByte (h : c.Coherent) (hw : c.writes.get? key = some w) (k : Nat) (value : UInt8) :
    (c.writeByte key w k value).Coherent := by
  have hmono : ∀ p, (c.disk p).version ≤ ((c.writeByte key w k value).disk p).version := by
    intro p
    simp only [ReadCache.writeByte, Function.update_apply]
    split
    · rename_i hp
      rw [hp]
      exact Nat.le_succ _
    · exact Nat.le_refl _
  refine ⟨fun p => le_trans (h.disk p) (hmono p), fun key' w' j v hk hst => ?_, h.since, h.right, h.entries, h.inflight, h.waiters,
    h.pending, h.unseen, h.quiet⟩
  simp only [ReadCache.writeByte, OrdMap.get?_insert] at hk
  split at hk
  · cases hk
    simp only [Function.update_apply] at hst
    split at hst
    · rename_i hj
      cases hst
      rw [hj]
      simp [ReadCache.writeByte]
    · exact le_trans (h.stamps key w j v hw hst) (hmono _)
  · exact le_trans (h.stamps key' w' j v hk hst) (hmono _)

/-- A write whose stamps are those of an old one, or none. -/
theorem Coherent.set_write (h : c.Coherent)
    (hs : ∀ k v, w.stamps k = some v → v ≤ (c.disk (w.offset + k)).version) :
    ({ c with writes := c.writes.insert key w } : ReadCache).Coherent := by
  refine ⟨h.disk, fun key' w' k v hk hst => ?_, h.since, h.right, h.entries, h.inflight, h.waiters, h.pending, h.unseen, h.quiet⟩
  rw [OrdMap.get?_insert] at hk
  split at hk
  · cases hk
    exact hs k v hst
  · exact h.stamps key' w' k v hk hst

/-- An invalidation that sees the flag unset misses nothing. -/
theorem Coherent.unseen_write (h : c.Coherent) (hw : c.writes.get? key = some w)
    (hact : c.active = false) : ({ c with writes := c.writes.erase key, floor := w.raise c.floor } : ReadCache).Coherent := by
  refine h.raise hw rfl rfl rfl rfl rfl rfl rfl (fun start e k hs => ?_) (fun key' get id generation read start f k hg hp hs hid => ?_)
    (fun sec p hs hq => ?_)
  · rw [(h.unseen hact).1 start] at hs
    cases hs
  · exact absurd hid.symm ((h.unseen hact).2 start f key' get id generation read hs hg hp)
  · rw [(h.pending sec p hs hq).1] at hact
    cases hact

/-- What does not overlap the range of a write has no position in it. -/
theorem not_mem_of_not_overlaps {n : Nat} (hext : start + n ≤ maxOffset)
    (h : overlaps w.offset (min (w.offset + w.len) maxOffset) start n = false) (hk : k < n) :
    ¬ (w.offset ≤ start + k ∧ start + k < w.offset + w.len) := by
  unfold overlaps at h
  rw [Bool.and_eq_false_iff, decide_eq_false_iff_not, decide_eq_false_iff_not] at h
  omega

theorem Coherent.invalidateRange (h : c.Coherent) (shared : Shared)
    (hw : c.writes.get? key = some w) : (c.invalidateRange shared key w).1.Coherent := by
  -- first what overlaps goes, then the floors rise
  have hentries : ∀ start e, (c.invalidateRange shared key w).1.inner.entries.get? start = some e → c.inner.entries.get? start = some e ∧
      overlaps w.offset (min (w.offset + w.len) maxOffset) start e.data.length = false := by
    intro start e hs
    have hs' : (c.inner.entries.filter (fun start e => !overlaps w.offset (min (w.offset + w.len) maxOffset) start e.data.length)).get? start =
        some e := by
      simp only [ReadCache.invalidateRange] at hs
      split at hs <;> exact hs
    obtain ⟨h1, h2⟩ := OrdMap.get?_filter_eq_some.mp hs'
    exact ⟨h1, by simpa using h2⟩
  have hinflight : ∀ start f, (c.invalidateRange shared key w).1.inner.inflight.get? start = some f →
      c.inner.inflight.get? start = some f ∧ overlaps w.offset (min (w.offset + w.len) maxOffset) start f.len = false := by
    intro start f hs
    have hs' : (c.inner.inflight.filter (fun start f => !overlaps w.offset (min (w.offset + w.len) maxOffset) start f.len)).get? start =
        some f := by
      simp only [ReadCache.invalidateRange] at hs
      split at hs <;> exact hs
    obtain ⟨h1, h2⟩ := OrdMap.get?_filter_eq_some.mp hs'
    exact ⟨h1, by simpa using h2⟩
  have hmid : ({ c with inner := (c.invalidateRange shared key w).1.inner, holder := some (.refresh none) } : ReadCache).Coherent := by
    refine h.of_sub rfl rfl rfl rfl ?_ (fun start e hs => ⟨e, (hentries start e hs).1, rfl⟩) (fun start f hs => (hinflight start f hs).1) rfl
      (fun sec p hs hq => ?_) (fun hn => by cases hn)
    · simp only [ReadCache.invalidateRange]
      split <;> rfl
    · cases hs
      cases hq
  refine hmid.raise hw rfl rfl rfl rfl rfl rfl rfl (fun start e k hs hk => ?_) (fun key' get id generation read start f k hg hp hs hid hk => ?_)
    (fun sec p hs hq => ?_)
  · obtain ⟨h1, h2⟩ := hentries start e hs
    exact not_mem_of_not_overlaps (h.entries start e h1).1 h2 hk
  · obtain ⟨h1, h2⟩ := hinflight start f hs
    have hright := h.right key' get hg
    unfold Right at hright
    rw [hp] at hright
    obtain ⟨rfl, hlen⟩ := hright.1.2 start f h1 hid
    refine not_mem_of_not_overlaps (h.inflight _ f h1).2 h2 ?_
    rw [hlen, ← hright.2.1]
    exact hk
  · cases hs
    cases hq

/-- Every step keeps the cache coherent. -/
theorem Coherent.apply {shared : Shared} {processCap : Nat} (h : c.Coherent) {event : CacheEvent}
    {r : ReadCache × Shared} (hs : event.apply processCap c shared = some r) : r.1.Coherent := by
  have hlocked : ∀ sec p, some (LockSection.refresh none) = some sec → sec.completion = some p →
      c.active = true ∧ p.start + p.data.length ≤ maxOffset ∧ NewerThan c.floor p.start p.data := by
    intro sec p hs hq
    cases hs
    cases hq
  cases does_of_apply hs with
  | beginGet hfree hnew hext hoff => exact h.beginGet hfree _ hnew hext hoff
  | advance hsec => exact h.advance _ _ _ hsec
  | readByte hg hphase => exact h.readByte hg hphase
  | finishLoad hg hphase hfree hread => exact h.completeLoad hfree _ hg hphase hread
  | failLoad hg | giveUp hg => exact h.set_get hg trivial (fun _ _ _ he => by cases he) GetPhase.noConfusion
  | @closeGuard key _ get _ hg hphase =>
    have hright := h.right key get hg
    unfold Right at hright
    rw [hphase] at hright
    exact h.dropGuard hg (newerThan_slice hright (h.since key get hg).2.1)
  | failGuard hg => exact h.dropGuard hg trivial
  | beginWrite => exact h.set_write (fun _ _ hst => by cases hst)
  | writeByte hw => exact h.writeByte hw _ _
  | @checkActive key w hw => exact h.set_write (fun k v hst => h.stamps key w k v hw hst)
  | checkInactive hw hact => exact h.unseen_write hw hact
  | invalidateRange hw => exact h.invalidateRange _ hw
  | invalidateAll =>
    exact h.of_sub rfl rfl rfl rfl rfl (fun _ _ he => by cases he) (fun _ _ he => by cases he) rfl hlocked (fun hn => by cases hn)
  | trimIdle =>
    exact h.of_sub rfl rfl rfl rfl rfl (fun _ e he => ⟨e, (OrdMap.get?_filter_eq_some.mp he).1, rfl⟩) (fun _ _ hf => hf) rfl hlocked
      (fun hn => by cases hn)

/-! ## The floors a get begins with -/

theorem le_raise (w : Write) (floor : Nat → Nat) (p : Nat) : floor p ≤ w.raise floor p := by
  unfold Write.raise
  split
  · exact Nat.le_max_left _ _
  · exact Nat.le_refl _

/-- What a step does to the gets: it keeps the floors they began with, and a new one begins with the floors of now. -/
structure Begins (c c' : ReadCache) : Prop where
  floor : ∀ p, c.floor p ≤ c'.floor p
  since : ∀ key get', c'.gets.get? key = some get' → (∃ get, c.gets.get? key = some get ∧ get.since = get'.since) ∨ get'.since = c.floor

theorem begins_of_insert {get' : Get} (hf : ∀ p, c.floor p ≤ c'.floor p)
    (hg : c.gets.get? key = some get) (hc : c'.gets = c.gets.insert key get') (hs : get'.since = get.since) : Begins c c' := by
  refine ⟨hf, fun key' get'' hk => Or.inl ?_⟩
  rw [hc, OrdMap.get?_insert] at hk
  split at hk
  · rename_i hkey
    cases hk
    exact ⟨get, by rw [hkey]; exact hg, hs.symm⟩
  · exact ⟨get'', hk, rfl⟩

theorem begins_of_same (hf : ∀ p, c.floor p ≤ c'.floor p) (hg : c'.gets = c.gets) : Begins c c' :=
  ⟨hf, fun key get hk => Or.inl ⟨get, by rw [← hg]; exact hk, rfl⟩⟩

theorem begins_beginGet (c : ReadCache) (key start len blockOff blockLen now : Nat) :
    Begins c (c.beginGet key start len blockOff blockLen now) := by
  have hins : ∀ (get : Get), get.since = c.floor → ∀ key' get', (c.gets.insert key get).get? key' = some get' →
      (∃ old, c.gets.get? key' = some old ∧ old.since = get'.since) ∨ get'.since = c.floor := by
    intro get hs key' get' hk
    rw [OrdMap.get?_insert] at hk
    split at hk
    · cases hk
      exact Or.inr hs
    · exact Or.inl ⟨get', hk, rfl⟩
  unfold ReadCache.beginGet
  simp only
  split
  · exact ⟨fun _ => Nat.le_refl _, hins _ rfl⟩
  split
  · exact ⟨fun _ => Nat.le_refl _, hins _ rfl⟩
  · exact ⟨fun _ => Nat.le_refl _, hins _ rfl⟩

theorem begins_completeLoad (shared : Shared) (hg : c.gets.get? key = some get)
    (id generation : Nat) (data : List Byte) : Begins c (c.completeLoad shared key get id generation data).1 := by
  have hclose : ∀ key' get', (c.gets.insert key { get with phase := .closing id data }).get? key' = some get' →
      ∃ old, c.gets.get? key' = some old ∧ old.since = get'.since := by
    intro key' get' hk
    rw [OrdMap.get?_insert] at hk
    split at hk
    · rename_i hkey
      cases hk
      exact ⟨get, by rw [hkey]; exact hg, rfl⟩
    · exact ⟨get', hk, rfl⟩
  have hdeliver : ∀ waiters key' get', (ReadCache.deliver (c.gets.insert key { get with phase := .closing id data }) waiters data).get? key' =
      some get' → ∃ old, c.gets.get? key' = some old ∧ old.since = get'.since := by
    intro waiters key' get' hk
    rw [ReadCache.deliver, OrdMap.get?_mapVal, Option.map_eq_some_iff] at hk
    obtain ⟨old, hold, heq⟩ := hk
    obtain ⟨old', hold', hs⟩ := hclose key' old hold
    refine ⟨old', hold', hs.trans ?_⟩
    split at heq <;> rw [← heq]
  unfold ReadCache.completeLoad
  simp only
  split
  · split
    · split
      · exact ⟨fun _ => Nat.le_refl _, fun key' get' hk => Or.inl (hdeliver _ key' get' hk)⟩
      · exact ⟨fun _ => Nat.le_refl _, fun key' get' hk => Or.inl (hdeliver _ key' get' hk)⟩
    · exact ⟨fun _ => Nat.le_refl _, fun key' get' hk => Or.inl (hdeliver _ key' get' hk)⟩
  · exact ⟨fun _ => Nat.le_refl _, fun key' get' hk => Or.inl (hclose key' get' hk)⟩

theorem begins_advance (c : ReadCache) (shared : Shared) (processCap now : Nat) (sec : LockSection) :
    Begins c (c.advance shared processCap now sec).1 := by
  have hsame : ∀ c' : ReadCache, c'.floor = c.floor → c'.gets = c.gets → Begins c c' :=
    fun c' hf hg => begins_of_same (fun p => by rw [hf]) hg
  cases sec with
  | refresh leader =>
    refine ⟨fun _ => Nat.le_refl _, fun key get' hk => Or.inl ?_⟩
    rcases get?_startLoad hk with hk | ⟨old, _, _, hold, _, _, rfl⟩
    · exact ⟨get', hk, rfl⟩
    · exact ⟨old, hold, rfl⟩
  | fits p => exact hsame _ rfl rfl
  | evict p => exact hsame _ rfl rfl
  | pop p =>
    simp only [ReadCache.advance]
    split
    · exact hsame _ rfl rfl
    · split <;> exact hsame _ rfl rfl
  | reserve p =>
    simp only [ReadCache.advance]
    split
    · split <;> exact hsame _ rfl rfl
    · exact hsame _ rfl rfl
  | undo p => exact hsame _ rfl rfl

/-- Every step keeps the floors of the gets there are. -/
theorem begins_apply {shared : Shared} {processCap : Nat} {event : CacheEvent} {r : ReadCache × Shared}
    (hs : event.apply processCap c shared = some r) : Begins c r.1 := by
  have hle : ∀ p, c.floor p ≤ c.floor p := fun _ => Nat.le_refl _
  cases does_of_apply hs with
  | beginGet => exact begins_beginGet ..
  | advance => exact begins_advance ..
  | readByte hg | failLoad hg | closeGuard hg | failGuard hg | giveUp hg => exact begins_of_insert hle hg rfl rfl
  | finishLoad hg => exact begins_completeLoad _ hg ..
  | beginWrite | writeByte | checkActive | invalidateAll | trimIdle => exact begins_of_same hle rfl
  | checkInactive | invalidateRange => exact begins_of_same (le_raise _ c.floor) rfl

end ReadCache

end Risuko
