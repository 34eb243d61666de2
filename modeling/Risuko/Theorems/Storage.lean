import Risuko.Lemmas.CacheCoherence
import Risuko.Lemmas.Spans
import Risuko.Lib.Reach

/-!
# What is stored

Where the bytes of a torrent go, and what the caches return of them.
-/

namespace Risuko

/-!
## The spans of a range

`spans_for` cuts a range into spans of what of it is inside the files. It does so for every range that starts inside, for empty ranges,
and where the last file has no data. A range that starts at the end or behind it yields a span behind the last file's data; those who
ask for spans ask for none.
-/

namespace FileSet

/-- The last file has no data, or there is no file. -/
def lastIsEmpty (set : FileSet) : Bool := set.files.getLast?.all fun f => f.length = 0

/-- Behind the end an iterator over files whose last one has no data is done. -/
theorem next_behind_empty {set : FileSet} {offset : Nat} (h : set.totalLength ≤ offset) (hempty : set.lastIsEmpty = true) (len : Nat) :
    set.next (set.spansIter offset len) = none := by
  have hidx : (set.spansIter offset len) = ⟨offset, len, set.files.length - 1⟩ := by rw [spansIter, fileIndexFor_of_ge h]
  rw [hidx]
  cases hlast : set.files.getLast? with
  | none => exact next_of_end (by rw [List.getLast?_eq_none_iff.mp hlast]; exact Nat.zero_le _) _ _
  | some f =>
    have hl : f.length = 0 := by simpa [lastIsEmpty, hlast] using hempty
    rw [List.getLast?_eq_getElem?] at hlast
    rw [next_of_empty hlast hl]
    exact next_of_end (by omega) _ _

/-- Behind the end an iterator over files whose last one has data yields a span, without data at the end itself. -/
theorem next_behind_data {set : FileSet} {offset len : Nat} (h : set.totalLength ≤ offset)
    (hdata : set.lastIsEmpty = false) (hlen : len ≠ 0) :
    ∃ span it, set.next (set.spansIter offset len) = some (span, it) := by
  have hidx : (set.spansIter offset len) = ⟨offset, len, set.files.length - 1⟩ := by rw [spansIter, fileIndexFor_of_ge h]
  rw [hidx]
  cases hlast : set.files.getLast? with
  | none => simp [lastIsEmpty, hlast] at hdata
  | some f =>
    have hl : f.length ≠ 0 := by simpa [lastIsEmpty, hlast] using hdata
    rw [List.getLast?_eq_getElem?] at hlast
    exact ⟨_, _, next_of_data hlast hl hlen⟩

/-- A range is cut into spans of what is inside exactly if it starts inside, is empty, or the last file has no data. -/
theorem spans_partition (set : FileSet) (htotal : set.totalLength < 2 ^ 64) (offset len : Nat) :
    SpanCover set offset (max offset (min (offset + len) set.totalLength)) (set.collectSpans offset len) ↔
      offset < set.totalLength ∨ len = 0 ∨ set.lastIsEmpty = true := by
  by_cases hin : offset < set.totalLength
  · rw [max_eq_right (by omega)]
    exact ⟨fun _ => .inl hin, fun _ => (spanCover_of_lt htotal hin).1⟩
  · have hstop : max offset (min (offset + len) set.totalLength) = offset := by omega
    have hnil : SpanCover set offset offset [] := ⟨List.Pairwise.nil, fun span hs => absurd hs List.not_mem_nil, rfl⟩
    rw [hstop]
    constructor
    · intro h
      by_contra hno
      simp only [not_or, Bool.not_eq_true] at hno
      obtain ⟨span, it, hnext⟩ := next_behind_data (not_lt.mp hin) hno.2.2 hno.2.1
      have hspans := h.eq_nil
      rw [collectSpans, collect_of_some hnext] at hspans
      cases hspans
    · rintro (h | h | h)
      · exact absurd h hin
      · rw [collectSpans, h, spansIter, collect_of_none (next_zero _ _ _)]
        exact hnil
      · rw [collectSpans, collect_of_none (next_behind_empty (not_lt.mp hin) h len)]
        exact hnil

/-- Three files, the second without data. -/
def sampleSet : FileSet := fromMeta [⟨false, 10, false⟩, ⟨false, 0, true⟩, ⟨false, 5, false⟩]

/-- A range that is cut at the end of the last file. -/
theorem spans_partition_within : SpanCover sampleSet 8 15 (sampleSet.collectSpans 8 20) :=
  (spans_partition sampleSet (by decide) 8 20).mpr (.inl (by decide))

/-- A range behind the end yields a span that lies behind the data of its file. A range at the end yields a span without data. -/
theorem spans_behind_the_end :
    (∃ span ∈ sampleSet.collectSpans 17 2, ∃ f ∈ sampleSet.files[span.fileIndex]?, f.length < span.fileOffset + span.len) ∧
      ∃ span ∈ sampleSet.collectSpans 15 2, span.len = 0 := by decide

end FileSet

/-!
## The storage over whole runs

A run starts on any disk and goes on by operations that succeed, in any order. Beside the storage it keeps the byte last written at
each position of the torrent. A promotion copies the boundary ranges of a file only, so a run reads back what it wrote as long as
no promoted file was written outside them (`reads_back`); a run that does so loses bytes (`reads_back_false`).
-/

/-- A storage, and the byte last written at each position. -/
structure TracedStorage where
  storage : FilesystemStorage
  written : Nat → Option UInt8

inductive StorageOp where
  | writeAtOwned (offset : Nat) (data : List UInt8)
  | readOwned (offset len : Nat)
  | setSelection (selected : Option (Finset Nat))
  | promoteFile (idx : Nat) (removed : Bool)
  | closeHandles

namespace StorageOp

/-- The state after an operation that succeeds. -/
def run (t : TracedStorage) : StorageOp → Except StorageError TracedStorage
  | .writeAtOwned offset data =>
    (t.storage.writeAtOwned offset data).map (fun s =>
      { storage := s, written := FilesystemStorage.recorded t.written offset data data.length })
  | .readOwned offset len => (t.storage.readOwned offset len).map (fun r => { t with storage := r.1 })
  | .setSelection selected => .ok { t with storage := (t.storage.setSelection selected).1 }
  | .promoteFile idx removed => (t.storage.promoteFile idx removed).map (fun s => { t with storage := s })
  | .closeHandles => .ok { t with storage := t.storage.closeHandles }

/-- The operations that lose nothing: a promoted file was written in its boundary ranges only. -/
def Keeps (t : TracedStorage) : StorageOp → Prop
  | .promoteFile idx _ => t.storage.Covered t.written idx
  | _ => True

theorem map_eq_ok {ε α β : Type*} {f : α → β} {x : Except ε α} {b : β} (h : x.map f = .ok b) : ∃ a, x = .ok a ∧ f a = b := by
  cases x with
  | error e => cases h
  | ok a => exact ⟨a, rfl, by simpa [Except.map] using h⟩

/-- An operation that keeps to its conditions leaves every written byte readable. -/
theorem stored_run {t t' : TracedStorage} (h : t.storage.Stored t.written) {op : StorageOp} (hk : op.Keeps t)
    (hr : op.run t = .ok t') : t'.storage.Stored t'.written := by
  cases op with
  | writeAtOwned offset data =>
    obtain ⟨s, hs, rfl⟩ := map_eq_ok hr
    exact h.writeAtOwned hs
  | readOwned offset len =>
    obtain ⟨⟨s, out⟩, hs, rfl⟩ := map_eq_ok hr
    exact (h.readOwned hs).1
  | setSelection selected =>
    cases hr
    exact h.setSelection selected
  | promoteFile idx removed =>
    obtain ⟨s, hs, rfl⟩ := map_eq_ok hr
    exact h.promoteFile hk hs
  | closeHandles =>
    cases hr
    exact h.closeHandles

end StorageOp

/-- The states reached from a new storage on some disk by operations that succeed and meet a condition. -/
def StorageRun (cond : TracedStorage → StorageOp → Prop) : TracedStorage → Prop :=
  Reach (fun t => ∃ layout pieceLength partsDir disk,
      t = { storage := FilesystemStorage.new layout pieceLength partsDir disk, written := fun _ => none })
    (fun t t' => ∃ op, cond t op ∧ op.run t = .ok t')

/-- Reading a range in a state gives zeros in padding and the byte last written elsewhere. -/
def ReadsBackAt (t : TracedStorage) (offset len : Nat) : Prop :=
  ∀ s out, t.storage.readOwned offset len = .ok (s, out) → out.length = len ∧
    ∀ k < len, ∀ (idx : Nat) (f : FileInfo), t.storage.layout.files[idx]? = some f → f.offset ≤ offset + k →
      offset + k < f.offset + f.length →
        (f.padding = true → out[k]? = some 0) ∧ (f.padding = false → ∀ b, t.written (offset + k) = some b → out[k]? = some b)

/-- In every run in which each promoted file was written in its boundary ranges only, every read that succeeds returns at each
position the byte last written there, and zero in padding. -/
theorem reads_back (t : TracedStorage) (h : StorageRun (fun t op => op.Keeps t) t) (offset len : Nat) : ReadsBackAt t offset len := by
  have hs : t.storage.Stored t.written := by
    refine @Reach.invariant _ _ _ (fun t : TracedStorage => t.storage.Stored t.written) ?_ ?_ _ h
    · rintro t ⟨layout, pieceLength, partsDir, disk, rfl⟩
      exact FilesystemStorage.stored_new ..
    · rintro t t' ht ⟨op, hk, hr⟩
      exact StorageOp.stored_run ht hk hr
  exact fun s out hr => (hs.readOwned hr).2

/-- A torrent of one file of three pieces. -/
def threePieceFile : FileSet := FileSet.fromMeta [{ pathIsEmpty := false, length := 48, padding := false }]

/-- The storage of the file on an empty disk. -/
def freshStorage : TracedStorage :=
  { storage := FilesystemStorage.new threePieceFile 16 true Disk.empty, written := fun _ => none }

/-- Run operations one after the other. -/
def runAll (t : TracedStorage) : List StorageOp → Except StorageError TracedStorage
  | [] => .ok t
  | op :: rest =>
    match op.run t with
    | .error e => .error e
    | .ok t => runAll t rest

/-- A list of operations goes on with a run. -/
theorem storageRun_runAll {cond : TracedStorage → StorageOp → Prop} {t t' : TracedStorage} (h : StorageRun cond t)
    {ops : List StorageOp} (hc : ∀ t, ∀ op ∈ ops, cond t op) (hr : runAll t ops = .ok t') : StorageRun cond t' := by
  induction ops generalizing t with
  | nil =>
    cases hr
    exact h
  | cons op rest ih =>
    simp only [runAll] at hr
    split at hr
    · cases hr
    · rename_i t₁ h₁
      exact ih (.step h ⟨op, hc t op (List.mem_cons_self ..), h₁⟩) (fun t op' ho => hc t op' (List.mem_cons_of_mem _ ho)) hr

theorem freshStorage_run (cond : TracedStorage → StorageOp → Prop) : StorageRun cond freshStorage := .init ⟨_, _, _, _, rfl⟩

/-- The file is deselected, its first two bytes are written, and it is selected again. -/
def shadowedRun : List StorageOp := [.setSelection (some ∅), .writeAtOwned 0 [7, 8], .setSelection none]

/-- Promoting the file then keeps the two bytes: they are in its first piece. -/
theorem reads_back_promoted :
    ∃ t, StorageRun (fun t op => op.Keeps t) t ∧ t.storage.isShadowed 0 = false ∧ t.written 1 = some 8 ∧
      ∃ s out, t.storage.readOwned 0 2 = .ok (s, out) ∧ out[1]? = some 8 := by
  have hfirst : (runAll freshStorage shadowedRun).map (fun t => (t.written, t.storage.layout, t.storage.pieceLength)) =
      .ok (FilesystemStorage.recorded (fun _ => none) 0 [7, 8] 2, threePieceFile, 16) := rfl
  have hlast : ((runAll freshStorage shadowedRun).bind (fun t => (StorageOp.promoteFile 0 true).run t)).map
      (fun t => (t.storage.isShadowed 0, t.written 1, t.storage.layout.files[0]?, (t.storage.readOwned 0 2).map Prod.snd)) =
        .ok (false, some 8, some ⟨48, 0, false⟩, .ok [7, 8]) := by decide
  obtain ⟨t, hrun, ht⟩ := StorageOp.map_eq_ok hfirst
  simp only [Prod.mk.injEq] at ht
  obtain ⟨hw, hlay, hpl⟩ := ht
  have hcov : t.storage.Covered t.written 0 := by
    intro _ f hf j hj hne
    rw [hlay] at hf
    cases hf
    rw [hw] at hne
    unfold FilesystemStorage.recorded at hne
    split at hne
    · rw [hpl]
      exact ⟨(0, 16), by decide, Nat.zero_le j, by omega⟩
    · exact absurd rfl hne
  rw [hrun] at hlast
  obtain ⟨t', hrun', ht'⟩ := StorageOp.map_eq_ok hlast
  simp only [Prod.mk.injEq] at ht'
  obtain ⟨hshadow, hbyte, hfile, hread⟩ := ht'
  obtain ⟨⟨s, out⟩, hread, _⟩ := StorageOp.map_eq_ok hread
  have hkeeps : ∀ t, ∀ op ∈ shadowedRun, op.Keeps t := by
    intro t op hop
    simp only [shadowedRun, List.mem_cons, List.not_mem_nil, or_false] at hop
    rcases hop with rfl | rfl | rfl <;> trivial
  have hr : StorageRun (fun t op => op.Keeps t) t' :=
    .step (storageRun_runAll (freshStorage_run _) hkeeps hrun) ⟨.promoteFile 0 true, hcov, hrun'⟩
  exact ⟨t', hr, hshadow, hbyte, s, out, hread,
    ((reads_back t' hr 0 2 s out hread).2 1 (by decide) 0 _ hfile (by decide) (by decide)).2 rfl 8 hbyte⟩

/-- The file is deselected, written whole, selected again and promoted. -/
def losingRun : List StorageOp :=
  [.setSelection (some ∅), .writeAtOwned 0 (List.replicate 48 7), .setSelection none, .promoteFile 0 true]

/-- Without the condition bytes get lost: after that run a byte of the middle piece reads as zero. -/
theorem reads_back_false : ¬ ∀ t, StorageRun (fun _ _ => True) t → ∀ offset len, ReadsBackAt t offset len := by
  intro hall
  have heval : (runAll freshStorage losingRun).map
      (fun t => (t.written 20, t.storage.layout.files[0]?, (t.storage.readOwned 20 1).map Prod.snd)) =
        .ok (some 7, some ⟨48, 0, false⟩, .ok [0]) := by decide
  obtain ⟨t, hrun, ht⟩ := StorageOp.map_eq_ok heval
  simp only [Prod.mk.injEq] at ht
  obtain ⟨hw, hf, hread⟩ := ht
  obtain ⟨⟨s, out⟩, hread, rfl⟩ := StorageOp.map_eq_ok hread
  have hr := storageRun_runAll (freshStorage_run _) (fun _ _ _ => trivial) hrun
  have hback := (hall t hr 20 1 s _ hread).2 0 (by decide) 0 _ hf (by decide) (by decide)
  have := hback.2 rfl 7 hw
  simp at this

/-!
## The read cache over whole runs

Coherence is about one cache and the steps of all tasks that use it, in any order; what other caches do to the shared counter in
between may be anything (`cache_coherent`). Accounting is about all caches of a process (`cache_accounting`).
-/

/-! ### Coherence -/

namespace ReadCache

/-- A step of a task that uses the cache, at any value of the shared counter. -/
def Step (c c' : ReadCache) : Prop :=
  ∃ (processCap : Nat) (shared shared' : Shared) (event : CacheEvent), event.apply processCap c shared = some (c', shared')

/-- The caches reached from a new one over some disk. -/
def CacheRun : ReadCache → Prop := Reach (fun c => ∃ capacity disk, c = new capacity disk) Step

/-- The step in which `invalidate_range` takes effect after a write: it sees the flag unset, or its lock section runs. -/
def Invalidates (w : Write) (c c' : ReadCache) : Prop :=
  ∃ (key processCap : Nat) (shared shared' : Shared), c.writes.get? key = some w ∧
    ((c.active = false ∧ (CacheEvent.checkActive key).apply processCap c shared = some (c', shared')) ∨
      (CacheEvent.invalidateRange key).apply processCap c shared = some (c', shared'))

/-- A cache is coherent after every run of its steps. -/
theorem CacheRun.coherent {c : ReadCache} (h : CacheRun c) : c.Coherent := by
  refine Reach.invariant ?_ ?_ h
  · rintro c ⟨capacity, disk, rfl⟩
    exact coherent_new capacity disk
  · rintro c c' hc ⟨processCap, shared, shared', event, hs⟩
    exact hc.apply hs

/-- What holds along a run from some state on: the floors only rise, and a get that begins in it begins with floors at least
those of that state. -/
theorem since_of_run {c₁ c₂ : ReadCache} (h : Relation.ReflTransGen Step c₁ c₂) :
    (∀ p, c₁.floor p ≤ c₂.floor p) ∧
      ∀ key get, c₁.gets.get? key = none → c₂.gets.get? key = some get → ∀ p, c₁.floor p ≤ get.since p := by
  induction h with
  | refl => exact ⟨fun _ => Nat.le_refl _, fun key get hn hg => by rw [hn] at hg; cases hg⟩
  | tail _ hstep ih =>
    obtain ⟨hfloor, hsince⟩ := ih
    obtain ⟨processCap, shared, shared', event, hs⟩ := hstep
    have hb := begins_apply hs
    refine ⟨fun p => le_trans (hfloor p) (hb.floor p), fun key get' hn hg p => ?_⟩
    rcases hb.since key get' hg with ⟨get, hget, heq⟩ | heq
    · rw [← heq]
      exact hsince key get hn hget p
    · rw [heq]
      exact hfloor p

/-- Further steps go on with a run. -/
theorem CacheRun.trans {c₁ c₂ : ReadCache} (h : CacheRun c₁) (hr : Relation.ReflTransGen Step c₁ c₂) : CacheRun c₂ := by
  induction hr with
  | refl => exact h
  | tail _ hstep ih => exact .step ih hstep

/-- An invalidation is a step, and the floors are up to what was written. -/
theorem Invalidates.step {w : Write} {c c' : ReadCache} (h : Invalidates w c c') :
    Step c c' ∧ ∀ k v, k < w.len → w.stamps k = some v → v ≤ c'.floor (w.offset + k) := by
  have hraise : ∀ k v, k < w.len → w.stamps k = some v → v ≤ w.raise c.floor (w.offset + k) := by
    intro k v hk hst
    unfold Write.raise
    rw [if_pos (by omega), Nat.add_sub_cancel_left, hst]
    exact Nat.le_max_right _ _
  obtain ⟨key, processCap, shared, shared', hw, ⟨hact, hs⟩ | hs⟩ := h
  · refine ⟨⟨processCap, shared, shared', _, hs⟩, ?_⟩
    simp only [CacheEvent.apply, hw, hact, Bool.false_eq_true, if_false] at hs
    cases hs
    exact hraise
  · refine ⟨⟨processCap, shared, shared', _, hs⟩, ?_⟩
    simp only [CacheEvent.apply, hw] at hs
    split at hs
    · cases hs
      exact hraise
    · cases hs

/-- Once the invalidation after a write took effect: a get that begins later, whether it hits, waits or leads, returns no byte of a
position the write wrote that is older than the write, and no entry holds such a byte, in any state reached from there. -/
theorem cache_coherent (w : Write) (c₀ c₁ c₂ : ReadCache) (h : CacheRun c₀) (hi : Invalidates w c₀ c₁)
    (hr : Relation.ReflTransGen Step c₁ c₂) :
    (∀ (key : Nat) (get : Get) (result : List Byte) (k : Nat) (b : Byte) (j v : Nat), c₁.gets.get? key = none →
      c₂.gets.get? key = some get → get.phase = .done (some result) → result[k]? = some b → j < w.len → w.stamps j = some v →
        get.blockOff + k = w.offset + j → v ≤ b.version) ∧
      ∀ (start : Nat) (e : Entry) (k : Nat) (b : Byte) (j v : Nat), c₂.inner.entries.get? start = some e → e.data[k]? = some b →
        j < w.len → w.stamps j = some v → start + k = w.offset + j → v ≤ b.version := by
  obtain ⟨hstep, hstamp⟩ := hi.step
  have hcoh : c₂.Coherent := CacheRun.coherent (CacheRun.trans (.step h hstep) hr)
  obtain ⟨hfloor, hsince⟩ := since_of_run hr
  refine ⟨fun key get result k b j v hn hg hp hb hj hst heq => ?_, fun start e k b j v hs hb hj hst heq => ?_⟩
  · have hright := hcoh.right key get hg
    unfold Right at hright
    rw [hp] at hright
    calc v ≤ c₁.floor (w.offset + j) := hstamp j v hj hst
      _ ≤ get.since (w.offset + j) := hsince key get hn hg _
      _ ≤ b.version := heq ▸ hright k b hb
  · calc v ≤ c₁.floor (w.offset + j) := hstamp j v hj hst
      _ ≤ c₂.floor (w.offset + j) := hfloor _
      _ ≤ b.version := heq ▸ (hcoh.entries start e hs).2 k b hb

/-- Take steps one after the other. -/
def runEvents (processCap : Nat) (c : ReadCache) (shared : Shared) : List CacheEvent → Option (ReadCache × Shared)
  | [] => some (c, shared)
  | event :: rest =>
    match event.apply processCap c shared with
    | none => none
    | some (c, shared) => runEvents processCap c shared rest

/-- Events of one cache are steps of it. -/
theorem run_of_runEvents {processCap : Nat} {c c' : ReadCache} {shared shared' : Shared} {events : List CacheEvent}
    (h : runEvents processCap c shared events = some (c', shared')) : Relation.ReflTransGen Step c c' := by
  induction events generalizing c shared with
  | nil =>
    cases h
    exact .refl
  | cons event rest ih =>
    simp only [runEvents] at h
    split at h
    · cases h
    · rename_i c₁ shared₁ hs
      exact .head ⟨processCap, shared, shared₁, event, hs⟩ (ih h)

/-- A load reads a byte, a write replaces the byte, and its invalidation is about to take the lock. -/
def overtakenLoad : List CacheEvent :=
  [.beginGet 0 0 2 0 2 0, .advance 0, .readByte 0 0, .beginWrite 7 0 1, .writeByte 7 0 9, .checkActive 7]

/-- A second get of the extent, from its first lock section to its end. -/
def secondGet : List CacheEvent :=
  [.advance 0, .beginGet 1 0 2 0 2 0, .advance 0, .readByte 1 0, .readByte 1 1, .finishLoad 1, .advance 0, .advance 0, .advance 0, .advance 0,
    .dropGuard 1, .advance 0]

/-- The second get begins after the invalidation and returns the byte of the write. -/
theorem cache_coherent_overtaken :
    ∃ (w : Write) (c₀ c₁ c₂ : ReadCache), CacheRun c₀ ∧ Invalidates w c₀ c₁ ∧ Relation.ReflTransGen Step c₁ c₂ ∧
      c₁.gets.get? 1 = none ∧ ∃ get result b, c₂.gets.get? 1 = some get ∧ get.phase = .done (some result) ∧ result[0]? = some b ∧
        w.stamps 0 = some 1 ∧ 1 ≤ b.version := by
  have heval : ((runEvents 100 (new 100 (fun _ => 5)) ⟨0, false⟩ overtakenLoad).bind (fun r₀ =>
      ((CacheEvent.invalidateRange 7).apply 100 r₀.1 r₀.2).bind (fun r₁ => (runEvents 100 r₁.1 r₁.2 secondGet).map (fun r₂ =>
        (((r₀.1.writes.get? 7).map (fun w => (w.stamps 0, w.len, w.offset))), (r₁.1.gets.get? 1).isNone,
          (r₂.1.gets.get? 1).map (fun get => (get.phase, get.blockOff))))))) =
      some (some (some 1, 1, 0), true, some (.done (some [⟨9, 1⟩, ⟨5, 0⟩]), 0)) := by decide
  obtain ⟨⟨c₀, shared₀⟩, h₀, heval⟩ := Option.bind_eq_some_iff.mp heval
  obtain ⟨⟨c₁, shared₁⟩, h₁, heval⟩ := Option.bind_eq_some_iff.mp heval
  obtain ⟨⟨c₂, shared₂⟩, h₂, heval⟩ := Option.map_eq_some_iff.mp heval
  simp only [Prod.mk.injEq, Option.map_eq_some_iff, Option.isNone_iff_eq_none] at heval
  obtain ⟨⟨w, hw, hst, hlen, hoff⟩, hnone, get, hget, hphase, hblock⟩ := heval
  have hrun : CacheRun c₀ := CacheRun.trans (.init ⟨_, _, rfl⟩) (run_of_runEvents h₀)
  have hinv : Invalidates w c₀ c₁ := ⟨7, 100, shared₀, shared₁, hw, Or.inr h₁⟩
  have htail := run_of_runEvents h₂
  refine ⟨w, c₀, c₁, c₂, hrun, hinv, htail, hnone, get, _, ⟨9, 1⟩, hget, hphase, rfl, hst, ?_⟩
  exact (cache_coherent w c₀ c₁ c₂ hrun hinv htail).1 1 get _ 0 ⟨9, 1⟩ 0 1 hnone hget hphase rfl (by omega) hst (by omega)

end ReadCache

/-! ### Accounting -/

/-- The systems reached from one without a cache. -/
def CacheSystemRun (processCap : Nat) : CacheSystem → Prop :=
  Reach (fun s => s = { caches := OrdMap.empty, shared := { total := 0, underflow := false } })
    (fun s s' => ∃ event : SystemEvent, event.apply processCap s = some s')

/-- The shared counter is what the caches hold and what failed reservations owe, and what the caches hold is within the cap. -/
structure Balanced (processCap : Nat) (s : CacheSystem) : Prop where
  accounted : ∀ i c, s.caches.get? i = some c → c.Accounted
  total : s.shared.total = s.caches.sumOf (fun _ c => c.weight)
  capped : s.caches.sumOf (fun _ c => c.inner.bytes) ≤ processCap
  exact : s.shared.underflow = false

/-- No cache holds more bytes than it has accounted for. -/
theorem sum_bytes_le_weight (caches : OrdMap Nat ReadCache) :
    caches.sumOf (fun _ c => c.inner.bytes) ≤ caches.sumOf (fun _ c => c.weight) := by
  unfold OrdMap.sumOf
  exact List.sum_le_sum (fun e _ => Nat.le_add_right _ _)

/-- Each event keeps the shared counter the sum of the weights. -/
theorem Balanced.apply {processCap : Nat} {s s' : CacheSystem} (h : Balanced processCap s) {event : SystemEvent}
    (hs : event.apply processCap s = some s') : Balanced processCap s' := by
  cases event with
  | create i capacity disk =>
    simp only [SystemEvent.apply] at hs
    split at hs
    · rename_i hnone
      cases hs
      refine ⟨fun j c hj => ?_, ?_, ?_, h.exact⟩
      · rw [OrdMap.get?_insert] at hj
        split at hj
        · cases hj
          exact ReadCache.accounted_new capacity disk
        · exact h.accounted j c hj
      · simp only [OrdMap.sumOf_insert, s.caches.erase_of_get?_none hnone]
        rw [h.total]
        simp [ReadCache.weight, ReadCache.new, Inner.default]
      · simp only [OrdMap.sumOf_insert, s.caches.erase_of_get?_none hnone]
        have := h.capped
        simpa [ReadCache.new, Inner.default] using this
    · cases hs
  | step i event =>
    simp only [SystemEvent.apply] at hs
    split at hs
    · rename_i c hc
      obtain ⟨⟨c', shared'⟩, hstep, rfl⟩ := Option.map_eq_some_iff.mp hs
      have hw := s.caches.sumOf_erase (fun _ c => c.weight) hc
      have hb := s.caches.sumOf_erase (fun _ c => c.inner.bytes) hc
      have htotal := h.total
      have hacc : ReadCache.Accounts processCap c s.shared c' shared' := (h.accounted i c hc).apply (by omega) hstep
      have hbal := hacc.balance
      have htotal' : shared'.total = (s.caches.insert i c').sumOf (fun _ c => c.weight) := by
        rw [OrdMap.sumOf_insert]
        omega
      refine ⟨fun j c'' hj => ?_, htotal', ?_, hacc.exact.trans h.exact⟩
      · rw [OrdMap.get?_insert] at hj
        split at hj
        · cases hj
          exact hacc.accounted
        · exact h.accounted j c'' hj
      · rcases hacc.capped with hle | hle
        · have := h.capped
          simp only [OrdMap.sumOf_insert]
          omega
        · exact le_trans (sum_bytes_le_weight _) (htotal' ▸ hle)
    · cases hs
  | drop i =>
    simp only [SystemEvent.apply] at hs
    split at hs
    · rename_i c hc
      split at hs
      · rename_i hidle
        cases hs
        have hw := s.caches.sumOf_erase (fun _ c => c.weight) hc
        have hb := s.caches.sumOf_erase (fun _ c => c.inner.bytes) hc
        have htotal := h.total
        have hfree : c.holder = none := by
          simp only [ReadCache.idle, Bool.and_eq_true, Option.isNone_iff_eq_none] at hidle
          exact hidle.1.1
        have hweight : c.weight = c.inner.bytes := by simp [ReadCache.weight, hfree]
        obtain ⟨hrel, hexact⟩ := ReadCache.release_spec (show c.inner.bytes ≤ s.shared.total by omega)
        refine ⟨fun j c'' hj => ?_, ?_, ?_, hexact.trans h.exact⟩
        · rw [OrdMap.get?_erase] at hj
          split at hj
          · cases hj
          · exact h.accounted j c'' hj
        · simp only
          omega
        · have := h.capped
          simp only
          omega
      · cases hs
    · cases hs

/-- In every state reached: each cache's `bytes` is the sum of its entries, no more than its capacity, and its `lru` maps the stamps
of its entries to their keys; the caches together hold no more than the cap of the process; the shared counter is what they hold
whenever no reservation is between its addition and its undoing; and no subtraction went below zero. -/
theorem cache_accounting (processCap : Nat) (s : CacheSystem) (h : CacheSystemRun processCap s) :
    (∀ i c, s.caches.get? i = some c →
      c.inner.bytes = c.inner.entries.sumOf (fun _ e => e.data.length) ∧ c.inner.bytes ≤ c.capacity ∧
        (∀ used start, c.inner.lru.get? used = some start ↔ ∃ e, c.inner.entries.get? start = some e ∧ e.used = used) ∧
        c.inner.underflow = false) ∧
      s.caches.sumOf (fun _ c => c.inner.bytes) ≤ processCap ∧
      ((∀ i c p, s.caches.get? i = some c → c.holder ≠ some (.undo p)) →
        s.shared.total = s.caches.sumOf (fun _ c => c.inner.bytes)) ∧
      s.shared.underflow = false := by
  have hb : Balanced processCap s := by
    refine Reach.invariant ?_ ?_ h
    · rintro s rfl
      exact ⟨fun _ _ hc => (by cases hc), rfl, Nat.zero_le _, rfl⟩
    · rintro s s' hs ⟨event, he⟩
      exact hs.apply he
  refine ⟨fun i c hc => ?_, hb.capped, fun hno => ?_, hb.exact⟩
  · have hacc := hb.accounted i c hc
    exact ⟨hacc.counted.bytes, hacc.fits, hacc.counted.lru, hacc.counted.exact⟩
  · rw [hb.total]
    unfold OrdMap.sumOf
    refine congrArg _ (List.map_congr_left (fun e he => ?_))
    have hnot := hno e.1 e.2
    simp only [OrdMap.get?_eq_some_iff] at hnot
    simp only [ReadCache.weight]
    cases hh : e.2.holder with
    | none => rfl
    | some sec =>
      cases sec with
      | undo p => exact absurd hh (hnot p he)
      | _ => rfl

/-- Take events one after the other. -/
def runSystem (processCap : Nat) (s : CacheSystem) : List SystemEvent → Option CacheSystem
  | [] => some s
  | event :: rest =>
    match event.apply processCap s with
    | none => none
    | some s => runSystem processCap s rest

/-- Events of several caches make a run. -/
theorem run_of_runSystem {processCap : Nat} {s s' : CacheSystem} {events : List SystemEvent} (hr : CacheSystemRun processCap s)
    (h : runSystem processCap s events = some s') : CacheSystemRun processCap s' := by
  induction events generalizing s with
  | nil =>
    cases h
    exact hr
  | cons event rest ih =>
    simp only [runSystem] at h
    split at h
    · cases h
    · rename_i s₁ hs
      exact ih (.step hr ⟨event, hs⟩) h

/-- Two caches load an extent of two bytes at the same time. -/
def twoLoads : List SystemEvent :=
  [SystemEvent.create 0 8 (fun _ => 5), .create 1 8 (fun _ => 5)] ++
    [CacheEvent.beginGet 0 0 2 0 2 0, .advance 0, .readByte 0 0, .readByte 0 1, .finishLoad 0, .advance 0, .advance 0, .advance 0].flatMap
      (fun e => [SystemEvent.step 0 e, .step 1 e])

/-- With room for one extent in the process, the second reservation fails; once it is undone the counter is what the caches hold. -/
theorem cache_accounting_two :
    ∃ s, CacheSystemRun 2 s ∧ s.shared.total = 2 ∧ s.caches.sumOf (fun _ c => c.inner.bytes) ≤ 2 ∧
      (s.caches.get? 0).map (fun c => c.inner.bytes) = some 2 ∧ (s.caches.get? 1).map (fun c => c.inner.bytes) = some 0 ∧
      s.shared.underflow = false := by
  have heval : (runSystem 2 ⟨OrdMap.empty, ⟨0, false⟩⟩ (twoLoads ++ [SystemEvent.step 1 (.advance 0)])).map (fun s =>
      (s.shared.total, (s.caches.get? 0).map (fun c => c.inner.bytes), (s.caches.get? 1).map (fun c => c.inner.bytes))) =
        some (2, some 2, some 0) := by decide
  obtain ⟨s, hs, he⟩ := Option.map_eq_some_iff.mp heval
  simp only [Prod.mk.injEq] at he
  have hr := run_of_runSystem (.init rfl) hs
  obtain ⟨_, hcap, _, hexact⟩ := cache_accounting 2 s hr
  exact ⟨s, hr, he.1, hcap, he.2.1, he.2.2, hexact⟩

/-!
## The cache of leaf hashes is a least recently used cache

Over every sequence of calls the cache holds what a plain list of entries in the order of their last use holds, with the same capacity.
-/

namespace LeafHashCache

/-- The bytes of the hashes of a piece. -/
def hashBytes (blocks : LeafBlocks) : Nat := blocks.length * 32

/-- A call on a list of entries, the least recently used first. -/
def use (l : List (LeafKey × LeafBlocks)) : LeafCall → List (LeafKey × LeafBlocks)
  | .get key => (Lru.touch key l).1
  | .insert key blocks => Lru.store hashBytes leafHashCacheBytes key blocks l

/-- The cache holds the entries of a list, and its queue is short. -/
structure Tracks (c : LeafHashCache) (l : List (LeafKey × LeafBlocks)) : Prop where
  stamped : Stamped c.entries c.order c.clock
  held_eq : held c.entries c.order = l
  bytes_eq : c.bytes = Lru.total hashBytes l
  bytes_le : c.bytes ≤ leafHashCacheBytes
  order_length : c.order.length ≤ 2 * c.entries.size + 64

variable {c : LeafHashCache} {l : List (LeafKey × LeafBlocks)}

/-- What `compact` is called for: all but the length of the queue. -/
theorem Tracks.compact (hstamped : Stamped c.entries c.order c.clock) (hheld : held c.entries c.order = l)
    (hbytes : c.bytes = Lru.total hashBytes l) (hle : c.bytes ≤ leafHashCacheBytes) : Tracks c.compact l := by
  unfold LeafHashCache.compact
  split
  · obtain ⟨hs, hh, hlen⟩ := hstamped.compact
    refine ⟨hs, hh.trans hheld, hbytes, hle, ?_⟩
    show (c.order.filter (current c.entries)).length ≤ 2 * c.entries.size + 64
    omega
  · exact ⟨hstamped, hheld, hbytes, hle, by omega⟩

/-- The cache answers with what the list holds. -/
theorem Tracks.answer (h : Tracks c l) (key : LeafKey) : (Lru.touch key l).2 = (c.entries.get? key).map Prod.fst := by
  rw [← h.held_eq, Lru.touch_snd, h.stamped.lookup_held]

/-- The weight of the entries of the other keys. -/
theorem total_without {entries : OrdMap LeafKey (LeafBlocks × Nat)} {order : List (LeafKey × Nat)} {clock : Nat}
    (h : Stamped entries order clock) {key : LeafKey} {blocks : LeafBlocks} {used : Nat} (hget : entries.get? key = some (blocks, used)) :
    Lru.total hashBytes (held entries order) = hashBytes blocks + Lru.total hashBytes (Lru.without key (held entries order)) := by
  obtain ⟨herased, hwithout⟩ := h.erase key
  rw [← hwithout, ← h.sumOf_eq_total, ← herased.sumOf_eq_total, entries.sumOf_erase _ hget]

/-- A lookup answers with the entry, whatever it does to the stamps. -/
theorem get_answer (c : LeafHashCache) (key : LeafKey) : (c.get key).2 = (c.entries.get? key).map Prod.fst := by
  unfold LeafHashCache.get
  split <;> simp [*]

/-- A lookup makes the entry the latest, in the cache and in the list. -/
theorem Tracks.get (h : Tracks c l) (key : LeafKey) : Tracks (c.get key).1 (Lru.touch key l).1 := by
  rw [Lru.touch_fst, h.answer]
  unfold LeafHashCache.get
  cases hget : c.entries.get? key with
  | none => exact h
  | some entry =>
    obtain ⟨blocks, used⟩ := entry
    obtain ⟨hstamped, hheld⟩ := h.stamped.push key blocks
    have htotal := total_without h.stamped hget
    rw [h.held_eq] at hheld htotal
    refine Tracks.compact hstamped hheld ?_ h.bytes_le
    show c.bytes = Lru.total hashBytes (Lru.without key l ++ [(key, blocks)])
    rw [h.bytes_eq, htotal, Lru.total_append, Nat.add_comm]
    rfl

/-- Taking out an entry. -/
theorem removeEntry_spec {entries : OrdMap LeafKey (LeafBlocks × Nat)} {order : List (LeafKey × Nat)} {clock bytes : Nat}
    (h : Stamped entries order clock) (hbytes : bytes = Lru.total hashBytes (held entries order)) (key : LeafKey) :
    removeEntry entries bytes key = (entries.erase key, Lru.total hashBytes (Lru.without key (held entries order))) := by
  unfold removeEntry
  cases hget : entries.get? key with
  | none =>
    obtain ⟨-, hwithout⟩ := h.erase key
    rw [← hwithout, entries.erase_of_get?_none hget, ← hbytes]
  | some entry =>
    have hrest : bytes - hashBytes entry.1 = Lru.total hashBytes (Lru.without key (held entries order)) := by
      rw [hbytes, total_without h hget, Nat.add_sub_cancel_left]
    rw [← hrest]
    rfl

/-- The loop takes out what the plain list takes out. -/
theorem makeRoom_spec (size clock : Nat) : ∀ (order : List (LeafKey × Nat)) (entries : OrdMap LeafKey (LeafBlocks × Nat)) (bytes : Nat),
    Stamped entries order clock → bytes = Lru.total hashBytes (held entries order) →
    let c := makeRoom size clock order entries bytes
    Stamped c.entries c.order clock ∧ held c.entries c.order = Lru.evict hashBytes leafHashCacheBytes size (held entries order)
      ∧ c.bytes = Lru.total hashBytes (held c.entries c.order) ∧ c.clock = clock := by
  intro order
  induction order with
  | nil =>
    intro entries bytes hstamped hbytes
    exact ⟨hstamped, rfl, hbytes, rfl⟩
  | cons oldest order ih =>
    intro entries bytes hstamped hbytes
    rw [makeRoom]
    by_cases hfull : leafHashCacheBytes < bytes + size
    · rw [if_pos hfull]
      by_cases hcur : current entries oldest = true
      · rw [if_pos hcur]
        obtain ⟨blocks, hget⟩ := current_iff.mp hcur
        obtain ⟨hpopped, hheld⟩ := hstamped.pop_current hget
        have hfirst : Lru.without oldest.1 (held entries (oldest :: order)) = held (entries.erase oldest.1) order := by
          obtain ⟨herased, hwithout⟩ := hstamped.erase oldest.1
          rw [← hwithout]
          refine (herased.pop_stale fun hagain => ?_).2
          obtain ⟨v, hv⟩ := current_iff.mp hagain
          rw [OrdMap.get?_erase_self] at hv
          cases hv
        rw [removeEntry_spec hstamped hbytes oldest.1, hfirst, hheld, Lru.evict, if_pos (by rw [← hheld, ← hbytes]; exact hfull)]
        exact ih (entries.erase oldest.1) _ hpopped rfl
      · rw [if_neg hcur]
        obtain ⟨hpopped, hheld⟩ := hstamped.pop_stale hcur
        rw [hheld] at hbytes ⊢
        exact ih entries bytes hpopped hbytes
    · rw [if_neg hfull]
      refine ⟨hstamped, ?_, hbytes, rfl⟩
      rw [hbytes] at hfull
      exact (Lru.evict_of_le (not_lt.mp hfull)).symm

/-- Storing an entry does to the cache what it does to the list. -/
theorem Tracks.insert (h : Tracks c l) (key : LeafKey) (blocks : LeafBlocks) :
    Tracks (c.insert key blocks) (Lru.store hashBytes leafHashCacheBytes key blocks l) := by
  unfold LeafHashCache.insert Lru.store
  by_cases hbig : leafHashCacheBytes < blocks.length * 32
  · rw [if_pos hbig, if_pos (show _ < hashBytes blocks from hbig)]
    exact h
  rw [if_neg hbig, if_neg (show ¬ _ < hashBytes blocks from hbig)]
  obtain ⟨herased, hwithout⟩ := h.stamped.erase key
  rw [removeEntry_spec h.stamped (h.bytes_eq.trans (by rw [h.held_eq])) key, ← hwithout]
  rw [h.held_eq] at hwithout
  have hroom := makeRoom_spec (blocks.length * 32) c.clock c.order (c.entries.erase key) _ herased rfl
  show Tracks (LeafHashCache.compact ⟨_, _, _, _⟩) _
  generalize makeRoom (blocks.length * 32) c.clock c.order (c.entries.erase key) _ = room at hroom ⊢
  obtain ⟨hstamped, hheld, htotal, hclock⟩ := hroom
  rw [← hclock] at hstamped
  obtain ⟨hpushed, hlast⟩ := hstamped.push key blocks
  rw [hheld, hwithout, Lru.without_of_notMem fun e he => Lru.ne_of_mem_without ((Lru.evict_suffix _ _ _ _).subset he)] at hlast
  have hfits : Lru.total hashBytes (Lru.evict hashBytes leafHashCacheBytes (hashBytes blocks) (Lru.without key l)) + hashBytes blocks ≤
      leafHashCacheBytes := Lru.total_evict (not_lt.mp hbig) _
  rw [hheld, hwithout] at htotal
  refine Tracks.compact hpushed hlast ?_ ?_
  · show room.bytes + hashBytes blocks = _
    rw [htotal, Lru.total_append]
    rfl
  · show room.bytes + hashBytes blocks ≤ _
    rw [htotal]
    exact hfits

/-- An empty cache is an empty list. -/
theorem Tracks.default : Tracks default [] where
  stamped := ⟨List.Pairwise.nil, fun e he => absurd he List.not_mem_nil, fun k v s hget => by cases hget⟩
  held_eq := rfl
  bytes_eq := rfl
  bytes_le := Nat.zero_le _
  order_length := Nat.zero_le _

/-- Over every sequence of calls. -/
theorem tracks_run (calls : List LeafCall) : Tracks (run calls) (calls.foldl use []) := by
  induction calls using List.reverseRecOn with
  | nil => exact Tracks.default
  | append_singleton calls last ih =>
    rw [run, List.foldl_append, List.foldl_append]
    cases last with
    | get key => exact ih.get key
    | insert key blocks => exact ih.insert key blocks

/-- The cache holds what the plain list holds and answers as it does. Its bytes are those of the hashes it holds, every entry has its stamp
once in the queue, and the queue is short. -/
theorem leaf_cache_lru (calls : List LeafCall) :
    let c := run calls
    let l := calls.foldl use []
    (∀ key, (c.entries.get? key).map Prod.fst = (Lru.touch key l).2)
      ∧ (c.entries.keys.Perm (l.map Prod.fst))
      ∧ (∀ key, (c.get key).2 = (Lru.touch key l).2)
      ∧ c.bytes = 32 * c.entries.sumOf (fun _ v => v.1.length)
      ∧ c.bytes ≤ leafHashCacheBytes
      ∧ (∀ key blocks used, c.entries.get? key = some (blocks, used) → c.order.count (key, used) = 1)
      ∧ c.order.length ≤ 2 * c.entries.size + 64 := by
  intro c l
  have h : Tracks c l := tracks_run calls
  have hsum := h.stamped.sumOf_eq_total hashBytes
  refine ⟨fun key => (h.answer key).symm, ?_, fun key => ?_, ?_, h.bytes_le, fun key blocks used hget => ?_, h.order_length⟩
  · have hperm : (c.entries.keys).Perm ((held c.entries c.order).map Prod.fst) := by
      rw [List.perm_ext_iff_of_nodup c.entries.keys_nodup h.stamped.keys_nodup]
      intro key
      rw [OrdMap.mem_keys, List.mem_map]
      constructor
      · rintro ⟨⟨blocks, used⟩, hget⟩
        exact ⟨(key, blocks), h.stamped.mem_held.mpr ⟨used, hget⟩, rfl⟩
      · rintro ⟨⟨_, blocks⟩, hmem, rfl⟩
        obtain ⟨used, hget⟩ := h.stamped.mem_held.mp hmem
        exact ⟨_, hget⟩
    rw [h.held_eq] at hperm
    exact hperm
  · rw [get_answer, h.answer]
  · rw [h.bytes_eq, ← h.held_eq, ← hsum, OrdMap.sumOf, OrdMap.sumOf, ← List.sum_map_mul_left]
    congr 1
    exact List.map_congr_left fun e _ => Nat.mul_comm _ _
  · exact List.count_eq_one_of_mem h.stamped.nodup (h.stamped.queued key blocks used hget)

end LeafHashCache

end Risuko
