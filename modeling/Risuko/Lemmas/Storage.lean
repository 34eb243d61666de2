import Risuko.Storage.Storage

/-!
# The storage keeps what was written

`Stored s w` is what every operation keeps: for each file outside padding, the bytes last written to it (`w`, by position in the
torrent) are where `home` says, its real file or its shadow. The spans of a range cover it without gap (`spansFor_tiles`), so a
write puts each byte in its place and a read finds it there.
-/

namespace Risuko

variable {start stop i offset : Nat} {files : List FileInfo} {f : FileInfo}

/-! ## Layouts and spans -/

theorem Contiguous.bounds (h : Contiguous start files stop)
    (hf : files[i]? = some f) : start ≤ f.offset ∧ f.offset + f.length ≤ stop := by
  induction files generalizing start i with
  | nil => simp at hf
  | cons g rest ih =>
    obtain ⟨hg, hrest⟩ := h
    cases i with
    | zero =>
      simp only [List.getElem?_cons_zero, Option.some.injEq] at hf
      subst hf
      refine ⟨hg.ge, ?_⟩
      clear ih
      have hle : ∀ (fs : List FileInfo) (a : Nat), Contiguous a fs stop → a ≤ stop := by
        intro fs
        induction fs with
        | nil => exact fun a ha => ha.le
        | cons x xs ih => exact fun a ha => le_trans (Nat.le_add_right _ _) (ih _ ha.2)
      rw [hg]
      exact hle rest _ hrest
    | succ i =>
      obtain ⟨h1, h2⟩ := ih hrest hf
      exact ⟨by omega, h2⟩

/-- No position is in two files. -/
theorem Contiguous.unique {j p : Nat} {g : FileInfo} (h : Contiguous start files stop)
    (hf : files[i]? = some f) (hg : files[j]? = some g) (hpf : f.offset ≤ p ∧ p < f.offset + f.length)
    (hpg : g.offset ≤ p ∧ p < g.offset + g.length) : i = j := by
  induction files generalizing start i j with
  | nil => simp at hf
  | cons x rest ih =>
    obtain ⟨hx, hrest⟩ := h
    cases i with
    | zero =>
      cases j with
      | zero => rfl
      | succ j =>
        simp only [List.getElem?_cons_zero, Option.some.injEq] at hf
        subst hf
        have := hrest.bounds hg
        omega
    | succ i =>
      cases j with
      | zero =>
        simp only [List.getElem?_cons_zero, Option.some.injEq] at hg
        subst hg
        have := hrest.bounds hf
        omega
      | succ j =>
        rw [ih hrest hf hg]

/-- Every position is in a file. -/
theorem Contiguous.exists_file {p : Nat} (h : Contiguous start files stop) (hp : start ≤ p)
    (hs : p < stop) : ∃ f ∈ files, f.offset ≤ p ∧ p < f.offset + f.length := by
  induction files generalizing start with
  | nil =>
    have : start = stop := h
    omega
  | cons x rest ih =>
    obtain ⟨hx, hrest⟩ := h
    by_cases hlt : p < start + x.length
    · exact ⟨x, List.mem_cons_self .., by omega, by omega⟩
    · obtain ⟨f, hf, hin⟩ := ih hrest (by omega)
      exact ⟨f, List.mem_cons_of_mem _ hf, hin⟩

theorem Contiguous.drop (h : Contiguous start files stop)
    (hf : files[i]? = some f) : Contiguous f.offset (files.drop i) stop := by
  induction files generalizing start i with
  | nil => simp at hf
  | cons x rest ih =>
    cases i with
    | zero =>
      simp only [List.getElem?_cons_zero, Option.some.injEq] at hf
      subst hf
      exact ⟨rfl, by rw [h.1]; exact h.2⟩
    | succ i => exact ih h.2 hf

/-- Spans that cover a range of the torrent, each inside its file. -/
def Tiles (set : FileSet) : Nat → List Span → Nat → Prop
  | pos, [], stop => pos = stop
  | pos, span :: rest, stop =>
    (∃ f, set.files[span.fileIndex]? = some f ∧ f.offset + span.fileOffset = pos ∧ span.fileOffset + span.len ≤ f.length) ∧
      Tiles set (pos + span.len) rest stop

theorem tiles_le {set : FileSet} {pos : Nat} {spans : List Span} (h : Tiles set pos spans stop) : pos ≤ stop := by
  induction spans generalizing pos with
  | nil => exact (show pos = stop from h).le
  | cons span rest ih => exact le_trans (Nat.le_add_right _ _) (ih h.2)

/-- The spans from a file on: the cursor is inside the first file, or where the files start. They end with the files. -/
theorem spansFrom_tiles {set : FileSet} {idx cursor remaining : Nat}
    (hfiles : set.files.drop idx = files) (hcont : Contiguous start files set.totalLength) (hle : start ≤ cursor)
    (hin : ∀ f, files.head? = some f → cursor < f.offset + f.length ∨ cursor = start) (htotal : cursor ≤ set.totalLength) :
    Tiles set cursor (FileSet.spansFrom idx files cursor remaining) (min (cursor + remaining) set.totalLength) := by
  induction files generalizing idx start cursor remaining with
  | nil =>
    have : start = set.totalLength := hcont
    simp only [FileSet.spansFrom, Tiles]
    omega
  | cons f rest ih =>
    obtain ⟨hoff, hrest⟩ := hcont
    have hdrop : set.files.drop (idx + 1) = rest := by
      rw [← List.tail_drop, hfiles, List.tail_cons]
    have hget : set.files[idx]? = some f := by
      rw [← List.head?_drop, hfiles, List.head?_cons]
    have hhead := hin f rfl
    have hend := (set.contiguous.bounds hget).2
    simp only [FileSet.spansFrom]
    split
    · simp only [Tiles]
      omega
    split
    · exact ih hdrop hrest (by omega) (fun g hg => Or.inr (by omega)) htotal
    refine ⟨⟨f, hget, ?_, ?_⟩, ?_⟩
    · simp only
      omega
    · simp only
      omega
    · simp only
      split
      · -- the file is used up: the next one starts where this one ends
        rw [show cursor + remaining = cursor + min (f.length - (cursor - f.offset)) remaining +
          (remaining - min (f.length - (cursor - f.offset)) remaining) by omega]
        exact ih hdrop hrest (by omega) (fun g hg => Or.inr (by omega)) (by omega)
      · simp only [Tiles]
        omega

/-- Where a range starts. -/
theorem fileIndexFor_spec (set : FileSet) (h : offset < set.totalLength) :
    ∃ f, set.files[set.fileIndexFor offset]? = some f ∧ f.offset ≤ offset ∧ offset < f.offset + f.length := by
  obtain ⟨f, hf, hin⟩ := set.contiguous.exists_file (Nat.zero_le offset) h
  unfold FileSet.fileIndexFor
  cases hi : set.files.findIdx? (fun f => decide (f.offset ≤ offset) && decide (offset < f.offset + f.length)) with
  | none =>
    have := List.findIdx?_eq_none_iff.mp hi f hf
    simp [hin] at this
  | some i =>
    obtain ⟨hlt, hp, _⟩ := List.findIdx?_eq_some_iff_getElem.mp hi
    simp only [Bool.and_eq_true, decide_eq_true_eq] at hp
    exact ⟨set.files[i], List.getElem?_eq_getElem hlt, hp⟩

theorem spansFrom_zero (i : Nat) (files : List FileInfo) (offset : Nat) : FileSet.spansFrom i files offset 0 = [] := by
  cases files with
  | nil => rfl
  | cons f rest => simp [FileSet.spansFrom]

/-- The spans of a range that starts inside cover what is inside. -/
theorem spansFor_tiles_min (set : FileSet) {len : Nat} (h : offset < set.totalLength) :
    Tiles set offset (set.spansFor offset len) (min (offset + len) set.totalLength) := by
  obtain ⟨f, hget, hin⟩ := fileIndexFor_spec set h
  refine spansFrom_tiles rfl (set.contiguous.drop hget) hin.1 (fun g hg => Or.inl ?_) h.le
  rw [List.head?_drop, hget] at hg
  cases hg
  exact hin.2

theorem spansFor_tiles (set : FileSet) {len : Nat} (h : offset + len ≤ set.totalLength) :
    Tiles set offset (set.spansFor offset len) (offset + len) := by
  by_cases hlen : len = 0
  · subst hlen
    simp only [FileSet.spansFor, spansFrom_zero, Tiles, Nat.add_zero]
  · have htiles : Tiles set offset (set.spansFor offset len) (min (offset + len) set.totalLength) :=
      spansFor_tiles_min set (by omega)
    rw [min_eq_left h] at htiles
    exact htiles

namespace FilesystemStorage

variable {s s' : FilesystemStorage} {place : Place} {file idx cursor offset : Nat} {write : Bool}
variable {w : Nat → Option UInt8} {spans : List Span} {jobs : List Job} {set : FileSet} {disk : Disk Place}

/-! ## Handles -/

/-- Every cached handle is the file its path links to. -/
def Held (s : FilesystemStorage) : Prop :=
  ∀ store idx slot, (s.handles store)[idx]? = some (some slot) → s.disk.links (store, idx) = some slot.file

/-- An eviction only empties slots. -/
theorem evictLru_sub {slots : HandleCache} {keep i : Nat} {slot : HandleSlot}
    (h : (evictLru slots keep).1[i]? = some (some slot)) : slots[i]? = some (some slot) := by
  have hfold : ∀ (gone : List (Nat × Nat)) (slots : HandleCache),
      (gone.foldl (fun slots e => slots.set e.2 none) slots)[i]? = some (some slot) → slots[i]? = some (some slot) := by
    intro gone
    induction gone with
    | nil => exact fun _ h => h
    | cons e rest ih =>
      intro slots h
      have := ih _ h
      rw [List.getElem?_set] at this
      split at this
      · split at this <;> cases this
      · exact this
  unfold evictLru at h
  split at h
  · exact h
  simp only at h
  split at h
  · exact h
  exact hfold _ slots h

theorem Held.cacheHandle (h : s.Held) (hl : s.disk.links place = some file)
    (write : Bool) : (s.cacheHandle place write file).Held := by
  intro store idx slot hs
  simp only [FilesystemStorage.cacheHandle, Function.update_apply] at hs
  split at hs
  · rename_i hstore
    have := evictLru_sub hs
    rw [List.getElem?_set] at this
    split at this
    · rename_i hidx
      split at this
      · cases this
        rw [hstore, ← hidx]
        exact hl
      · cases this
    · exact h store idx slot (by rw [hstore]; exact this)
  · exact h store idx slot hs

/-- What opening files leaves alone: everything but the caches, the clock and the disk. -/
structure Opens (allowed : Place → Prop) (s s' : FilesystemStorage) : Prop where
  held : s'.Held
  grows : s.disk.Grows allowed s'.disk
  layout : s'.layout = s.layout
  pieceLength : s'.pieceLength = s.pieceLength
  partsDir : s'.partsDir = s.partsDir
  shadowed : s'.shadowed = s.shadowed

/-- Opening a file touches its place only, and the place leads to the file. -/
theorem openFile_spec (hh : s.Held)
    (h : s.openFile place write = .ok (s', file)) :
    Opens (fun p => p = place) s s' ∧ s'.disk.links place = some file := by
  unfold openFile at h
  split at h
  · obtain ⟨hg, hl⟩ := s.disk.openWrite_spec place
    simp only [Except.ok.injEq, Prod.mk.injEq] at h
    obtain ⟨rfl, rfl⟩ := h
    have hheld : ({ s with disk := (s.disk.openWrite place).1 } : FilesystemStorage).Held :=
      fun store idx slot hs => (hg.kept _ _ (hh store idx slot hs)).1
    exact ⟨⟨hheld.cacheHandle hl true, hg, rfl, rfl, rfl, rfl⟩, hl⟩
  · split at h
    · cases h
    · rename_i file' hl
      simp only [Except.ok.injEq, Prod.mk.injEq] at h
      obtain ⟨rfl, rfl⟩ := h
      exact ⟨⟨hh.cacheHandle hl false, Disk.Grows.refl _ _, rfl, rfl, rfl, rfl⟩, hl⟩

/-- `open_cached` returns the file the path links to. -/
theorem openCached_spec (hh : s.Held)
    (h : s.openCached place write = .ok (s', file)) :
    Opens (fun p => p = place) s s' ∧ s'.disk.links place = some file := by
  unfold openCached at h
  split at h
  · rename_i slot hslot
    have hget : (s.handles place.1)[place.2]? = some (some slot) := by
      rw [Option.join_eq_some_iff] at hslot
      exact hslot
    have hl := hh _ _ _ hget
    split at h
    · simp only [Except.ok.injEq, Prod.mk.injEq] at h
      obtain ⟨rfl, rfl⟩ := h
      refine ⟨⟨fun store idx slot' hs => ?_, Disk.Grows.refl _ _, rfl, rfl, rfl, rfl⟩, hl⟩
      simp only [Function.update_apply] at hs
      split at hs
      · rename_i hstore
        rw [List.getElem?_set] at hs
        split at hs
        · rename_i hidx
          split at hs
          · cases hs
            rw [hstore, ← hidx]
            exact hl
          · cases hs
        · exact hh store idx slot' (by rw [hstore]; exact hs)
      · exact hh store idx slot' hs
    · exact openFile_spec hh h
  · exact openFile_spec hh h

/-! ## The invariant -/

/-- The bytes last written to a file are in the file it is kept in. -/
def Placed (set : FileSet) (loc : Nat → Option Nat) (contents : Nat → List UInt8) (w : Nat → Option UInt8) : Prop :=
  ∀ (idx : Nat) (f : FileInfo) (j : Nat) (b : UInt8), set.files[idx]? = some f → f.padding = false → j < f.length →
    w (f.offset + j) = some b → ∃ i, loc idx = some i ∧ (contents i)[j]? = some b

/-- The file the bytes of a file are kept in. -/
def loc (s : FilesystemStorage) (idx : Nat) : Option Nat := s.disk.links (s.home idx)

structure Stored (s : FilesystemStorage) (w : Nat → Option UInt8) : Prop where
  held : s.Held
  shadows : ∀ idx, s.isShadowed idx = true → s.partsDir = true ∧ s.disk.links (.real, idx) = none
  bytes : Placed s.layout s.loc s.disk.contents w

theorem home_snd (s : FilesystemStorage) (idx : Nat) : (s.home idx).2 = idx := by
  unfold home
  split <;> rfl

theorem loc_injective (s : FilesystemStorage) {idx' i : Nat} (h : s.loc idx = some i) (h' : s.loc idx' = some i) : idx = idx' := by
  have := s.disk.distinct _ _ _ h h'
  rw [← home_snd s idx, this, home_snd]

theorem home_congr (hp : s'.partsDir = s.partsDir) (hs : s'.shadowed = s.shadowed) (idx : Nat) :
    s'.home idx = s.home idx := by
  unfold home isShadowed
  rw [hp, hs]

theorem home_of_shadowed (hs : s.isShadowed idx = true) (hp : s.partsDir = true) :
    s.home idx = (.shadow, idx) := by
  unfold home
  rw [hs, hp]
  rfl

theorem stored_new (layout : FileSet) (pieceLength : Nat) (partsDir : Bool) (disk : Disk Place) :
    (new layout pieceLength partsDir disk).Stored (fun _ => none) where
  held := by
    intro store idx slot h
    simp only [new, List.getElem?_replicate] at h
    split at h <;> cases h
  shadows := by
    intro idx h
    simp only [isShadowed, new, List.getElem?_replicate] at h
    split at h <;> cases h
  bytes := fun _ _ _ _ _ _ _ h => by cases h

/-- Opening the files that bytes are kept in keeps the invariant. -/
theorem Stored.opens (h : s.Stored w)
    (ho : Opens (fun p => ∃ idx, p = s.home idx) s s') : s'.Stored w where
  held := ho.held
  shadows := by
    intro idx hs
    have hs : s.isShadowed idx = true := by
      unfold isShadowed at hs ⊢
      rwa [ho.shadowed] at hs
    obtain ⟨hp, hl⟩ := h.shadows idx hs
    refine ⟨by rw [ho.partsDir]; exact hp, ?_⟩
    by_contra hne
    obtain ⟨idx', hidx'⟩ := ho.grows.created _ hl hne
    -- the real file of a shadowed file is no home
    have hsnd := home_snd s idx'
    rw [← hidx'] at hsnd
    simp only at hsnd
    subst hsnd
    rw [home_of_shadowed hs hp] at hidx'
    cases hidx'
  bytes := by
    intro idx f j b hf hpad hj hw
    rw [ho.layout] at hf
    obtain ⟨i, hi, hb⟩ := h.bytes idx f j b hf hpad hj hw
    obtain ⟨hi', hc⟩ := ho.grows.kept _ _ hi
    refine ⟨i, ?_, by rw [hc]; exact hb⟩
    rw [loc, home_congr ho.partsDir ho.shadowed]
    exact hi'

/-! ## Jobs -/

/-- The jobs of spans from a position in the buffer on: one for each span outside padding, on the file its bytes are kept in. -/
inductive JobsFor (set : FileSet) (loc : Nat → Option Nat) : Nat → List Span → List Job → Prop where
  | nil (cursor : Nat) : JobsFor set loc cursor [] []
  | padding {cursor : Nat} {span : Span} {spans : List Span} {jobs : List Job} : set.isPadding span.fileIndex = true →
      JobsFor set loc (cursor + span.len) spans jobs → JobsFor set loc cursor (span :: spans) jobs
  | file {cursor i : Nat} {span : Span} {spans : List Span} {jobs : List Job} : set.isPadding span.fileIndex = false →
      loc span.fileIndex = some i → JobsFor set loc (cursor + span.len) spans jobs →
      JobsFor set loc cursor (span :: spans) (⟨i, span.fileOffset, cursor, span.len⟩ :: jobs)

theorem Opens.refl (h : s.Held) (allowed : Place → Prop) : Opens allowed s s :=
  ⟨h, Disk.Grows.refl _ _, rfl, rfl, rfl, rfl⟩

theorem Opens.trans {allowed : Place → Prop} {a b c : FilesystemStorage} (hab : Opens allowed a b) (hbc : Opens allowed b c) :
    Opens allowed a c :=
  ⟨hbc.held, hab.grows.trans hbc.grows, hbc.layout.trans hab.layout, hbc.pieceLength.trans hab.pieceLength,
    hbc.partsDir.trans hab.partsDir, hbc.shadowed.trans hab.shadowed⟩

/-- Collecting the jobs of spans opens their files only, and the jobs are for them. -/
theorem collectJobs_spec (hh : s.Held)
    (h : s.collectJobs write spans cursor = .ok (s', jobs)) :
    Opens (fun p => ∃ idx, p = s.home idx) s s' ∧ JobsFor s.layout s'.loc cursor spans jobs := by
  induction spans generalizing s cursor jobs with
  | nil =>
    simp only [collectJobs, Except.ok.injEq, Prod.mk.injEq] at h
    obtain ⟨rfl, rfl⟩ := h
    exact ⟨Opens.refl hh _, .nil cursor⟩
  | cons span rest ih =>
    simp only [collectJobs] at h
    split at h
    · rename_i hpad
      obtain ⟨ho, hj⟩ := ih hh h
      exact ⟨ho, .padding hpad hj⟩
    rename_i hpad
    split at h
    · cases h
    rename_i s₁ file hopen
    obtain ⟨ho₁, hl₁⟩ := openCached_spec hh hopen
    split at h
    · cases h
    rename_i s₂ jobs' hrest
    simp only [Except.ok.injEq, Prod.mk.injEq] at h
    obtain ⟨rfl, rfl⟩ := h
    obtain ⟨ho₂, hj⟩ := ih ho₁.held hrest
    have hhome := home_congr ho₁.partsDir ho₁.shadowed
    simp only [hhome] at ho₂
    refine ⟨Opens.trans ⟨ho₁.held, ?_, ho₁.layout, ho₁.pieceLength, ho₁.partsDir, ho₁.shadowed⟩ ho₂, ?_⟩
    · exact ⟨ho₁.grows.kept, fun p hp hp' => ⟨_, ho₁.grows.created p hp hp'⟩⟩
    · rw [ho₁.layout] at hj
      refine .file (Bool.eq_false_iff.mpr hpad) ?_ hj
      rw [loc, home_congr ho₂.partsDir ho₂.shadowed, hhome]
      exact (ho₂.grows.kept _ _ hl₁).1

/-! ## Writes -/

/-- The bytes last written, once a write of `data` at `offset` got as far as `upto`. -/
def recorded (w : Nat → Option UInt8) (offset : Nat) (data : List UInt8) (upto : Nat) (p : Nat) : Option UInt8 :=
  if offset ≤ p ∧ p < offset + upto then data[p - offset]? else w p

theorem isPadding_eq {f : FileInfo} (h : set.files[idx]? = some f) : set.isPadding idx = f.padding := by
  simp [FileSet.isPadding, h]

/-- A write puts each byte where its file is kept. -/
theorem Placed.writeJobs {loc : Nat → Option Nat} {stop : Nat}
    {data : List UInt8}
    (hinj : ∀ idx idx' i, loc idx = some i → loc idx' = some i → idx = idx') (hj : JobsFor set loc cursor spans jobs)
    (ht : Tiles set (offset + cursor) spans (offset + stop)) (hstop : stop ≤ data.length)
    (h : Placed set loc disk.contents (recorded w offset data cursor)) :
    Placed set loc (writeJobs disk data jobs).contents (recorded w offset data stop) := by
  induction hj generalizing disk with
  | nil cursor =>
    obtain rfl : cursor = stop := Nat.add_left_cancel ht
    exact h
  | @padding cursor span spans jobs hpad hrest ih =>
    obtain ⟨⟨f, hf, hpos, hlen⟩, ht⟩ := ht
    rw [Nat.add_assoc] at ht
    refine ih ht (fun idx g j b hg hgpad hj hw => ?_)
    refine h idx g j b hg hgpad hj ?_
    -- the positions of the span are in padding, so none of them is one of this file
    unfold recorded at hw ⊢
    split at hw
    · rename_i hp
      have hlt : g.offset + j < offset + cursor := by
        by_contra hge
        have := set.contiguous.unique hf hg (p := g.offset + j) (by omega) (by omega)
        subst this
        rw [hf] at hg
        cases hg
        rw [isPadding_eq hf, hgpad] at hpad
        cases hpad
      rw [if_pos ⟨hp.1, hlt⟩]
      exact hw
    · rename_i hp
      rw [if_neg (by omega)]
      exact hw
  | @file cursor i span spans jobs hpad hloc hrest ih =>
    obtain ⟨⟨f, hf, hpos, hlen⟩, ht⟩ := ht
    have hle := tiles_le ht
    rw [Nat.add_assoc] at ht
    have hchunk : ((data.drop cursor).take span.len).length = span.len := by
      rw [List.length_take, List.length_drop]
      omega
    have hstep : Placed set loc (disk.pwriteAll i span.fileOffset ((data.drop cursor).take span.len)).contents
        (recorded w offset data (cursor + span.len)) := ?_
    · exact ih ht hstep
    intro idx g j b hg hgpad hj hw
    by_cases hin : offset + cursor ≤ g.offset + j ∧ g.offset + j < offset + cursor + span.len
    · -- the byte is one of the span's
      have hidx := set.contiguous.unique hf hg (p := g.offset + j) (by omega) (by omega)
      subst hidx
      rw [hf] at hg
      cases hg
      refine ⟨i, hloc, ?_⟩
      obtain ⟨k, rfl⟩ : ∃ k, j = span.fileOffset + k := ⟨j - span.fileOffset, by omega⟩
      rw [Disk.contents_pwriteAll_self _ _ _ _ (by rw [hchunk]; omega), List.getElem?_take_of_lt (by omega), List.getElem?_drop]
      unfold recorded at hw
      rw [if_pos (by omega)] at hw
      rw [← hw]
      congr 1
      omega
    · have hw' : recorded w offset data cursor (g.offset + j) = some b := by
        unfold recorded at hw ⊢
        split at hw
        · rw [if_pos (by omega)]
          exact hw
        · rw [if_neg (by omega)]
          exact hw
      obtain ⟨i', hi', hb⟩ := h idx g j b hg hgpad hj hw'
      refine ⟨i', hi', Disk.contents_pwriteAll_of_ne _ _ _ _ hb ?_⟩
      rintro ⟨rfl, hj1, hj2⟩
      have hidx := hinj _ _ _ hloc hi'
      subst hidx
      rw [hf] at hg
      cases hg
      rw [hchunk] at hj2
      omega

theorem links_writeJobs (data : List UInt8) (jobs : List Job) (disk : Disk Place) : (writeJobs disk data jobs).links = disk.links := by
  induction jobs generalizing disk with
  | nil => rfl
  | cons job rest ih => exact (ih _).trans rfl

theorem recorded_zero (w : Nat → Option UInt8) (offset : Nat) (data : List UInt8) : recorded w offset data 0 = w := by
  funext p
  unfold recorded
  rw [if_neg (by omega)]

/-- After a write the bytes written are the last ones. -/
theorem Stored.writeAtOwned (h : s.Stored w) {data : List UInt8}
    (hw : s.writeAtOwned offset data = .ok s') : s'.Stored (recorded w offset data data.length) := by
  unfold FilesystemStorage.writeAtOwned at hw
  split at hw
  · cases hw
  rename_i hrange
  simp only [inRange, Bool.not_eq_true, Bool.not_eq_false', Bool.and_eq_true, decide_eq_true_eq] at hrange
  split at hw
  · cases hw
  rename_i s₁ jobs hjobs
  obtain ⟨ho, hj⟩ := collectJobs_spec h.held hjobs
  have h₁ := h.opens ho
  have hplaced : Placed s₁.layout s₁.loc (FilesystemStorage.writeJobs s₁.disk data jobs).contents
      (recorded w offset data data.length) := by
    have hbytes := h₁.bytes
    rw [ho.layout] at hbytes ⊢
    exact Placed.writeJobs (fun _ _ _ => s₁.loc_injective) hj (spansFor_tiles s.layout hrange.2) (Nat.le_refl _)
      (by rw [recorded_zero]; exact hbytes)
  split at hw
  · rename_i hnil
    cases hw
    have : jobs = [] := List.isEmpty_iff.mp hnil
    subst this
    exact ⟨h₁.held, h₁.shadows, hplaced⟩
  · cases hw
    have hloc : ∀ idx, loc { s₁ with dirty := true, disk := FilesystemStorage.writeJobs s₁.disk data jobs } idx = s₁.loc idx := by
      intro idx
      simp only [loc, links_writeJobs]
      rfl
    refine ⟨fun store idx slot hs => ?_, fun idx hs => ?_, ?_⟩
    · simp only [links_writeJobs]
      exact h₁.held store idx slot hs
    · simp only [links_writeJobs]
      exact h₁.shadows idx hs
    · rw [show loc { s₁ with dirty := true, disk := FilesystemStorage.writeJobs s₁.disk data jobs } = s₁.loc from funext hloc]
      exact hplaced

/-! ## Reads -/

/-- What a read from `offset` must hold as far as `upto`: zero in padding, and elsewhere the byte last written. -/
def ReadsBack (set : FileSet) (w : Nat → Option UInt8) (offset : Nat) (out : List UInt8) (upto : Nat) : Prop :=
  ∀ k < upto, ∀ (idx : Nat) (f : FileInfo), set.files[idx]? = some f → f.offset ≤ offset + k → offset + k < f.offset + f.length →
    (f.padding = true → out[k]? = some 0) ∧ (f.padding = false → ∀ b, w (offset + k) = some b → out[k]? = some b)

theorem readJobs_spec {loc : Nat → Option Nat} {len : Nat}
    {out out' : List UInt8} (hp : Placed set loc disk.contents w)
    (hj : JobsFor set loc cursor spans jobs) (ht : Tiles set (offset + cursor) spans (offset + len)) (hlen : out.length = len)
    (hzero : ∀ k, cursor ≤ k → k < len → out[k]? = some 0) (hdone : ReadsBack set w offset out cursor)
    (h : readJobs disk jobs out = .ok out') : out'.length = len ∧ ReadsBack set w offset out' len := by
  induction hj generalizing out with
  | nil cursor =>
    obtain rfl : cursor = len := Nat.add_left_cancel ht
    cases h
    exact ⟨hlen, hdone⟩
  | @padding cursor span spans jobs hpad hrest ih =>
    obtain ⟨⟨f, hf, hpos, hle⟩, ht⟩ := ht
    have hstop := tiles_le ht
    rw [Nat.add_assoc] at ht
    refine ih ht hlen (fun k hk => hzero k (by omega)) (fun k hk idx g hg h1 h2 => ?_) h
    by_cases hlt : k < cursor
    · exact hdone k hlt idx g hg h1 h2
    · have hidx := set.contiguous.unique hf hg (p := offset + k) (by omega) (by omega)
      subst hidx
      rw [hf] at hg
      cases hg
      rw [isPadding_eq hf] at hpad
      exact ⟨fun _ => hzero k (by omega) (by omega), fun hno => absurd hno (by rw [hpad]; exact Bool.true_eq_false_eq_False)⟩
  | @file cursor i span spans jobs hpad hloc hrest ih =>
    obtain ⟨⟨f, hf, hpos, hle⟩, ht⟩ := ht
    have hstop := tiles_le ht
    rw [Nat.add_assoc] at ht
    simp only [readJobs] at h
    split at h
    · cases h
    rename_i bytes hread
    obtain ⟨hblen, hbytes⟩ := Disk.preadExact_eq_some hread
    have hfit : cursor + bytes.length ≤ out.length := by omega
    refine ih ht (by rw [length_overwrite hfit]; exact hlen) (fun k hk hk' => ?_) (fun k hk idx g hg h1 h2 => ?_) h
    · rw [getElem?_overwrite hfit, if_neg (by omega)]
      exact hzero k (by omega) hk'
    · rw [getElem?_overwrite hfit]
      by_cases hlt : k < cursor
      · rw [if_neg (by omega)]
        exact hdone k hlt idx g hg h1 h2
      · rw [if_pos (by omega)]
        have hidx := set.contiguous.unique hf hg (p := offset + k) (by omega) (by omega)
        subst hidx
        rw [hf] at hg
        cases hg
        rw [isPadding_eq hf] at hpad
        refine ⟨fun hyes => absurd hyes (by rw [hpad]; exact Bool.false_ne_true), fun _ b hw => ?_⟩
        obtain ⟨i', hi', hb⟩ := hp span.fileIndex f (span.fileOffset + (k - cursor)) b hf hpad (by omega)
          (by rw [← hw]; congr 1; omega)
        rw [hloc] at hi'
        cases hi'
        rw [hbytes (k - cursor) (by omega)]
        exact hb

/-- A read that succeeds reads back what was written. -/
theorem Stored.readOwned (h : s.Stored w) {len : Nat} {out : List UInt8}
    (hr : s.readOwned offset len = .ok (s', out)) : s'.Stored w ∧ out.length = len ∧ ReadsBack s.layout w offset out len := by
  unfold FilesystemStorage.readOwned at hr
  split at hr
  · cases hr
  rename_i hrange
  simp only [inRange, Bool.not_eq_true, Bool.not_eq_false', Bool.and_eq_true, decide_eq_true_eq] at hrange
  split at hr
  · cases hr
  rename_i s₁ jobs hjobs
  split at hr
  · cases hr
  rename_i out' hout
  simp only [Except.ok.injEq, Prod.mk.injEq] at hr
  obtain ⟨rfl, rfl⟩ := hr
  obtain ⟨ho, hj⟩ := collectJobs_spec h.held hjobs
  have h₁ := h.opens ho
  have hbytes := h₁.bytes
  rw [ho.layout] at hbytes
  refine ⟨h₁, readJobs_spec hbytes hj (spansFor_tiles s.layout hrange.2) (by simp) (fun k _ hk => ?_) (fun k hk => ?_) hout⟩
  · rw [List.getElem?_replicate, if_pos hk]
  · exact absurd hk (Nat.not_lt_zero k)

/-! ## Selections -/

theorem isShadowed_setSelection (selected : Option (Finset Nat))
    (h : (s.setSelection selected).1.isShadowed idx = true) :
    s.isShadowed idx = true ∨ (s.partsDir = true ∧ ∃ f, s.layout.files[idx]? = some f ∧ s.becomesShadowed selected idx f = true) := by
  unfold setSelection at h
  split at h
  · exact Or.inl h
  rename_i hdir
  simp only [isShadowed, List.getElem?_map, List.getElem?_zipIdx] at h
  cases hs : s.shadowed[idx]? with
  | none =>
    rw [hs] at h
    cases h
  | some b =>
    rw [hs] at h
    simp only [Option.map_some, Nat.zero_add, Option.getD_some, Bool.or_eq_true] at h
    rcases h with rfl | h
    · exact Or.inl (by simp [isShadowed, hs])
    · cases hf : s.layout.files[idx]? with
      | none =>
        rw [hf] at h
        cases h
      | some f =>
        rw [hf] at h
        exact Or.inr ⟨by simpa using hdir, f, rfl, h⟩

theorem isShadowed_setSelection_of (selected : Option (Finset Nat))
    (h : s.isShadowed idx = true) : (s.setSelection selected).1.isShadowed idx = true := by
  unfold setSelection
  split
  · exact h
  simp only [isShadowed, List.getElem?_map, List.getElem?_zipIdx] at h ⊢
  cases hs : s.shadowed[idx]? with
  | none =>
    rw [hs] at h
    cases h
  | some b =>
    rw [hs] at h
    simp only [Option.getD_some] at h
    simp [h]

theorem setSelection_frame (s : FilesystemStorage) (selected : Option (Finset Nat)) :
    (s.setSelection selected).1.layout = s.layout ∧ (s.setSelection selected).1.partsDir = s.partsDir ∧
      (s.setSelection selected).1.handles = s.handles ∧ (s.setSelection selected).1.disk = s.disk := by
  unfold setSelection
  split <;> exact ⟨rfl, rfl, rfl, rfl⟩

/-- A file is shadowed only while nothing of it is on disk, so nothing was written to it. -/
theorem Stored.setSelection (h : s.Stored w) (selected : Option (Finset Nat)) :
    (s.setSelection selected).1.Stored w := by
  obtain ⟨hlay, hdir, hhan, hdisk⟩ := setSelection_frame s selected
  have hnone : ∀ idx f, s.becomesShadowed selected idx f = true → s.disk.links (.real, idx) = none := by
    intro idx f hb
    simp only [becomesShadowed, Bool.and_eq_true, Option.isNone_iff_eq_none] at hb
    exact hb.1.2
  refine ⟨fun store idx slot hs => ?_, fun idx hs => ?_, fun idx f j b hf hpad hj hw => ?_⟩
  · rw [hhan] at hs
    rw [hdisk]
    exact h.held store idx slot hs
  · rw [hdir, hdisk]
    rcases isShadowed_setSelection selected hs with hs | ⟨hp, f, _, hb⟩
    · exact h.shadows idx hs
    · exact ⟨hp, hnone idx f hb⟩
  · rw [hlay] at hf
    obtain ⟨i, hi, hb⟩ := h.bytes idx f j b hf hpad hj hw
    refine ⟨i, ?_, by rw [hdisk]; exact hb⟩
    rw [loc, hdisk, ← hi, loc]
    congr 1
    cases hold : s.isShadowed idx with
    | true =>
      have hp := (h.shadows idx hold).1
      rw [home_of_shadowed hold hp, home_of_shadowed (isShadowed_setSelection_of selected hold) (by rw [hdir]; exact hp)]
    | false =>
      have hreal : s.home idx = (.real, idx) := by simp [home, hold]
      cases hnew : (s.setSelection selected).1.isShadowed idx with
      | false => rw [hreal]; simp [home, hnew]
      | true =>
        rcases isShadowed_setSelection selected hnew with hs | ⟨_, f', _, hb'⟩
        · rw [hold] at hs
          cases hs
        · rw [loc, hreal, hnone idx f' hb'] at hi
          cases hi

theorem Stored.closeHandles (h : s.Stored w) : s.closeHandles.Stored w where
  held := by
    intro store idx slot hs
    simp only [FilesystemStorage.closeHandles, List.getElem?_map, Option.map_eq_some_iff] at hs
    obtain ⟨_, _, hs⟩ := hs
    cases hs
  shadows := h.shadows
  bytes := h.bytes

/-! ## Promotions -/

/-- A position of a file is in one of its boundary ranges, the part of its first and of its last piece. -/
def InBoundary (f : FileInfo) (pieceLength j : Nat) : Prop :=
  ∃ r ∈ boundaryRanges f.offset f.length pieceLength, r.1 ≤ j ∧ j < r.1 + r.2

/-- Every position written of a file that is shadowed is in one of its boundary ranges. -/
def Covered (s : FilesystemStorage) (w : Nat → Option UInt8) (idx : Nat) : Prop :=
  s.isShadowed idx = true → ∀ f, s.layout.files[idx]? = some f → ∀ j < f.length, w (f.offset + j) ≠ none →
    InBoundary f s.pieceLength j

theorem links_copyRanges (shadow real shadowLen : Nat) (ranges : List (Nat × Nat)) (disk : Disk Place) :
    (copyRanges shadow real shadowLen ranges disk).links = disk.links := by
  induction ranges generalizing disk with
  | nil => rfl
  | cons r rest ih =>
    refine (ih _).trans ?_
    simp only
    split <;> rfl

/-- The copy changes the real file only, and what it copies is there. -/
theorem copyRanges_spec {shadow real shadowLen : Nat} (hne : shadow ≠ real)
    (hlen : (disk.contents shadow).length = shadowLen) (ranges : List (Nat × Nat)) :
    (∀ i, i ≠ real → (copyRanges shadow real shadowLen ranges disk).contents i = disk.contents i) ∧
      ∀ (j : Nat) (b : UInt8), (disk.contents shadow)[j]? = some b →
        ((disk.contents real)[j]? = some b ∨ ∃ r ∈ ranges, r.1 ≤ j ∧ j < r.1 + r.2) →
          ((copyRanges shadow real shadowLen ranges disk).contents real)[j]? = some b := by
  induction ranges generalizing disk with
  | nil => exact ⟨fun _ _ => rfl, fun j b _ hb => hb.elim id (fun ⟨_, hr, _⟩ => absurd hr List.not_mem_nil)⟩
  | cons r rest ih =>
    unfold copyRanges
    rw [List.foldl_cons]
    simp only
    split
    · rename_i hstop
      obtain ⟨ih₁, ih₂⟩ := ih hlen
      refine ⟨ih₁, fun j b hs hb => ih₂ j b hs ?_⟩
      have hj := (List.getElem?_eq_some_iff.mp hs).1
      rcases hb with hb | ⟨r', hr', hin⟩
      · exact Or.inl hb
      · rcases List.mem_cons.mp hr' with rfl | hr'
        · omega
        · exact Or.inr ⟨r', hr', hin⟩
    · rename_i hstop
      -- the bytes read are those of the shadow up to its end
      obtain ⟨bytes, hread⟩ : ∃ bytes, disk.preadExact shadow r.1 (min (r.1 + r.2) shadowLen - r.1) = some bytes := by
        unfold Disk.preadExact
        rw [if_pos (by omega)]
        exact ⟨_, rfl⟩
      obtain ⟨hblen, hbytes⟩ := Disk.preadExact_eq_some hread
      rw [hread, Option.getD_some]
      have hshadow : (disk.pwriteAll real r.1 bytes).contents shadow = disk.contents shadow := by
        simp only [Disk.pwriteAll, Function.update_of_ne hne]
      obtain ⟨ih₁, ih₂⟩ := ih (by rw [hshadow]; exact hlen)
      refine ⟨fun i hi => ?_, fun j b hs hb => ?_⟩
      · refine (ih₁ i hi).trans ?_
        simp only [Disk.pwriteAll, Function.update_of_ne hi]
      · have hj := (List.getElem?_eq_some_iff.mp hs).1
        refine ih₂ j b (by rw [hshadow]; exact hs) ?_
        by_cases hin : r.1 ≤ j ∧ j < r.1 + bytes.length
        · obtain ⟨k, rfl⟩ : ∃ k, j = r.1 + k := ⟨j - r.1, by omega⟩
          left
          rw [Disk.contents_pwriteAll_self _ _ _ _ (by omega), hbytes k (by omega)]
          exact hs
        · rcases hb with hb | ⟨r', hr', hr⟩
          · exact Or.inl (Disk.contents_pwriteAll_of_ne _ _ _ _ hb (fun h => hin h.2))
          · rcases List.mem_cons.mp hr' with rfl | hr'
            · omega
            · exact Or.inr ⟨r', hr', hr⟩

/-- The copy of a promotion: only the real file changes, and the shadow's bytes in the ranges are in it. -/
theorem copyShadow_spec {real : Nat} (hreal : disk.links (.real, idx) = some real)
    (ranges : List (Nat × Nat)) :
    (copyShadow disk idx real ranges).links = disk.links ∧
      (∀ i, i ≠ real → (copyShadow disk idx real ranges).contents i = disk.contents i) ∧
      ∀ (i j : Nat) (b : UInt8), disk.links (.shadow, idx) = some i → (disk.contents i)[j]? = some b →
        (∃ r ∈ ranges, r.1 ≤ j ∧ j < r.1 + r.2) → ((copyShadow disk idx real ranges).contents real)[j]? = some b := by
  unfold copyShadow
  split
  · rename_i hl
    exact ⟨rfl, fun _ _ => rfl, fun i _ _ hi => by rw [hl] at hi; cases hi⟩
  · rename_i shadow hl
    have hne : shadow ≠ real := by
      rintro rfl
      cases disk.distinct _ _ _ hl hreal
    obtain ⟨h₁, h₂⟩ := copyRanges_spec hne rfl ranges
    refine ⟨links_copyRanges .., h₁, fun i j b hi hb hin => ?_⟩
    rw [hl] at hi
    cases hi
    exact h₂ j b hb (Or.inr hin)

/-- A promotion keeps what was written, if all of it is in the boundary ranges. -/
theorem Stored.promoteFile (h : s.Stored w) {removed : Bool}
    (hc : s.Covered w idx) (hp : s.promoteFile idx removed = .ok s') : s'.Stored w := by
  unfold FilesystemStorage.promoteFile at hp
  split at hp
  · cases hp
    exact h
  rename_i hcond
  simp only [Bool.or_eq_true, Bool.not_eq_true', not_or, Bool.not_eq_false] at hcond
  obtain ⟨hsh, hdir⟩ := hcond
  split at hp
  · cases hp
    exact h
  rename_i f hf
  split at hp
  · cases hp
  rename_i s₁ real hopen
  obtain ⟨ho, hreal⟩ := openCached_spec h.held hopen
  have hhome := home_congr ho.partsDir ho.shadowed
  cases hp
  obtain ⟨hlinks, hother, hmoved⟩ := copyShadow_spec hreal (boundaryRanges f.offset f.length s₁.pieceLength)
  generalize copyShadow s₁.disk idx real (boundaryRanges f.offset f.length s₁.pieceLength) = disk at hlinks hother hmoved ⊢
  -- removing the shadow touches no other path
  have hfinal : ∀ p, p ≠ (.shadow, idx) → (if removed then disk.remove (.shadow, idx) else disk).links p = s₁.disk.links p := by
    intro p hne
    split
    · simp only [Disk.remove, Function.update_of_ne hne, hlinks]
    · rw [hlinks]
  have hcont : (if removed then disk.remove (.shadow, idx) else disk).contents = disk.contents := by
    split <;> rfl
  have hshadowed : ∀ i, i ≠ idx → (s₁.shadowed.set idx false)[i]?.getD false = s.isShadowed i := by
    intro i hi
    rw [List.getElem?_set_ne (Ne.symm hi), ho.shadowed]
    rfl
  have hself : (s₁.shadowed.set idx false)[idx]?.getD false = false := by
    rw [List.getElem?_set, if_pos rfl]
    split <;> rfl
  refine ⟨fun store i slot hs => ?_, fun i hs => ?_, fun i g j b hg hpad hj hw => ?_⟩
  · simp only [Function.update_apply] at hs
    split at hs
    · rename_i hstore
      subst hstore
      rw [List.getElem?_set] at hs
      split at hs
      · split at hs <;> cases hs
      · rename_i hne
        simp only
        rw [hfinal _ (fun he => hne (by cases he; rfl))]
        exact ho.held _ i slot hs
    · rename_i hstore
      simp only
      rw [hfinal _ (fun he => hstore (by cases he; rfl))]
      exact ho.held store i slot hs
  · have hs' : (s₁.shadowed.set idx false)[i]?.getD false = true := hs
    have hne : i ≠ idx := by
      rintro rfl
      rw [hself] at hs'
      cases hs'
    rw [hshadowed i hne] at hs'
    obtain ⟨hd, hl⟩ := h.shadows i hs'
    refine ⟨by rw [← hd]; exact ho.partsDir, ?_⟩
    simp only
    rw [hfinal _ (fun he => by cases he)]
    by_contra hlink
    have := ho.grows.created _ hl hlink
    cases this
    exact hne rfl
  · have hg' : s.layout.files[i]? = some g := by rw [← ho.layout]; exact hg
    obtain ⟨file, hfile, hb⟩ := h.bytes i g j b hg' hpad hj hw
    obtain ⟨hfile', hkept⟩ := ho.grows.kept _ _ hfile
    by_cases hi : i = idx
    · subst hi
      rw [hf] at hg'
      cases hg'
      rw [home_of_shadowed hsh hdir] at hfile'
      refine ⟨real, ?_, ?_⟩
      · have hnew : home { s₁ with
            dirty := true, shadowed := s₁.shadowed.set i false,
            handles := Function.update s₁.handles .shadow ((s₁.handles .shadow).set i none),
            disk := if removed then disk.remove (.shadow, i) else disk } i = (.real, i) := by
          unfold home isShadowed
          simp only [hself, Bool.false_and, Bool.false_eq_true, if_false]
        rw [loc, hnew]
        simp only
        rw [hfinal _ (fun he => by cases he)]
        exact hreal
      · simp only [hcont]
        rw [ho.pieceLength] at hmoved
        refine hmoved file j b hfile' (by rw [hkept]; exact hb) (hc hsh f hf j hj ?_)
        rw [hw]
        exact Option.some_ne_none b
    · refine ⟨file, ?_, ?_⟩
      · have hnew : home { s₁ with
            dirty := true, shadowed := s₁.shadowed.set idx false,
            handles := Function.update s₁.handles .shadow ((s₁.handles .shadow).set idx none),
            disk := if removed then disk.remove (.shadow, idx) else disk } i = s.home i := by
          unfold home isShadowed
          simp only [hshadowed i hi, ho.partsDir]
          rfl
        rw [loc, hnew]
        simp only
        rw [hfinal _ (fun he => hi (by rw [← home_snd s i, he]))]
        exact hfile'
      · have hne : file ≠ real := by
          rintro rfl
          have := s₁.disk.distinct _ _ _ hfile' hreal
          exact hi (by rw [← home_snd s i, this])
        simp only [hcont]
        rw [hother file hne, hkept]
        exact hb

end FilesystemStorage

end Risuko
