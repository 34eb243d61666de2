import Risuko.Lemmas.Transfer

/-!
# What a run has checked

A part is complete only when a job has read it, all of it, and found the digest that is expected (`Transfer.Checked`), and the bytes of a part that is
complete stay. While a run restores parts nothing writes to the file, so a job reads what is there (`Directory.Restoring`).
-/

namespace Risuko

namespace Ed2k

variable {md4 : List UInt8 → Digest}

namespace Transfer

/-- The list of digests is one of the link, and every complete part has its digest. -/
structure Checked (md4 : List UInt8 → Digest) (s : Transfer) : Prop where
  hashes : ∀ hashes, s.chunks.chunkHashes = some hashes →
    hashes.length = s.chunks.fileSize / ed2kChunkSize + 1 ∧ md4 hashes.flatten = s.chunks.fileHash
  parts : ∀ p < chunkCount s.chunks.fileSize, (s.chunks.part p).status = .downloaded →
    s.chunks.expectedPartHash p = some (md4 (partOf s.disk p))

/-- What a step does to the digests and to the parts that are complete. -/
structure Progress (md4 : List UInt8 → Digest) (s s' : Transfer) : Prop where
  size : s'.chunks.fileSize = s.chunks.fileSize
  hash : s'.chunks.fileHash = s.chunks.fileHash
  expected : ∀ p e, s.chunks.expectedPartHash p = some e → s'.chunks.expectedPartHash p = some e
  hashes : s'.chunks.chunkHashes = s.chunks.chunkHashes ∨ ∃ hashes, s'.chunks.chunkHashes = some hashes ∧
    hashes.length = s.chunks.fileSize / ed2kChunkSize + 1 ∧ md4 hashes.flatten = s.chunks.fileHash
  parts : ∀ p, (s'.chunks.part p).status = .downloaded → (s.chunks.part p).status = .downloaded ∨
    s.chunks.expectedPartHash p = some (md4 (partOf s.disk p)) ∧ s'.disk = s.disk

/-- Another manager with the same digests. -/
theorem progress_of_chunks {s s' : Transfer} (hsize : s'.chunks.fileSize = s.chunks.fileSize) (hhash : s'.chunks.fileHash = s.chunks.fileHash)
    (hhashes : s'.chunks.chunkHashes = s.chunks.chunkHashes)
    (hparts : ∀ p, (s'.chunks.part p).status = .downloaded → (s.chunks.part p).status = .downloaded ∨
      s.chunks.expectedPartHash p = some (md4 (partOf s.disk p)) ∧ s'.disk = s.disk) : Progress md4 s s' where
  size := hsize
  hash := hhash
  expected p e he := by
    rw [← he, ChunkManager.expectedPartHash, ChunkManager.expectedPartHash, hsize, hhash, hhashes]
  hashes := .inl hhashes
  parts := hparts

theorem progress_refl {s s' : Transfer} (h : s'.chunks = s.chunks) : Progress md4 s s' := by
  refine progress_of_chunks (by rw [h]) (by rw [h]) (by rw [h]) ?_
  intro p hp
  rw [h] at hp
  exact .inl hp

/-- A list of digests that comes from a peer or from a sidecar. -/
theorem progress_hashes (s : Transfer) (hashes : List Digest) :
    Progress md4 s { s with chunks := (s.chunks.setChunkHashes md4 hashes).2 } := by
  have hexpected : ∀ p e, s.chunks.expectedPartHash p = some e → (s.chunks.setChunkHashes md4 hashes).2.expectedPartHash p = some e :=
    fun p e => expectedPartHash_setChunkHashes md4
  obtain ⟨ch, heq, hch⟩ := s.chunks.setChunkHashes_eq md4 hashes
  rw [heq] at hexpected ⊢
  refine { size := rfl, hash := rfl, expected := hexpected, hashes := ?_, parts := fun _ hp => .inl hp }
  rcases hch with hsame | ⟨hset, hlength, hmd4⟩
  · exact .inl hsame
  · exact .inr ⟨hashes, hset, hlength, hmd4⟩

theorem progress_commit {s : Transfer} (hs : Sound s) {i : ℕ} {w : Write} (hw : s.writes[i]? = some w) :
    Progress md4 s { s with chunks := (s.chunks.commitWrite w.peer w.ticket).2, writes := s.writes.set i { w with committed := true } } := by
  rcases s.chunks.commitWrite_cases w.peer w.ticket with ⟨hsame, -⟩ |
    ⟨hwritable, -, covered, added, status, sources, -, hstatus, -, heq⟩
  · exact progress_refl hsame
  · refine progress_of_chunks (by rw [heq]; rfl) (by rw [heq]; rfl) (by rw [heq]; rfl) ?_
    intro p hp
    obtain ⟨hpart, -, -, hmissing, -⟩ := hs.chunks.writablePart_eq_some (hs.writes w (List.mem_of_getElem? hw)).lt hwritable
    have hlt : w.ticket.part < s.chunks.parts.length := hs.chunks.parts ▸ hpart
    have hp : ((s.chunks.commitWrite w.peer w.ticket).2.part p).status = .downloaded := hp
    rw [heq] at hp
    rcases eq_or_ne p w.ticket.part with rfl | hne
    · have hstatus' : status = .downloaded := (congrArg Part.status (ChunkManager.part_setPart_self hlt _)).symm.trans hp
      rw [hstatus', hmissing] at hstatus
      rcases hstatus with hstatus | ⟨hstatus, -⟩ <;> cases hstatus
    · exact .inl ((congrArg Part.status (ChunkManager.part_setPart_of_ne hne _)).symm.trans hp)

theorem progress_finish {s : Transfer} (hs : Sound s) {j : ℕ} {h : Hashing} (hj : s.hashings[j]? = some h) {ok : Bool}
    (hok : ok = true → s.chunks.expectedPartHash h.job.index = some (md4 (partOf s.disk h.job.index))) :
    Progress md4 s (s.finish j h ok) := by
  have hf := hs.hashings h (List.mem_of_getElem? hj)
  have hlt : h.job.index < s.chunks.parts.length := hs.chunks.parts ▸ hf.job.index
  obtain ⟨hsize, -, hhashes, hhash⟩ := finishVerify_rest hlt ok
  refine progress_of_chunks hsize hhash hhashes ?_
  intro p hp
  have hp : ((s.chunks.finishVerify h.job.index ok).part p).status = .downloaded := hp
  rcases eq_or_ne p h.job.index with rfl | hne
  · cases ok with
    | true => exact .inr ⟨hok rfl, rfl⟩
    | false =>
      rw [finishVerify_self hlt false] at hp
      cases hp
  · rw [finishVerify_part hlt ok hne] at hp
    exact .inl hp

theorem Sound.progress {s s' : Transfer} {a : Action} (hs : Sound s) (h : s.step md4 a = some s') : Progress md4 s s' := by
  cases a with
  | assign peer peerParts max =>
    cases h
    obtain ⟨rc, pb, heq⟩ := s.chunks.assignBlocks_eq peer peerParts max
    rw [heq]
    exact progress_of_chunks rfl rfl rfl fun _ hp => .inl hp
  | release peer =>
    cases h
    exact progress_of_chunks rfl rfl rfl fun _ hp => .inl hp
  | hashes hashes =>
    cases h
    exact progress_hashes s hashes
  | begin peer offset data =>
    cases h
    unfold Transfer.begin
    dsimp only
    split
    · exact progress_refl rfl
    · exact progress_refl rfl
    · rename_i ticket cm hbegin
      obtain ⟨-, -, -, -, -, -, rfl⟩ := ChunkManager.beginWrite_eq_some hbegin
      exact progress_of_chunks rfl rfl rfl fun _ hp => .inl hp
  | write i n =>
    obtain ⟨w, hw, h⟩ := Option.bind_eq_some_iff.mp h
    split at h
    · cases h
    · cases h
      exact progress_refl rfl
  | commit i =>
    obtain ⟨w, hw, h⟩ := Option.bind_eq_some_iff.mp h
    split at h
    · cases h
      exact progress_commit hs hw
    · cases h
  | drop i =>
    obtain ⟨w, hw, rfl⟩ := Option.map_eq_some_iff.mp h
    unfold ChunkManager.dropTicket
    split
    · exact progress_refl rfl
    · exact progress_of_chunks rfl rfl rfl fun _ hp => .inl hp
  | takeJobs =>
    cases h
    have htaken := hs.chunks.toLaid.taken
    obtain ⟨ps, hps⟩ := htaken.rest
    have hsize : s.chunks.takeVerifyJobs.2.fileSize = s.chunks.fileSize := by rw [hps]
    have hhash : s.chunks.takeVerifyJobs.2.fileHash = s.chunks.fileHash := by rw [hps]
    have hhashes : s.chunks.takeVerifyJobs.2.chunkHashes = s.chunks.chunkHashes := by rw [hps]
    refine progress_of_chunks hsize hhash hhashes ?_
    intro p hp
    have hp : (s.chunks.takeVerifyJobs.2.part p).status = .downloaded := hp
    rw [htaken.parts p] at hp
    exact .inl hp
  | read j n =>
    obtain ⟨g, hg, h⟩ := Option.bind_eq_some_iff.mp h
    cases h
    exact progress_refl rfl
  | finish j =>
    obtain ⟨g, hg, h⟩ := Option.bind_eq_some_iff.mp h
    split at h
    · rename_i hread
      cases h
      refine progress_finish hs hg fun hok => ?_
      have hf := hs.hashings g (List.mem_of_getElem? hg)
      rw [hf.job.expected, ← beq_iff_eq.mp hok, hf.read_eq hs.disk hread]
    · cases h
  | readFailed j =>
    obtain ⟨g, hg, rfl⟩ := Option.map_eq_some_iff.mp h
    exact progress_finish hs hg nofun

/-- The step lemma. -/
theorem Checked.step {s s' : Transfer} {a : Action} (h : Checked md4 s) (hs : Sound s) (hstep : s.step md4 a = some s') :
    Checked md4 s' := by
  have hprogress := hs.progress hstep
  have hs' := hs.step hstep
  refine ⟨?_, ?_⟩
  · intro hashes hset
    rw [hprogress.size, hprogress.hash]
    rcases hprogress.hashes with hsame | ⟨_, hnew, hlength, hmd4⟩
    · exact h.hashes hashes (hsame ▸ hset)
    · rw [hnew] at hset
      cases hset
      exact ⟨hlength, hmd4⟩
  · intro p hp hstatus
    rw [hprogress.size] at hp
    rcases hprogress.parts p hstatus with hold | ⟨hexpected, hdisk⟩
    · have hsame : partOf s'.disk p = partOf s.disk p := by
        have hlength : s'.disk.length = s.disk.length := hs'.disk.trans (hprogress.size.trans hs.disk.symm)
        refine partOf_congr hlength fun k hlo hhi => ?_
        rw [hlength, hs.disk] at hlo hhi
        exact hs.getElem?_disk_step hstep hp (by rw [hold]; decide) hlo hhi
      rw [hsame]
      exact hprogress.expected p _ (h.parts p hp hold)
    · rw [hdisk]
      exact hprogress.expected p _ hexpected

end Transfer

/-! ## Restoring -/

/-- A job of `restore_jobs`. -/
structure ChunkManager.RestoreJob (cm : ChunkManager) (job : VerifyJob) : Prop where
  index : job.index < chunkCount cm.fileSize
  range : (job.start, job.stop) = chunkRange cm.fileSize job.index
  expected : cm.expectedPartHash job.index = some job.expected

theorem ChunkManager.restoreJobs_spec (cm : ChunkManager) (claimed : List ℕ) : ∀ job ∈ cm.restoreJobs claimed, cm.RestoreJob job := by
  have hfold : ∀ (L : List ℕ) (acc : List ℕ × List VerifyJob), (∀ job ∈ acc.2, cm.RestoreJob job) →
      ∀ job ∈ (L.foldl cm.restoreJob acc).2, cm.RestoreJob job := by
    intro L
    induction L with
    | nil => exact fun _ hacc => hacc
    | cons index L ih =>
      intro acc hacc
      refine ih _ ?_
      unfold ChunkManager.restoreJob
      split
      · exact hacc
      rename_i hcond
      split
      · exact hacc
      · rename_i expected hexpected
        refine List.forall_mem_append.mpr ⟨hacc, fun job hjob => ?_⟩
        obtain rfl := List.mem_singleton.mp hjob
        exact ⟨Nat.lt_of_not_le (not_or.mp hcond).1, rfl, hexpected⟩
  exact hfold claimed _ nofun

theorem ChunkManager.restoreJobs_of_met (cm : ChunkManager) (met : Option Met) :
    ∀ job ∈ (met.map fun met => cm.restoreJobs met.verified).getD [], cm.RestoreJob job := by
  cases met with
  | none => exact nofun
  | some met => exact cm.restoreJobs_spec met.verified

/-- One more piece of what is read. -/
theorem append_piece_prefix {disk read : List UInt8} {start len : ℕ} (h : read <+: (disk.drop start).take len) (n : ℕ) :
    read ++ (disk.drop (start + read.length)).take (min n (len - read.length)) <+: (disk.drop start).take len := by
  obtain ⟨rest, hrest⟩ := h
  have htail : rest = (disk.drop (start + read.length)).take (len - read.length) := by
    have hdrop := congrArg (List.drop read.length) hrest
    rwa [List.drop_left, List.drop_take, List.drop_drop] at hdrop
  rw [← hrest, ← List.take_take, ← htail]
  exact List.prefix_append_right_inj read |>.mpr (List.take_prefix n rest)

namespace Directory

/-- What holds of a run. -/
structure Underway (md4 : List UInt8 → Digest) (s : Directory) : Prop where
  sound : s.transfer.Sound
  checked : s.transfer.Checked md4
  size : s.transfer.chunks.fileSize = s.link.fileSize
  hash : s.transfer.chunks.fileHash = s.link.fileHash

/-- What holds of a run that restores parts, and of the jobs that are left. -/
structure Restoring (md4 : List UInt8 → Digest) (s : Directory) (jobs : List Hashing) : Prop extends Underway md4 s where
  writes : s.transfer.writes = []
  hashings : s.transfer.hashings = []
  fresh : s.transfer.chunks.Fresh
  jobs : ∀ h ∈ jobs, s.transfer.chunks.RestoreJob h.job ∧ h.read <+: partOf s.transfer.disk h.job.index

/-- The invariant. Between two runs there is none. -/
def Safe (md4 : List UInt8 → Digest) (s : Directory) : Prop :=
  match s.phase with
  | .idle | .returned => True
  | .restoring jobs => s.Restoring md4 jobs
  | .active => s.Underway md4

theorem length_setLen (file : List UInt8) (n : ℕ) : (setLen file n).length = n := by
  rw [setLen, List.length_append, List.length_take, List.length_replicate]
  omega

/-- The manager of a run that has opened its file. -/
def opened (link : Ed2kFileLink) : ChunkManager := { ChunkManager.new link.fileSize link.fileHash with file := true }

/-- A new run, with the digests of the sidecar if there are any. -/
theorem restoring_opened (link : Ed2kFileLink) {disk : List UInt8} (hdisk : disk.length = link.fileSize) (late : List LateWrite)
    {cm : ChunkManager} (hcm : cm = opened link ∨ ∃ hashes, cm = ((opened link).setChunkHashes md4 hashes).2) {jobs : List VerifyJob}
    (hjobs : ∀ job ∈ jobs, cm.RestoreJob job) :
    Restoring md4 ⟨link, ⟨cm, disk, [], [], []⟩, late, .restoring (jobs.map fun job => ⟨job, []⟩)⟩ (jobs.map fun job => ⟨job, []⟩) := by
  have hinit : Transfer.Initial ⟨opened link, disk, [], [], []⟩ := ⟨⟨link.fileSize, link.fileHash, [], rfl⟩, hdisk, rfl, rfl, rfl⟩
  have hnew : ∀ p, (opened link).part p = .new := by
    intro p
    have hpart : (ChunkManager.new link.fileSize link.fileHash).part p = .new := ChunkManager.part_new
    exact hpart
  have hchecked : Transfer.Checked md4 ⟨opened link, disk, [], [], []⟩ := by
    refine ⟨nofun, fun p _ hp => ?_⟩
    rw [hnew p] at hp
    cases hp
  have hall : Transfer.Sound ⟨cm, disk, [], [], []⟩ ∧ Transfer.Checked md4 ⟨cm, disk, [], [], []⟩ ∧ cm.fileSize = link.fileSize ∧
      cm.fileHash = link.fileHash ∧ cm.Fresh := by
    rcases hcm with rfl | ⟨hashes, rfl⟩
    · exact ⟨hinit.sound, hchecked, rfl, rfl, fun p _ => hnew p⟩
    · have hstep : Transfer.step md4 ⟨opened link, disk, [], [], []⟩ (.hashes hashes) =
          some ⟨((opened link).setChunkHashes md4 hashes).2, disk, [], [], []⟩ := rfl
      have hprogress := hinit.sound.progress hstep
      refine ⟨hinit.sound.step hstep, hchecked.step hinit.sound hstep, hprogress.size, hprogress.hash, fun p _ => ?_⟩
      obtain ⟨ch, heq, -⟩ := (opened link).setChunkHashes_eq md4 hashes
      rw [heq]
      exact hnew p
  obtain ⟨hsound, hchecked', hsize, hhash, hfresh⟩ := hall
  refine { sound := hsound, checked := hchecked', size := hsize, hash := hhash, writes := rfl, hashings := rfl, fresh := hfresh, jobs := ?_ }
  intro h hh
  obtain ⟨job, hjob, rfl⟩ := List.mem_map.mp hh
  exact ⟨hjobs job hjob, List.nil_prefix⟩

theorem safe_start (s : Directory) (link : Ed2kFileLink) (sidecar : Option Met) (removable : Bool) :
    Safe md4 (s.start md4 link sidecar removable) := by
  refine restoring_opened link (length_setLen _ _) _ ?_ ?_
  · cases (loadMet sidecar link).bind Met.decodedHashset with
    | none => exact .inl rfl
    | some hashes => exact .inr ⟨hashes, rfl⟩
  · exact ChunkManager.restoreJobs_of_met _ (loadMet sidecar link)

theorem Restoring.check {s : Directory} {h : Hashing} {rest : List Hashing} (hs : s.Restoring md4 (h :: rest))
    (hread : h.read.length = h.job.stop - h.job.start) : (s.check md4 h rest).Restoring md4 rest := by
  have hrest : ∀ k ∈ rest, s.transfer.chunks.RestoreJob k.job ∧ k.read <+: partOf s.transfer.disk k.job.index :=
    fun k hk => hs.jobs k (List.mem_cons_of_mem _ hk)
  unfold Directory.check
  split
  · rename_i hmd4
    obtain ⟨hjob, hprefix⟩ := hs.jobs h List.mem_cons_self
    obtain ⟨hsound, hfresh⟩ := hs.sound.chunks.restoreVerified hs.fresh h.job.index
    -- All of the part is read.
    have hpart : h.read = partOf s.transfer.disk h.job.index := by
      refine hprefix.eq_of_length_le ?_
      rw [length_partOf, hs.sound.disk, ← hjob.range, hread]
    rcases s.transfer.chunks.restoreVerified_cases h.job.index with hsame | ⟨hlt, hmissing, t, hstatus, -, -, heq⟩
    · rw [hsame]
      exact { hs with jobs := hrest }
    · rw [heq] at hsound hfresh ⊢
      have hexpected : s.transfer.chunks.expectedPartHash h.job.index = some (md4 (partOf s.transfer.disk h.job.index)) := by
        rw [hjob.expected, ← hmd4, ← hpart]
      refine { sound := ?_, checked := ⟨hs.checked.hashes, ?_⟩, size := hs.size, hash := hs.hash, writes := hs.writes,
               hashings := hs.hashings, fresh := hfresh, jobs := ?_ }
      · refine { chunks := hsound, disk := hs.sound.disk, flight := hs.sound.flight, apart := hs.sound.apart, writes := ?_, hashings := ?_,
                 jobs := hs.sound.jobs }
        · intro w hw
          have hw : w ∈ s.transfer.writes := hw
          rw [hs.writes] at hw
          cases hw
        · intro g hg
          have hg : g ∈ s.transfer.hashings := hg
          rw [hs.hashings] at hg
          cases hg
      · intro p hp hdone
        rcases eq_or_ne p h.job.index with rfl | hne
        · exact hexpected
        · have hother : (s.transfer.chunks.setPart h.job.index t).part p = s.transfer.chunks.part p :=
            ChunkManager.part_setPart_of_ne hne t
          exact hs.checked.parts p hp ((congrArg Part.status hother).symm.trans hdone)
      · intro k hk
        obtain ⟨hjob, hprefix⟩ := hrest k hk
        exact ⟨⟨hjob.index, hjob.range, hjob.expected⟩, hprefix⟩
  · exact { hs with jobs := hrest }

/-- No write of an earlier run gets into the file while a run is under way. -/
def undisturbed (s : Directory) : Action → Bool
  | .late _ _ => !s.running
  | _ => true

/-- The step lemma. -/
theorem Safe.step {s s' : Directory} {a : Action} (h : Safe md4 s) (hclean : s.undisturbed a = true)
    (hstep : s.step md4 a = some s') : Safe md4 s' := by
  cases a with
  | start link sidecar removable =>
    simp only [Directory.step] at hstep
    split at hstep
    · cases hstep
      exact safe_start s link sidecar removable
    · cases hstep
  | readPart n =>
    simp only [Directory.step] at hstep
    split at hstep
    · rename_i g rest hphase
      cases hstep
      rw [Safe, hphase] at h
      obtain ⟨hjob, hread⟩ := h.jobs g List.mem_cons_self
      refine { h with jobs := List.forall_mem_cons.mpr ⟨⟨hjob, ?_⟩, fun k hk => h.jobs k (List.mem_cons_of_mem _ hk)⟩ }
      have hrange := hjob.range
      have hpart : partOf s.transfer.disk g.job.index = (s.transfer.disk.drop g.job.start).take (g.job.stop - g.job.start) := by
        rw [partOf, h.sound.disk, ← hrange]
      rw [hpart] at hread ⊢
      exact append_piece_prefix hread n
    · cases hstep
  | checkPart =>
    simp only [Directory.step] at hstep
    split at hstep
    · rename_i g rest hphase
      split at hstep
      · rename_i hread
        cases hstep
        rw [Safe, hphase] at h
        exact h.check hread
      · cases hstep
    · cases hstep
  | skipPart =>
    simp only [Directory.step] at hstep
    split at hstep
    · rename_i g rest hphase
      cases hstep
      rw [Safe, hphase] at h
      exact { h with jobs := fun k hk => h.jobs k (List.mem_cons_of_mem _ hk) }
    · cases hstep
  | begin =>
    simp only [Directory.step] at hstep
    split at hstep
    · rename_i jobs hphase
      cases hstep
      rw [Safe, hphase] at h
      exact { h.toUnderway with }
    · cases hstep
  | peers a =>
    simp only [Directory.step] at hstep
    split at hstep
    · rename_i hphase
      obtain ⟨t, ht, rfl⟩ := Option.map_eq_some_iff.mp hstep
      rw [Safe, hphase] at h ⊢
      have hprogress := h.sound.progress ht
      exact ⟨h.sound.step ht, h.checked.step h.sound ht, hprogress.size.trans h.size, hprogress.hash.trans h.hash⟩
    · cases hstep
  | complete =>
    simp only [Directory.step] at hstep
    split at hstep
    · split at hstep
      · cases hstep
        trivial
      · cases hstep
    · cases hstep
  | stop finalized =>
    simp only [Directory.step] at hstep
    split at hstep
    · cases hstep
    · cases hstep
      cases finalized <;> trivial
    · cases hstep
      trivial
  | late i n =>
    obtain ⟨w, hw, rfl⟩ := Option.map_eq_some_iff.mp hstep
    have hidle : s.running = false := by simpa [undisturbed] using hclean
    unfold Directory.running at hidle
    unfold Safe at h ⊢
    dsimp only
    cases hphase : s.phase with
    | idle => trivial
    | returned => trivial
    | restoring jobs | active =>
      rw [hphase] at hidle
      cases hidle
  | crash file =>
    cases hstep
    trivial

end Directory

end Ed2k

end Risuko
