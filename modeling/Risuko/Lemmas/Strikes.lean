import Risuko.Lemmas.Transfer

/-!
# Who spoils a part

A covered byte is the true one unless a peer that sent a wrong range is a source of the part, or has a write over the byte that is still to
be committed (`Traced`). The last ends with a commit, so it is the writes that end otherwise which make the sources incomplete (`Clean`).
-/

namespace Risuko

namespace Ed2k

/-- The content that the hash of a link stands for: only the digests of its parts have that hash. -/
structure Content (md4 : List UInt8 → Digest) (truth : List UInt8) (fileHash : Digest) : Prop where
  small : truth.length < ed2kChunkSize → fileHash = md4 truth
  large : ed2kChunkSize ≤ truth.length → ∀ hashes : List Digest, hashes.length = truth.length / ed2kChunkSize + 1 →
    md4 hashes.flatten = fileHash → ∀ p < chunkCount truth.length, hashes[p]? = some (md4 (partOf truth p))

namespace Transfer

variable {s s' : Transfer} {p k i : ℕ} {w : Write}

/-- Every range that a peer sent is that of the file. -/
def Honest (truth : List UInt8) (s : Transfer) (peer : ℕ) : Prop := ∀ e ∈ s.sent, e.peer = peer → Agrees truth e.offset e.data

/-- A write has put a wrong byte over one that is covered. -/
def Spoils (truth : List UInt8) (s : Transfer) (w : Write) : Prop :=
  ∃ k, w.ticket.offset ≤ k ∧ k < w.ticket.offset + w.written ∧ k ∈ Ranges.points (s.chunks.part w.ticket.part).covered ∧
    s.disk[k]? ≠ truth[k]?

/-- No write that spoils a part ends without its commit, and no part of one source fails to be read. -/
def Clean (truth : List UInt8) (s : Transfer) : Action → Prop
  | .commit i => ∀ w, s.writes[i]? = some w → s.Spoils truth w →
      s.chunks.writablePart w.peer w.ticket.offset w.ticket.stop = some w.ticket.part
  | .drop i => ∀ w, s.writes[i]? = some w → w.committed = false → ¬ s.Spoils truth w
  | .readFailed j => ∀ h, s.hashings[j]? = some h → (s.chunks.part h.job.index).sources.length ≠ 1
  | _ => True

variable {md4 : List UInt8 → Digest} {truth : List UInt8}

/-- Why a covered byte is what it is. -/
def Explained (truth : List UInt8) (s : Transfer) (p k : ℕ) : Prop :=
  s.disk[k]? = truth[k]? ∨ (s.chunks.part p).status = .downloaded ∨ (∃ l ∈ (s.chunks.part p).sources, ¬ s.Honest truth l) ∨
    ∃ w ∈ s.writes, w.committed = false ∧ w.ticket.part = p ∧ w.ticket.offset ≤ k ∧ k < w.ticket.offset + w.written ∧
      ¬ s.Honest truth w.peer

structure Traced (md4 : List UInt8 → Digest) (truth : List UInt8) (s : Transfer) : Prop where
  length : truth.length = s.chunks.fileSize
  content : Content md4 truth s.chunks.fileHash
  expected : ∀ p < chunkCount s.chunks.fileSize, ∀ e, s.chunks.expectedPartHash p = some e → e = md4 (partOf truth p)
  sent : ∀ w ∈ s.writes, ⟨w.peer, w.ticket.offset, w.data⟩ ∈ s.sent
  explained : ∀ p < chunkCount s.chunks.fileSize, ∀ k ∈ Ranges.points (s.chunks.part p).covered, s.Explained truth p k
  strikes : ∀ peer, s.Honest truth peer → s.chunks.strikes.get? peer = none

theorem Honest.of_prefix {peer : ℕ} (h : s'.Honest truth peer) (hsent : s.sent <+: s'.sent) : s.Honest truth peer :=
  fun e he => h e (hsent.subset he)

/-- A byte stays explained while its part, the file and the writes over it do, and peers send on. -/
theorem Explained.mono (h : s.Explained truth p k) (hsent : s.sent <+: s'.sent)
    (hstatus : (s.chunks.part p).status = .downloaded → (s'.chunks.part p).status = .downloaded)
    (hsources : ∀ l ∈ (s.chunks.part p).sources, l ∈ (s'.chunks.part p).sources) (hdisk : s'.disk[k]? = s.disk[k]?)
    (hwrites : ∀ w ∈ s.writes, w.committed = false → w.ticket.part = p → w.ticket.offset ≤ k → k < w.ticket.offset + w.written →
      ¬ s.Honest truth w.peer → s'.Explained truth p k) : s'.Explained truth p k := by
  rcases h with htrue | hdone | ⟨l, hl, hliar⟩ | ⟨w, hw, hpending, hpart, hle, hlt, hliar⟩
  · exact .inl (hdisk.trans htrue)
  · exact .inr (.inl (hstatus hdone))
  · exact .inr (.inr (.inl ⟨l, hsources l hl, fun hh => hliar (hh.of_prefix hsent)⟩))
  · exact hwrites w hw hpending hpart hle hlt hliar

/-- A write that is still there explains what it did. -/
theorem explained_of_write (hsent : s.sent <+: s'.sent) (hw : w ∈ s'.writes)
    (hpending : w.committed = false) (hpart : w.ticket.part = p) (hle : w.ticket.offset ≤ k) (hlt : k < w.ticket.offset + w.written)
    (hliar : ¬ s.Honest truth w.peer) : s'.Explained truth p k :=
  .inr (.inr (.inr ⟨w, hw, hpending, hpart, hle, hlt, fun hh => hliar (hh.of_prefix hsent)⟩))

/-- Another manager with the same parts. -/
theorem Traced.chunks_set (h : Traced md4 truth s) {cm : ChunkManager} (hsize : cm.fileSize = s.chunks.fileSize)
    (hhash : cm.fileHash = s.chunks.fileHash) (hstrikes : cm.strikes = s.chunks.strikes)
    (hparts : ∀ p, (cm.part p).covered = (s.chunks.part p).covered ∧ (cm.part p).sources = (s.chunks.part p).sources ∧
      (cm.part p).status = (s.chunks.part p).status)
    (hexpected : ∀ p < chunkCount cm.fileSize, ∀ e, cm.expectedPartHash p = some e → e = md4 (partOf truth p)) (hashings : List Hashing) :
    Traced md4 truth { s with chunks := cm, hashings := hashings } where
  length := h.length.trans hsize.symm
  content := hhash ▸ h.content
  expected := hexpected
  sent := h.sent
  explained p hp k hk := by
    obtain ⟨hcovered, hsources, hstatus⟩ := hparts p
    refine (h.explained p (hsize ▸ hp) k (hcovered ▸ hk)).mono (List.prefix_refl _) (fun hd => hstatus.trans hd)
      (fun l hl => hsources.symm ▸ hl) rfl ?_
    exact fun w hw hpending hpart hle hlt hliar => explained_of_write (List.prefix_refl _) hw hpending hpart hle hlt hliar
  strikes peer hh := hstrikes ▸ h.strikes peer hh

/-- A manager whose digests are the same, too. -/
theorem Traced.chunks_kept (h : Traced md4 truth s) {cm : ChunkManager} (hsize : cm.fileSize = s.chunks.fileSize)
    (hhash : cm.fileHash = s.chunks.fileHash) (hhashes : cm.chunkHashes = s.chunks.chunkHashes) (hstrikes : cm.strikes = s.chunks.strikes)
    (hparts : ∀ p, (cm.part p).covered = (s.chunks.part p).covered ∧ (cm.part p).sources = (s.chunks.part p).sources ∧
      (cm.part p).status = (s.chunks.part p).status) (hashings : List Hashing) :
    Traced md4 truth { s with chunks := cm, hashings := hashings } := by
  refine h.chunks_set hsize hhash hstrikes hparts (fun p hp e he => ?_) hashings
  refine h.expected p (hsize ▸ hp) e ?_
  rw [← he, ChunkManager.expectedPartHash, ChunkManager.expectedPartHash, hsize, hhash, hhashes]

theorem Traced.hashes (h : Traced md4 truth s) (hashes : List Digest) :
    Traced md4 truth { s with chunks := (s.chunks.setChunkHashes md4 hashes).2 } := by
  obtain ⟨ch, heq, hch⟩ := s.chunks.setChunkHashes_eq md4 hashes
  rw [heq]
  have hlength := h.length
  refine h.chunks_set (by rfl) (by rfl) (by rfl) (fun p => ⟨by rfl, by rfl, by rfl⟩) (fun p hp e he => ?_) s.hashings
  rcases hch with rfl | ⟨rfl, hlen, hmd4⟩
  · exact h.expected p hp e he
  · rw [ChunkManager.expectedPartHash] at he
    dsimp only at he hp
    split at he
    · rename_i hsmall
      refine h.expected p hp e ?_
      rw [ChunkManager.expectedPartHash, if_pos hsmall, he]
    · rename_i hlarge
      rw [← hlength] at hlarge hlen hp
      rw [Option.bind_some, h.content.large (Nat.le_of_not_lt hlarge) hashes hlen hmd4 p hp] at he
      exact (Option.some.inj he).symm

theorem Traced.begin (h : Traced md4 truth s) (peer offset : ℕ) (data : List UInt8) :
    Traced md4 truth (s.begin peer offset data) := by
  have hprefix : s.sent <+: s.sent ++ [⟨peer, offset, data⟩] := List.prefix_append ..
  have hsent : Traced md4 truth { s with sent := s.sent ++ [⟨peer, offset, data⟩] } :=
    { h with
      sent := fun w hw => hprefix.subset (h.sent w hw)
      explained := fun p hp k hk => (h.explained p hp k hk).mono hprefix id (fun _ hl => hl) rfl fun w hw => explained_of_write hprefix hw
      strikes := fun peer hh => h.strikes peer (hh.of_prefix hprefix) }
  unfold Transfer.begin
  dsimp only
  split
  · exact hsent
  · exact hsent
  · rename_i ticket cm hbegin
    obtain ⟨-, -, -, hoffset, -, -, rfl⟩ := ChunkManager.beginWrite_eq_some hbegin
    refine { hsent with sent := ?_, explained := ?_ }
    · refine List.forall_mem_append.mpr ⟨hsent.sent, fun w hw => ?_⟩
      obtain rfl := List.mem_singleton.mp hw
      rw [hoffset]
      exact List.mem_append_right _ List.mem_cons_self
    · intro p hp k hk
      refine (hsent.explained p hp k hk).mono (List.prefix_refl _) id (fun _ hl => hl) rfl ?_
      exact fun w hw hpending hpart hle hlt hliar =>
        explained_of_write (List.prefix_refl _) (List.mem_append_left _ hw) hpending hpart hle hlt hliar

/-- A piece that an honest peer writes is right, one of another explains itself. -/
theorem Traced.write (h : Traced md4 truth s) (hs : Sound s) {n : ℕ} (hw : s.writes[i]? = some w)
    (hpending : w.committed = false) : Traced md4 truth (s.write i w n) := by
  have hmem := List.mem_of_getElem? hw
  have hf := hs.writes w hmem
  have hlen : w.ticket.stop ≤ s.disk.length := hs.disk ▸ hf.hi.trans (chunkRange_le _ _)
  have hset : { w with written := min (w.written + n) w.data.length } ∈ (s.write i w n).writes :=
    List.mem_set (List.getElem?_eq_some_iff.mp hw).1 _
  have hkept : ∀ v ∈ s.writes, v ≠ w → v ∈ (s.write i w n).writes := by
    intro v hv hne
    obtain ⟨j, hj⟩ := List.mem_iff_getElem?.mp hv
    refine List.mem_of_getElem? (i := j) ?_
    change (s.writes.set i _)[j]? = some v
    rw [List.getElem?_set_ne, hj]
    rintro rfl
    rw [hw] at hj
    exact hne (Option.some.inj hj).symm
  refine { length := h.length, content := h.content, expected := h.expected, sent := ?_, explained := ?_, strikes := h.strikes }
  · intro v hv
    rcases List.mem_or_eq_of_mem_set hv with hv | rfl
    · exact h.sent v hv
    · exact h.sent w hmem
  · intro p hp k hk
    have hpoint := (hs.chunks.sound p hp).inside hk
    rw [Finset.mem_Ico] at hpoint
    have hsize := chunkRange_le s.chunks.fileSize p
    by_cases hin : w.ticket.offset ≤ k ∧ k < w.ticket.offset + min (w.written + n) w.data.length
    · have hstop := hf.stop
      have hpart : w.ticket.part = p := by
        by_contra hne
        exact hs.apart_part hmem hne hpoint.1 hpoint.2 ⟨hin.1, by omega⟩
      by_cases hhonest : s.Honest truth w.peer
      · -- The byte is that of the file.
        obtain ⟨j, rfl⟩ := Nat.exists_eq_add_of_le hin.1
        have hagrees := hhonest _ (h.sent w hmem) rfl
        have hj : j < w.data.length := by omega
        refine .inl ((getElem?_disk_written hf hlen hpending (by omega)).trans ?_)
        rw [List.getElem?_eq_getElem hj, hagrees j _ (List.getElem?_eq_getElem hj)]
      · exact explained_of_write (List.prefix_refl _) hset hpending hpart hin.1 hin.2 hhonest
    · have hdisk : (s.write i w n).disk[k]? = s.disk[k]? := by
        have hlt : k < s.disk.length := by
          rw [hs.disk]
          omega
        have hwritten := hf.written
        rw [List.getElem?_eq_getElem hlt]
        refine getElem?_writeBytes_of_not_mem (List.getElem?_eq_getElem hlt) ?_
        rw [List.length_take, List.length_drop]
        omega
      refine (h.explained p hp k hk).mono (List.prefix_refl _) id (fun _ hl => hl) hdisk ?_
      intro v hv hpend hpart hle hlt hliar
      by_cases hvw : v = w
      · subst hvw
        have hwritten := hf.written
        exact explained_of_write (List.prefix_refl _) hset hpend hpart hle (by dsimp only; omega) hliar
      · exact explained_of_write (List.prefix_refl _) (hkept v hv hvw) hpend hpart hle hlt hliar

/-- The writes but for one that ends. -/
theorem explained_without (hw : s.writes[i]? = some w)
    (hsent : s'.sent = s.sent) (hdisk : s'.disk = s.disk)
    (hkept : ∀ (j : ℕ) (v : Write), j ≠ i → s.writes[j]? = some v → v ∈ s'.writes)
    (hpart : (s'.chunks.part p).status = (s.chunks.part p).status ∨ (s.chunks.part p).status ≠ .downloaded)
    (hsources : ∀ l ∈ (s.chunks.part p).sources, l ∈ (s'.chunks.part p).sources)
    (hended : w.committed = false → w.ticket.part = p → w.ticket.offset ≤ k → k < w.ticket.offset + w.written →
      ¬ s.Honest truth w.peer → s'.Explained truth p k) (h : s.Explained truth p k) : s'.Explained truth p k := by
  refine h.mono (hsent ▸ List.prefix_refl _) ?_ hsources (by rw [hdisk]) ?_
  · intro hd
    rcases hpart with hp | hp
    · exact hp.trans hd
    · exact absurd hd hp
  · intro v hv hpending hvp hle hlt hliar
    obtain ⟨j, hj⟩ := List.mem_iff_getElem?.mp hv
    rcases eq_or_ne j i with rfl | hne
    · rw [hw] at hj
      cases hj
      exact hended hpending hvp hle hlt hliar
    · exact explained_of_write (hsent ▸ List.prefix_refl _) (hkept j v hne hj) hpending hvp hle hlt hliar

theorem Traced.commit (h : Traced md4 truth s) (hs : Sound s) (hw : s.writes[i]? = some w)
    (hpending : w.committed = false) (hall : w.written = w.data.length) (hclean : Clean truth s (.commit i)) :
    Traced md4 truth
      { s with chunks := (s.chunks.commitWrite w.peer w.ticket).2, writes := s.writes.set i { w with committed := true } } := by
  have hmem := List.mem_of_getElem? hw
  have hf := hs.writes w hmem
  have hkept : ∀ (j : ℕ) (v : Write), j ≠ i → s.writes[j]? = some v → v ∈ s.writes.set i { w with committed := true } := by
    intro j v hne hj
    refine List.mem_of_getElem? (i := j) ?_
    rw [List.getElem?_set_ne hne.symm, hj]
  have hsent : ∀ v ∈ s.writes.set i { w with committed := true }, ⟨v.peer, v.ticket.offset, v.data⟩ ∈ s.sent := by
    intro v hv
    rcases List.mem_or_eq_of_mem_set hv with hv | rfl
    · exact h.sent v hv
    · exact h.sent w hmem
  rcases hs.commit_part hmem with ⟨hsame, hfalse⟩ | ⟨htrue, hmissing, hothers, hcovered, hsources, parts, completed, heq⟩
  · rw [hsame]
    refine { length := h.length, content := h.content, expected := h.expected, sent := hsent, explained := ?_, strikes := h.strikes }
    intro p hp k hk
    refine explained_without hw rfl rfl hkept (.inl rfl) (fun _ hl => hl) ?_ (h.explained p hp k hk)
    rintro - rfl hle hlt -
    -- A commit that fails leaves nothing spoiled.
    by_contra hnot
    have hspoils : s.Spoils truth w := ⟨k, hle, hlt, hk, fun hk => hnot (.inl hk)⟩
    have hwritable := hclean w hw hspoils
    rw [ChunkManager.commitWrite, if_neg (not_not.mpr hwritable)] at hfalse
    cases hfalse
  · have hsize : (s.chunks.commitWrite w.peer w.ticket).2.fileSize = s.chunks.fileSize := by rw [heq]
    have hhash : (s.chunks.commitWrite w.peer w.ticket).2.fileHash = s.chunks.fileHash := by rw [heq]
    have hstrikes : (s.chunks.commitWrite w.peer w.ticket).2.strikes = s.chunks.strikes := by rw [heq]
    have hexpected : ∀ p, (s.chunks.commitWrite w.peer w.ticket).2.expectedPartHash p = s.chunks.expectedPartHash p := by
      intro p
      rw [heq]
      rfl
    refine { length := h.length.trans hsize.symm, content := hhash.symm ▸ h.content, expected := ?_, sent := hsent, explained := ?_,
             strikes := ?_ }
    · exact fun p hp e he => h.expected p (hsize ▸ hp) e ((hexpected p).symm.trans he)
    · intro p hp k hk
      have hp : p < chunkCount s.chunks.fileSize := hsize ▸ hp
      rcases eq_or_ne p w.ticket.part with rfl | hne
      · have hpeer := (hsources w.peer).mpr (.inl rfl)
        by_cases hhonest : s.Honest truth w.peer
        · have hk : k ∈ Ranges.points ((s.chunks.commitWrite w.peer w.ticket).2.part w.ticket.part).covered := hk
          rw [hcovered] at hk
          rcases Finset.mem_union.mp hk with hin | hold
          · obtain ⟨hle, hlt⟩ := Finset.mem_Ico.mp hin
            obtain ⟨j, rfl⟩ := Nat.exists_eq_add_of_le hle
            have hstop := hf.stop
            have hj : j < w.data.length := by omega
            refine .inl ((hf.onDisk hpending j (by omega)).trans ?_)
            rw [List.getElem?_eq_getElem hj, hhonest _ (h.sent w hmem) rfl j _ (List.getElem?_eq_getElem hj)]
          · refine explained_without hw rfl rfl hkept (.inr ?_) (fun l hl => (hsources l).mpr (.inr hl)) ?_ (h.explained _ hp k hold)
            · rw [hmissing]
              decide
            · exact fun _ _ _ _ hliar => absurd hhonest hliar
        · exact .inr (.inr (.inl ⟨w.peer, hpeer, hhonest⟩))
      · have hpart : (s.chunks.commitWrite w.peer w.ticket).2.part p = s.chunks.part p := hothers p hne
        have hk : k ∈ Ranges.points ((s.chunks.commitWrite w.peer w.ticket).2.part p).covered := hk
        rw [hpart] at hk
        refine explained_without hw rfl rfl hkept (.inl (congrArg Part.status hpart)) (fun l hl => ?_) ?_ (h.explained p hp k hk)
        · change l ∈ ((s.chunks.commitWrite w.peer w.ticket).2.part p).sources
          rw [hpart]
          exact hl
        · exact fun _ hwp => absurd hwp.symm hne
    · exact fun peer hh => (congrArg (fun m => OrdMap.get? m peer) hstrikes).trans (h.strikes peer hh)

theorem Traced.drop (h : Traced md4 truth s) (hs : Sound s) (hw : s.writes[i]? = some w)
    (hclean : Clean truth s (.drop i)) :
    Traced md4 truth { s with chunks := s.chunks.dropTicket w.ticket, writes := s.writes.eraseIdx i } := by
  have hperm : (s.writes.map Write.range).Perm ((w.ticket.offset, w.ticket.stop) :: (s.writes.eraseIdx i).map Write.range) :=
    (cons_eraseIdx_perm hw).symm.map Write.range
  obtain ⟨flight, heq, -⟩ := dropTicket_eq (hs.flight.trans hperm)
  rw [heq]
  refine { length := h.length, content := h.content, expected := h.expected, sent := ?_, explained := ?_, strikes := h.strikes }
  · exact fun v hv => h.sent v (List.mem_of_mem_eraseIdx hv)
  · intro p hp k hk
    have hkept : ∀ (j : ℕ) (v : Write), j ≠ i → s.writes[j]? = some v → v ∈ s.writes.eraseIdx i := by
      intro j v hne hj
      rw [List.mem_eraseIdx_iff_getElem?]
      exact ⟨j, hne, hj⟩
    refine explained_without hw rfl rfl hkept (.inl rfl) (fun _ hl => hl) ?_ (h.explained p hp k hk)
    rintro hpending rfl hle hlt -
    by_contra hnot
    exact hclean w hw hpending ⟨k, hle, hlt, hk, fun hk => hnot (.inl hk)⟩

/-- What a job has read of a part that only honest peers wrote is the part of the file. -/
theorem Traced.read_eq (h : Traced md4 truth s) (hs : Sound s) {j : ℕ} {g : Hashing} (hj : s.hashings[j]? = some g)
    (hread : g.read.length = g.job.stop - g.job.start) (hhonest : ∀ l ∈ (s.chunks.part g.job.index).sources, s.Honest truth l) :
    g.read = partOf truth g.job.index := by
  have hmem := List.mem_of_getElem? hj
  have hf := hs.hashings g hmem
  have hsound := hs.chunks.sound _ hf.job.index
  have hfull := hsound.full (by rw [hf.job.status]; decide)
  have hbyte : ∀ k, (chunkRange s.chunks.fileSize g.job.index).1 ≤ k → k < (chunkRange s.chunks.fileSize g.job.index).2 →
      s.disk[k]? = truth[k]? := by
    intro k hlo hhi
    have hk : k ∈ Ranges.points (s.chunks.part g.job.index).covered := by
      rw [hfull]
      exact Finset.mem_Ico.mpr ⟨hlo, hhi⟩
    rcases h.explained _ hf.job.index k hk with htrue | hdone | ⟨l, hl, hliar⟩ | ⟨w, hw, hpending, hpart, -⟩
    · exact htrue
    · rw [hf.job.status] at hdone
      cases hdone
    · exact absurd (hhonest l hl) hliar
    · exact absurd hpart (hs.part_ne hw hpending hmem)
  rw [hf.read_eq hs.disk hread]
  refine partOf_congr (hs.disk.trans h.length.symm) fun k hlo hhi => ?_
  rw [hs.disk] at hlo hhi
  exact hbyte k hlo hhi

theorem Traced.finish (h : Traced md4 truth s) (hs : Sound s) {j : ℕ} {g : Hashing} (hj : s.hashings[j]? = some g)
    {ok : Bool} (hblame : ok = false → ∀ peer, (s.chunks.part g.job.index).sources = [peer] → ¬ s.Honest truth peer) :
    Traced md4 truth (s.finish j g ok) := by
  have hf := hs.hashings g (List.mem_of_getElem? hj)
  have hlt : g.job.index < s.chunks.parts.length := hs.chunks.parts ▸ hf.job.index
  obtain ⟨hsize, -, hhashes, hhash⟩ := finishVerify_rest hlt ok
  have hself := finishVerify_self hlt ok
  refine { length := h.length.trans hsize.symm, content := hhash.symm ▸ h.content, expected := ?_, sent := h.sent, explained := ?_,
           strikes := ?_ }
  · intro p hp e he
    refine h.expected p (hsize ▸ hp) e ?_
    rw [← he]
    change _ = (s.chunks.finishVerify g.job.index ok).expectedPartHash p
    rw [ChunkManager.expectedPartHash, ChunkManager.expectedPartHash, hsize, hhash, hhashes]
  · intro p hp k hk
    have hk : k ∈ Ranges.points ((s.chunks.finishVerify g.job.index ok).part p).covered := hk
    rcases eq_or_ne p g.job.index with rfl | hne
    · rw [hself] at hk
      cases ok with
      | true => exact .inr (.inl (congrArg Part.status hself))
      | false => exact absurd hk (Finset.notMem_empty k)
    · have hpart := finishVerify_part hlt ok hne
      rw [hpart] at hk
      refine (h.explained p (hsize ▸ hp) k hk).mono (List.prefix_refl _) (fun hd => (congrArg Part.status hpart).trans hd) (fun l hl => ?_) rfl ?_
      · change l ∈ ((s.chunks.finishVerify g.job.index ok).part p).sources
        rw [hpart]
        exact hl
      · exact fun w hw hpending hwp hle hlt hliar => explained_of_write (List.prefix_refl _) hw hpending hwp hle hlt hliar
  · intro peer hh
    have hnone := h.strikes peer hh
    change (s.chunks.finishVerify g.job.index ok).strikes.get? peer = none
    rcases ChunkManager.finishVerify_cases hlt ok with ⟨-, heq⟩ | ⟨hfailed, rc, pb, heq⟩
    · rw [heq]
      exact hnone
    · rw [heq]
      change (s.chunks.strike (s.chunks.part g.job.index).sources).strikes.get? peer = none
      rcases s.chunks.strike_eq (s.chunks.part g.job.index).sources with ⟨hsame, -⟩ | ⟨struck, hsources, hstrike⟩
      · rw [hsame]
        exact hnone
      · rw [hstrike]
        refine (OrdMap.get?_insert_of_ne _ _ ?_).trans hnone
        rintro rfl
        exact hblame hfailed peer hsources hh

/-- The step lemma. -/
theorem Traced.step {a : Action} (h : Traced md4 truth s) (hs : Sound s) (hclean : Clean truth s a)
    (hstep : s.step md4 a = some s') : Traced md4 truth s' := by
  cases a with
  | assign peer peerParts max =>
    cases hstep
    obtain ⟨rc, pb, heq⟩ := s.chunks.assignBlocks_eq peer peerParts max
    rw [heq]
    exact h.chunks_kept (by rfl) (by rfl) (by rfl) (by rfl) (fun p => ⟨by rfl, by rfl, by rfl⟩) s.hashings
  | release peer =>
    cases hstep
    exact h.chunks_kept (by rfl) (by rfl) (by rfl) (by rfl) (fun p => ⟨by rfl, by rfl, by rfl⟩) s.hashings
  | hashes hashes =>
    cases hstep
    exact h.hashes hashes
  | begin peer offset data =>
    cases hstep
    exact h.begin peer offset data
  | write i n =>
    obtain ⟨w, hw, hstep⟩ := Option.bind_eq_some_iff.mp hstep
    split at hstep
    · cases hstep
    · rename_i hpending
      cases hstep
      exact h.write hs hw (Bool.eq_false_iff.mpr hpending)
  | commit i =>
    obtain ⟨w, hw, hstep⟩ := Option.bind_eq_some_iff.mp hstep
    split at hstep
    · rename_i hcond
      cases hstep
      exact h.commit hs hw hcond.1 hcond.2 hclean
    · cases hstep
  | drop i =>
    obtain ⟨w, hw, rfl⟩ := Option.map_eq_some_iff.mp hstep
    exact h.drop hs hw hclean
  | takeJobs =>
    cases hstep
    have htaken := hs.chunks.toLaid.taken
    obtain ⟨ps, hps⟩ := htaken.rest
    have hparts : ∀ p, (s.chunks.takeVerifyJobs.2.part p).covered = (s.chunks.part p).covered ∧
        (s.chunks.takeVerifyJobs.2.part p).sources = (s.chunks.part p).sources ∧
        (s.chunks.takeVerifyJobs.2.part p).status = (s.chunks.part p).status := by
      intro p
      rw [htaken.parts p]
      exact ⟨rfl, rfl, rfl⟩
    have hrest : s.chunks.takeVerifyJobs.2.fileSize = s.chunks.fileSize ∧ s.chunks.takeVerifyJobs.2.fileHash = s.chunks.fileHash ∧
        s.chunks.takeVerifyJobs.2.chunkHashes = s.chunks.chunkHashes ∧ s.chunks.takeVerifyJobs.2.strikes = s.chunks.strikes := by
      rw [hps]
      exact ⟨rfl, rfl, rfl, rfl⟩
    exact h.chunks_kept hrest.1 hrest.2.1 hrest.2.2.1 hrest.2.2.2 hparts _
  | read j n =>
    obtain ⟨g, hg, hstep⟩ := Option.bind_eq_some_iff.mp hstep
    cases hstep
    exact h.chunks_kept (by rfl) (by rfl) (by rfl) (by rfl) (fun p => ⟨by rfl, by rfl, by rfl⟩) _
  | finish j =>
    obtain ⟨g, hg, hstep⟩ := Option.bind_eq_some_iff.mp hstep
    split at hstep
    · rename_i hread
      cases hstep
      refine h.finish hs hg fun hfailed peer hsources hhonest => ?_
      have hf := hs.hashings g (List.mem_of_getElem? hg)
      have heq := h.read_eq hs hg hread fun l hl => by
        rw [hsources] at hl
        exact List.mem_singleton.mp hl ▸ hhonest
      rw [heq, h.expected _ hf.job.index _ hf.job.expected, beq_self_eq_true] at hfailed
      cases hfailed
    · cases hstep
  | readFailed j =>
    obtain ⟨g, hg, rfl⟩ := Option.map_eq_some_iff.mp hstep
    refine h.finish hs hg fun _ peer hsources _ => ?_
    exact hclean g hg (by rw [hsources]; rfl)

end Transfer

end Ed2k

end Risuko
