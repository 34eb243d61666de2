import Risuko.Ed2k.Md4
import Risuko.Ed2k.Sources
import Risuko.Lemmas.Resume
import Risuko.Lemmas.Strikes

/-!
# ED2K downloads

Which parts are fetched and kept, and which sources are asked.
-/

namespace Risuko

/-!
## Chunk accounting over whole runs

In every run of assignments, writes, releases and verifications the counters of a `ChunkManager` are those of its ranges and requests, and no write
that is still to be committed touches a part that is complete, so its bytes stay. A ticket that has just completed a part is in flight until it is
dropped.
-/

namespace Ed2k

namespace Transfer

/-- What the counters, the ranges and the tickets of a download promise. -/
structure Accounted (s : Transfer) : Prop where
  ranges : ∀ p < chunkCount s.chunks.fileSize, (s.chunks.part p).covered.Pairwise (fun r q => r.2 < q.1) ∧
    ∀ r ∈ (s.chunks.part p).covered,
      (chunkRange s.chunks.fileSize p).1 ≤ r.1 ∧ r.1 < r.2 ∧ r.2 ≤ (chunkRange s.chunks.fileSize p).2
  bytes : ∀ p < chunkCount s.chunks.fileSize, (s.chunks.part p).bytes = ((s.chunks.part p).covered.map fun r => r.2 - r.1).sum
  completed : s.chunks.completedLength = (s.chunks.parts.map Part.bytes).sum
  requests : ∀ i < s.chunks.blocks.length,
    s.chunks.reqCount.getD i 0 = s.chunks.peerBlocks.entries.countP (fun e => e.2.contains i) ∧ s.chunks.reqCount.getD i 0 ≤ 2
  complete : ∀ p < chunkCount s.chunks.fileSize, (s.chunks.part p).status ≠ .missing →
    covers (s.chunks.part p).covered (chunkRange s.chunks.fileSize p).1 (chunkRange s.chunks.fileSize p).2 = true
  tickets : ∀ w ∈ s.writes, w.committed = false → ∀ p < chunkCount s.chunks.fileSize, (s.chunks.part p).status ≠ .missing →
    w.ticket.stop ≤ (chunkRange s.chunks.fileSize p).1 ∨ (chunkRange s.chunks.fileSize p).2 ≤ w.ticket.offset

/-- A range among the points of a part lies in its range. -/
theorem mem_range_of_sound {t : Part} {range r : ℕ × ℕ} (h : t.Sound range) (hr : r ∈ t.covered) :
    range.1 ≤ r.1 ∧ r.1 < r.2 ∧ r.2 ≤ range.2 := by
  have hlt := h.normal.nonempty r hr
  have hsub : ∀ x, r.1 ≤ x → x < r.2 → range.1 ≤ x ∧ x < range.2 := by
    intro x hle hx
    exact Finset.mem_Ico.mp (h.inside (Ranges.mem_points.mpr ⟨r, hr, hle, hx⟩))
  have hfirst := hsub r.1 le_rfl hlt
  have hlast := hsub (r.2 - 1) (by omega) (by omega)
  omega

/-- The peers that hold a block, each of which holds it once. -/
theorem sumOf_count {m : OrdMap ℕ (List ℕ)} (h : ∀ e ∈ m.entries, e.2.Nodup) (i : ℕ) :
    (m.sumOf fun _ held => held.count i) = m.entries.countP fun e => e.2.contains i := by
  unfold OrdMap.sumOf
  generalize m.entries = L at h ⊢
  induction L with
  | nil => rfl
  | cons e L ih =>
    obtain ⟨he, hL⟩ := List.forall_mem_cons.mp h
    rw [List.map_cons, List.sum_cons, ih hL, List.countP_cons, Nat.add_comm]
    dsimp only
    by_cases hmem : i ∈ e.2
    · rw [List.count_eq_one_of_mem he hmem, if_pos (by simpa using hmem)]
    · rw [List.count_eq_zero_of_not_mem hmem, if_neg (by simpa using hmem)]

/-- What is kept at every step gives the counters. -/
theorem Sound.accounted {s : Transfer} (h : Sound s) : Accounted s where
  ranges p hp := ⟨(h.chunks.sound p hp).normal.apart, fun _ hr => mem_range_of_sound (h.chunks.sound p hp) hr⟩
  bytes p hp := (h.chunks.sound p hp).bytes
  completed := h.chunks.completed
  requests i hi := by
    refine ⟨(h.chunks.requests i hi).trans (sumOf_count (fun e he => ?_) i), h.chunks.duplicates i⟩
    exact (h.chunks.held e.1 e.2 (OrdMap.get?_eq_some_iff.mpr he)).1
  complete p hp hne := by
    have hsound := h.chunks.sound p hp
    rw [covers_iff hsound.normal (chunkRange_lt hp), hsound.full hne]
  tickets w hw hpending p hp hne := h.apart_complete hw hpending hp hne

/-- In every run, for every size of the file, the counters are those of the ranges and requests, and no step changes a byte of a part that is verified
or being verified. -/
theorem chunks_accounted (md4 : List UInt8 → Digest) (s : Transfer) (h : Reachable md4 s) :
    s.Accounted ∧ ∀ a s', s.step md4 a = some s' → ∀ p < chunkCount s.chunks.fileSize, (s.chunks.part p).status ≠ .missing →
      ∀ k, (chunkRange s.chunks.fileSize p).1 ≤ k → k < (chunkRange s.chunks.fileSize p).2 → s'.disk[k]? = s.disk[k]? := by
  refine ⟨h.sound.accounted, ?_⟩
  intro a s' hs p hp hne k hlo hhi
  exact h.sound.getElem?_disk_step hs hp hne hlo hhi

/-! ### A run -/

/-- One peer writes the whole part. -/
def wholeRun : List Action := [.assign 1 [] 3, .begin 1 0 [1, 2, 3, 4, 5, 6, 7, 8], .write 0 5, .write 0 5, .commit 0]

/-- The run writes all eight bytes, and they are counted. -/
theorem chunks_accounted_whole :
    ∃ s, runActions (step id) (small []) wholeRun = some s ∧ s.chunks.completedLength = 8 ∧ s.Accounted := by
  refine ⟨_, rfl, by decide +kernel, ?_⟩
  exact (chunks_accounted id _ (.runActions (L := wholeRun) rfl (.init (initial_small [])))).1

/-- After it the ticket is in flight, and the part is complete. -/
theorem ticket_over_complete_part :
    ¬ ∀ s, Reachable id s → ∀ r ∈ s.chunks.inFlight, ∀ p < chunkCount s.chunks.fileSize, (s.chunks.part p).status ≠ .missing →
      r.2 ≤ (chunkRange s.chunks.fileSize p).1 ∨ (chunkRange s.chunks.fileSize p).2 ≤ r.1 := by
  intro h
  have hrun : ∃ s, runActions (step id) (small []) wholeRun = some s := ⟨_, rfl⟩
  obtain ⟨s, hs⟩ := hrun
  have hr := h s (.runActions hs (.init (initial_small [])))
  cases hs
  exact absurd (hr (0, 8) (by decide +kernel) 0 (by decide +kernel) (by decide +kernel)) (by decide +kernel)

end Transfer

end Ed2k

/-!
## Completion over whole sequences of runs

A run that returns leaves a part file that has the hash of its link, whatever the sidecar and the file held when it began and whatever the
peers sent, as long as no write of an earlier run gets into the file meanwhile. A run does not wait for the writes of the one before.
-/

namespace Ed2k

namespace Directory

/-- The file has the hash of the link, part by part. -/
structure Verified (md4 : List UInt8 → Digest) (link : Ed2kFileLink) (disk : List UInt8) : Prop where
  length : disk.length = link.fileSize
  small : link.fileSize < ed2kChunkSize → md4 disk = link.fileHash
  large : ed2kChunkSize ≤ link.fileSize → ∃ hashes : List Digest, hashes.length = link.fileSize / ed2kChunkSize + 1 ∧
    md4 hashes.flatten = link.fileHash ∧ ∀ p < chunkCount link.fileSize, hashes[p]? = some (md4 (partOf disk p))

variable {md4 : List UInt8 → Digest}

/-- A run that is complete has checked every part. -/
theorem Underway.verified {s : Directory} (h : s.Underway md4) (hcomplete : s.transfer.chunks.isComplete = true) :
    Verified md4 s.link s.transfer.disk := by
  have hparts : ∀ p < chunkCount s.link.fileSize, s.transfer.chunks.expectedPartHash p = some (md4 (partOf s.transfer.disk p)) := by
    intro p hp
    rw [← h.size] at hp
    have hlt : p < s.transfer.chunks.parts.length := h.sound.chunks.parts ▸ hp
    have hmem := List.mem_of_getElem? (ChunkManager.getElem?_parts hlt)
    exact h.checked.parts p hp (beq_iff_eq.mp (List.all_eq_true.mp hcomplete _ hmem))
  have hlength : s.transfer.disk.length = s.link.fileSize := h.sound.disk.trans h.size
  have hpos := s.link.pos
  refine ⟨hlength, ?_, ?_⟩
  · intro hsmall
    -- The file is its only part.
    have hzero : 0 < chunkCount s.link.fileSize := by
      unfold chunkCount ed2kChunkSize
      rw [if_neg hpos.ne']
      omega
    have hexpected := hparts 0 hzero
    rw [ChunkManager.expectedPartHash, h.size, if_pos hsmall, h.hash] at hexpected
    have hpart : partOf s.transfer.disk 0 = s.transfer.disk := by
      rw [partOf, hlength, chunkRange]
      simp [Nat.min_eq_right hsmall.le, hlength]
    rw [hpart] at hexpected
    exact (Option.some.inj hexpected).symm
  · intro hlarge
    have hexpected : ∀ p < chunkCount s.link.fileSize,
        (s.transfer.chunks.chunkHashes.bind fun hashes => hashes[p]?) = some (md4 (partOf s.transfer.disk p)) := by
      intro p hp
      rw [← hparts p hp, ChunkManager.expectedPartHash, h.size, if_neg (Nat.not_lt_of_le hlarge)]
    cases hhashes : s.transfer.chunks.chunkHashes with
    | none =>
      have hzero : 0 < chunkCount s.link.fileSize := by
        unfold chunkCount ed2kChunkSize
        rw [if_neg hpos.ne']
        omega
      have hnone := hexpected 0 hzero
      rw [hhashes] at hnone
      cases hnone
    | some hashes =>
      obtain ⟨hcount, hmd4⟩ := h.checked.hashes hashes hhashes
      rw [h.size] at hcount
      rw [h.hash] at hmd4
      refine ⟨hashes, hcount, hmd4, fun p hp => ?_⟩
      rw [← hexpected p hp, hhashes]
      rfl

/-- In every sequence of runs that late writes leave alone, a run that completes leaves a part file with the hash of its link. -/
theorem completion_verified (md4 : List UInt8 → Digest) (s : Directory)
    (h : Reach Initial (fun s s' => ∃ a, s.undisturbed a = true ∧ s.step md4 a = some s') s) :
    ∀ s', s.step md4 .complete = some s' → Verified md4 s'.link s'.transfer.disk := by
  have hinit : ∀ s, Initial s → Safe md4 s := by
    intro s hidle
    unfold Initial at hidle
    unfold Safe
    split at hidle
    · rename_i hphase
      rw [hphase]
      trivial
    · cases hidle
  have hstep : ∀ s s', Safe md4 s → (∃ a, s.undisturbed a = true ∧ s.step md4 a = some s') → Safe md4 s' :=
    fun _ _ hsafe ⟨_, hclean, hs⟩ => hsafe.step hclean hs
  have hsafe := Reach.invariant hinit hstep h
  intro s' hs
  simp only [Directory.step] at hs
  split at hs
  · rename_i hphase
    split at hs
    · rename_i hcomplete
      cases hs
      rw [Safe, hphase] at hsafe
      exact hsafe.verified hcomplete
    · cases hs
  · cases hs

/-! ### Two runs -/

/-- The digest of the example is the file itself. -/
def smallLink : Ed2kFileLink := ⟨8, [1, 2, 3, 4, 5, 6, 7, 8], by decide⟩

/-- A sidecar that claims the only part, which the file does not bear out. -/
def smallMet : Met := ⟨1, hexEncode smallLink.fileHash, 8, none, [0]⟩

def smallDirectory : Directory := ⟨smallLink, Transfer.small smallLink.fileHash, [], .idle⟩

/-- A run that gets the part from a peer that sends the right bytes. -/
def honestRun : List Action :=
  [.start smallLink (some smallMet) true, .readPart 8, .checkPart, .begin, .peers (.assign 2 [] 3), .peers (.begin 2 0 [1, 2, 3, 4, 5, 6, 7, 8]),
    .peers (.write 0 8), .peers (.commit 0), .peers (.drop 0), .peers .takeJobs, .peers (.read 0 8), .peers (.finish 0)]

/-- A run that completes with the hash of its link. -/
theorem completion_verified_small :
    ∃ s s', runActions (step id) smallDirectory honestRun = some s ∧ s.step id .complete = some s' ∧
      Verified id s'.link s'.transfer.disk := by
  have hrun : ∃ s s', runActions (fun s a => if s.undisturbed a = true then s.step id a else none) smallDirectory honestRun = some s ∧
      runActions (step id) smallDirectory honestRun = some s ∧ s.step id .complete = some s' := ⟨_, _, rfl, rfl, rfl⟩
  obtain ⟨s, s', hs, hsame, hcomplete⟩ := hrun
  exact ⟨s, s', hsame, hcomplete, completion_verified id s (.runGuarded hs (.init rfl)) s' hcomplete⟩

/-- A run before it, which is cancelled while a peer writes wrong bytes. -/
def cancelledRun : List Action :=
  [.start smallLink (some smallMet) true, .readPart 8, .checkPart, .begin, .peers (.assign 1 [] 3), .peers (.begin 1 0 [9, 9]), .stop false]

/-- The write gets into the file after the part was checked. -/
theorem unverified_after_late_write :
    ¬ ∀ s, Reachable id s → ∀ s', s.step id .complete = some s' → Verified id s'.link s'.transfer.disk := by
  intro h
  have hrun : ∃ s s', runActions (step id) smallDirectory (List.flatten [cancelledRun, honestRun, [.late 0 2]]) = some s ∧
      s.step id .complete = some s' ∧ s'.link.fileSize = 8 ∧ s'.transfer.disk ≠ s'.link.fileHash :=
    ⟨_, _, rfl, rfl, rfl, by decide +kernel⟩
  obtain ⟨s, s', hs, hcomplete, hsize, hne⟩ := hrun
  have hverified := h s (.runActions hs (.init rfl)) s' hcomplete
  exact hne (hverified.small (hsize.trans_lt (by decide)))

end Directory

end Ed2k

/-!
## When a download has no work left

`pending` counts every candidate between `submit` and the dispatcher, and those that the re-ask task has in hand, and `peer_count` the peer tasks. So
a test that says there is no work left is right if no candidate passes from one place to the next behind its back: while the dispatcher has uncounted
a candidate that has no task yet, or when a source is put back after the map was read, it is in neither count.
-/

namespace Ed2k

/-! ### What the counters count -/

def Submission.held : Submission → ℕ
  | .none => 0
  | .counted _ | .refused _ => 1

def Dispatcher.held : Dispatcher → ℕ
  | .awaitingPermit _ | .permitted _ => 1
  | _ => 0

def Dispatcher.isDispatching : Dispatcher → Bool
  | .dispatching _ => true
  | _ => false

def Refused.held : Refused → ℕ
  | .none => 0
  | .refused _ | .postponed => 1

/-- The test has read `peer_count`, and not yet all the rest. -/
def Test.underWay : Test → Bool
  | .noPeers | .noQueued => true
  | _ => false

namespace Sources

/-- The candidates that `pending` is to count. -/
def held (s : Sources) : ℕ := s.channel.length + s.dispatcher.held + s.taken.length + s.refused.held + s.submission.held

structure Accounted (s : Sources) : Prop where
  pending : s.held ≤ s.pending
  peers : s.peerCount = s.peers.length
  alone : s.test.underWay = true → s.peers = [] ∧ s.dispatcher.isDispatching = false
  empty : s.test = .noQueued → s.queued = []

/-- No candidate changes hands behind the test's back. -/
def undisturbed (s : Sources) : Action → Bool
  | .readPeers => !s.dispatcher.isDispatching
  | .uncount => !s.test.underWay
  | .postpone _ => s.test != .noQueued
  | _ => true

/-- There is no candidate anywhere. -/
structure Quiet (s : Sources) : Prop where
  channel : s.channel = []
  dispatcher : s.dispatcher.held = 0 ∧ s.dispatcher.isDispatching = false
  reask : s.taken = [] ∧ s.refused.held = 0
  queued : s.queued = []
  peers : s.peers = []

variable {isPublic : SocketAddr → Bool}

/-- At the start there is nothing to count. -/
theorem accounted_new (capacity : ℕ) : Accounted (new capacity) := ⟨Nat.le_refl _, rfl, nofun, nofun⟩

/-- What `try_send` does to the channel. -/
theorem length_of_trySend {s : Sources} {candidate : SourceCandidate} {channel : List SourceCandidate} (h : s.trySend candidate = some channel) :
    channel.length = s.channel.length + 1 := by
  unfold trySend at h
  split at h
  · cases h
  split at h
  · cases h
    exact List.length_append
  · cases h

/-- A candidate that is handed in is counted. -/
theorem Accounted.stepSubmit {s s' : Sources} {a : Action} (h : Accounted s) (hs : s.stepSubmit isPublic a = some s') : Accounted s' := by
  have hpending := h.pending
  unfold held at hpending
  cases a <;> simp only [Sources.stepSubmit, reduceCtorEq] at hs
  case submit candidate =>
    split at hs
    · rename_i hsub
      split at hs
      · cases hs
      · cases hs
        refine { h with pending := ?_ }
        rw [hsub] at hpending
        simp only [held, Submission.held] at hpending ⊢
        omega
    · cases hs
  case submitSend =>
    split at hs
    · rename_i candidate hsub
      rw [hsub] at hpending
      cases hs
      split
      · rename_i channel hsend
        have hlength := length_of_trySend hsend
        refine { h with pending := ?_ }
        simp only [held, Submission.held] at hpending ⊢
        omega
      · refine { h with pending := ?_ }
        simp only [held, Submission.held] at hpending ⊢
        omega
    · cases hs
  case submitUndo =>
    split at hs
    · rename_i candidate hsub
      rw [hsub] at hpending
      cases hs
      refine { h with pending := ?_ }
      simp only [held, Submission.held] at hpending ⊢
      omega
    · cases hs

/-- So it is by the dispatcher and the peers, if no candidate is uncounted while the test is under way. -/
theorem Accounted.stepDispatcher {s s' : Sources} {a : Action} (h : Accounted s) (hclean : s.undisturbed a = true)
    (hs : s.stepDispatcher a = some s') : Accounted s' := by
  have hpending := h.pending
  unfold held at hpending
  cases a <;> simp only [Sources.stepDispatcher, reduceCtorEq] at hs
  case receive =>
    split at hs
    · rename_i candidate rest hdispatcher hchannel
      rw [hdispatcher, hchannel] at hpending
      cases hs
      refine { h with pending := ?_, alone := fun htest => ⟨(h.alone htest).1, rfl⟩ }
      simp only [held, Dispatcher.held, List.length_cons] at hpending ⊢
      omega
    · cases hs
  case permit =>
    split at hs
    · rename_i candidate hdispatcher
      rw [hdispatcher] at hpending
      cases hs
      exact { h with pending := hpending, alone := fun htest => ⟨(h.alone htest).1, rfl⟩ }
    · cases hs
  case uncount =>
    split at hs
    · rename_i candidate hdispatcher
      rw [hdispatcher] at hpending
      cases hs
      have hidle : s.test.underWay = false := by simpa [undisturbed] using hclean
      refine { h with pending := ?_, alone := fun htest => ?_ }
      · simp only [held, Dispatcher.held] at hpending ⊢
        omega
      · rw [hidle] at htest
        cases htest
    · cases hs
  case spawn =>
    split at hs
    · rename_i candidate hdispatcher
      rw [hdispatcher] at hpending
      cases hs
      refine { h with pending := hpending, peers := ?_, alone := fun htest => ?_ }
      · rw [List.length_append, ← h.peers]
        rfl
      · -- The test did not start while the candidate was in between.
        have hnot := (h.alone htest).2
        rw [hdispatcher] at hnot
        cases hnot
    · cases hs
  case abandon =>
    split at hs
    · cases hs
    split at hs
    · rename_i hdispatcher
      rw [hdispatcher] at hpending
      cases hs
      refine { h with pending := ?_, alone := fun htest => ⟨(h.alone htest).1, rfl⟩ }
      simp only [held, Dispatcher.held, List.length_nil] at hpending ⊢
      omega
    · rename_i candidate hdispatcher
      rw [hdispatcher] at hpending
      cases hs
      refine { h with pending := ?_, alone := fun htest => ⟨(h.alone htest).1, rfl⟩ }
      simp only [held, Dispatcher.held, List.length_nil] at hpending ⊢
      omega
    · rename_i candidate hdispatcher
      rw [hdispatcher] at hpending
      cases hs
      refine { h with pending := ?_, alone := fun htest => ⟨(h.alone htest).1, rfl⟩ }
      simp only [held, Dispatcher.held, List.length_nil] at hpending ⊢
      omega
    · cases hs

/-- No peer ends while the test is under way, as there is none. -/
theorem Accounted.stepPeer {s s' : Sources} {a : Action} (h : Accounted s) (hs : s.stepPeer a = some s') : Accounted s' := by
  have hnone : ∀ {i : ℕ} {task : PeerTask}, s.peers[i]? = some task → s.test.underWay = false := by
    intro i task hi
    by_contra htest
    rw [(h.alone (by simpa using htest)).1] at hi
    cases hi
  cases a <;> simp only [Sources.stepPeer, reduceCtorEq] at hs
  case peerEnds i queued =>
    split at hs
    · rename_i candidate hi
      cases hs
      refine { h with peers := h.peers.trans List.length_set.symm, alone := fun htest => ?_ }
      rw [hnone hi] at htest
      cases htest
    · cases hs
  case peerQueues i due =>
    split at hs
    · rename_i candidate hi
      cases hs
      refine { h with peers := h.peers.trans List.length_set.symm, alone := fun htest => ?_, empty := fun htest => ?_ }
      · rw [hnone hi] at htest
        cases htest
      · have hidle := hnone hi
        rw [htest] at hidle
        cases hidle
    · cases hs
  case peerLeaves i =>
    split at hs
    · rename_i hi
      cases hs
      refine { h with peers := ?_, alone := fun htest => ?_ }
      · rw [List.length_eraseIdx_of_lt (List.getElem?_eq_some_iff.mp hi).1, h.peers]
      · rw [hnone hi] at htest
        cases htest
    · cases hs

/-- So it is by the task that asks again, if no source is put back after the map was read. -/
theorem Accounted.stepReask {s s' : Sources} {a : Action} (h : Accounted s) (hclean : s.undisturbed a = true) (hs : s.stepReask a = some s') :
    Accounted s' := by
  have hpending := h.pending
  unfold held at hpending
  cases a <;> simp only [Sources.stepReask, reduceCtorEq] at hs
  case takeDue now =>
    split at hs
    · rename_i htaken hrefused
      rw [htaken] at hpending
      cases hs
      refine { h with pending := ?_, empty := fun htest => ?_ }
      · simp only [held, List.length_nil] at hpending ⊢
        omega
      · dsimp only
        rw [h.empty htest, List.filter_nil]
    · cases hs
  case resend i =>
    split at hs
    · rename_i source hi hrefused
      have hlength := List.length_eraseIdx_of_lt (List.getElem?_eq_some_iff.mp hi).1
      have hpos := (List.getElem?_eq_some_iff.mp hi).1
      rw [hrefused] at hpending
      cases hs
      split
      · rename_i channel hsend
        have hsent := length_of_trySend hsend
        refine { h with pending := ?_ }
        simp only [held, hrefused, Refused.held] at hpending ⊢
        omega
      · refine { h with pending := ?_ }
        simp only [held, Refused.held] at hpending ⊢
        omega
    · cases hs
  case postpone now =>
    split at hs
    · rename_i source hrefused
      rw [hrefused] at hpending
      cases hs
      refine { h with pending := hpending, empty := fun htest => ?_ }
      have htest : s.test = .noQueued := htest
      rw [undisturbed, htest] at hclean
      cases hclean
    · cases hs
  case postponeUncount =>
    split at hs
    · rename_i hrefused
      rw [hrefused] at hpending
      cases hs
      refine { h with pending := ?_ }
      simp only [held, Refused.held] at hpending ⊢
      omega
    · cases hs

/-- The test finds what the counters say, if no candidate is being dispatched when it begins. -/
theorem Accounted.stepTest {s s' : Sources} {a : Action} (h : Accounted s) (hclean : s.undisturbed a = true) (hs : s.stepTest a = some s') :
    Accounted s' := by
  cases a <;> simp only [Sources.stepTest, reduceCtorEq] at hs
  case readPeers =>
    have hafter : Accounted { s with test := if s.peerCount = 0 then .noPeers else .done false } := by
      refine { h with alone := fun htest => ?_, empty := fun htest => ?_ }
      · dsimp only at htest
        split at htest
        · rename_i hzero
          exact ⟨List.eq_nil_of_length_eq_zero (h.peers.symm.trans hzero), by simpa [undisturbed] using hclean⟩
        · cases htest
      · dsimp only at htest
        split at htest <;> cases htest
    split at hs
    · cases hs
      exact hafter
    · cases hs
      exact hafter
    · cases hs
  case readQueued =>
    split at hs
    · rename_i htest
      cases hs
      refine { h with alone := fun _ => h.alone (by rw [htest]; rfl), empty := fun hread => ?_ }
      dsimp only at hread
      split at hread
      · assumption
      · cases hread
    · cases hs
  case readPending =>
    split at hs
    · cases hs
      exact { h with alone := nofun, empty := nofun }
    · cases hs

/-- The step lemma. -/
theorem Accounted.step {s s' : Sources} {a : Action} (h : Accounted s) (hclean : s.undisturbed a = true)
    (hs : s.step isPublic a = some s') : Accounted s' := by
  cases a
  case cancel =>
    cases hs
    exact { h with }
  case submit candidate => exact h.stepSubmit (by rwa [Sources.step] at hs)
  case submitSend | submitUndo => exact h.stepSubmit (by rwa [Sources.step] at hs)
  case receive | permit | uncount | spawn | abandon => exact h.stepDispatcher hclean hs
  case peerEnds | peerQueues | peerLeaves => exact h.stepPeer (by rwa [Sources.step] at hs)
  case takeDue | resend | postpone | postponeUncount => exact h.stepReask hclean hs
  case readPeers | readQueued | readPending => exact h.stepTest hclean hs

/-- In every run in which nothing changes hands behind the test's back, a test that finds no work left is right: there is no candidate anywhere. -/
theorem no_work_quiet (isPublic : SocketAddr → Bool) (s : Sources)
    (h : Reach (fun s => ∃ capacity, s = new capacity) (fun s s' => ∃ a, s.undisturbed a = true ∧ s.step isPublic a = some s') s) :
    ∀ s', s.step isPublic .readPending = some s' → s'.test = .done true → Quiet s' := by
  have hinit : ∀ s, (∃ capacity, s = new capacity) → Accounted s := by
    rintro _ ⟨capacity, rfl⟩
    exact accounted_new capacity
  have hstep : ∀ s s', Accounted s → (∃ a, s.undisturbed a = true ∧ s.step isPublic a = some s') → Accounted s' :=
    fun _ _ haccounted ⟨_, hclean, hs⟩ => haccounted.step hclean hs
  have haccounted := Reach.invariant hinit hstep h
  intro s' hs htrue
  simp only [Sources.step, Sources.stepTest] at hs
  split at hs
  · rename_i htest
    cases hs
    have hzero : s.pending = 0 := by simpa using htrue
    have hheld := haccounted.pending
    rw [hzero, held] at hheld
    obtain ⟨hpeers, hdispatching⟩ := haccounted.alone (by rw [htest]; rfl)
    have hchannel : s.channel = [] := List.eq_nil_of_length_eq_zero (by omega)
    have htaken : s.taken = [] := List.eq_nil_of_length_eq_zero (by omega)
    have hdispatcher : s.dispatcher.held = 0 := by omega
    have hrefused : s.refused.held = 0 := by omega
    exact ⟨hchannel, ⟨hdispatcher, hdispatching⟩, ⟨htaken, hrefused⟩, haccounted.empty htest, hpeers⟩
  · cases hs

/-! ### One source -/

def oneSource : SourceCandidate := ⟨.v4 1 4662, .link⟩

/-- A source is submitted and received while the test runs, and its task is spawned after it. -/
def testOver : List Action := [.submit oneSource, .submitSend, .receive, .permit, .readPeers, .readQueued, .uncount]

/-- Its peer has ended before the test. -/
def testAfter : List Action :=
  [.submit oneSource, .submitSend, .receive, .permit, .uncount, .spawn, .peerEnds 0 false, .peerLeaves 0, .readPeers, .readQueued]

/-- Here the one source has come and gone before the test. -/
theorem no_work_quiet_after : ∃ s s', runActions (step fun _ => true) (new 300) testAfter = some s ∧
    s.step (fun _ => true) .readPending = some s' ∧ s'.test = .done true ∧ Quiet s' := by
  have hrun : ∃ s s', runActions (fun s a => if s.undisturbed a = true then s.step (fun _ => true) a else none) (new 300) testAfter = some s ∧
      runActions (step fun _ => true) (new 300) testAfter = some s ∧ s.step (fun _ => true) .readPending = some s' ∧ s'.test = .done true :=
    ⟨_, _, rfl, rfl, rfl, rfl⟩
  obtain ⟨s, s', hs, hsame, hread, htrue⟩ := hrun
  exact ⟨s, s', hsame, hread, htrue, no_work_quiet _ s (.runGuarded hs (.init ⟨300, rfl⟩)) s' hread htrue⟩

/-- The dispatcher has the source in hand, and the test does not see it. -/
theorem no_work_over_dispatch :
    ¬ ∀ s, Reachable (fun _ => true) s → ∀ s', s.step (fun _ => true) .readPending = some s' → s'.test = .done true → Quiet s' := by
  intro h
  have hrun : ∃ s s', runActions (step fun _ => true) (new 300) testOver = some s ∧ s.step (fun _ => true) .readPending = some s' ∧
      s'.test = .done true ∧ s'.dispatcher.isDispatching = true := ⟨_, _, rfl, rfl, rfl, rfl⟩
  obtain ⟨s, s', hs, hread, htrue, hdispatching⟩ := hrun
  have hquiet := h s (.runActions hs (.init ⟨300, rfl⟩)) s' hread htrue
  rw [hquiet.dispatcher.2] at hdispatching
  cases hdispatching

end Sources

end Ed2k

/-!
## Strikes over whole runs

A peer that sent nothing but true ranges has no strike, as long as every write that put a wrong byte over a covered one is committed, and no part
of one source fails to be read. A peer that leaves between its write and its commit breaks the first condition.
-/

namespace Ed2k

namespace Transfer

variable {md4 : List UInt8 → Digest} {truth : List UInt8}

/-- A run of a link that stands for the content. -/
def Begins (md4 : List UInt8 → Digest) (truth : List UInt8) (s : Transfer) : Prop :=
  Initial s ∧ truth.length = s.chunks.fileSize ∧ Content md4 truth s.chunks.fileHash

/-- At the start nothing is traced to a peer. -/
theorem Begins.traced {s : Transfer} (h : Begins md4 truth s) : Traced md4 truth s := by
  obtain ⟨hinit, hlength, hcontent⟩ := h
  obtain ⟨fileSize, fileHash, restored, hchunks⟩ := hinit.chunks
  -- Restoring parts gives them no sources and makes them complete.
  have hfold : ∀ (L : List ℕ) (cm : ChunkManager), cm.Sound → cm.Fresh → cm.chunkHashes = none → cm.strikes = .empty →
      (∀ p, (cm.part p).status ≠ .missing → (cm.part p).status = .downloaded) →
      (L.foldl ChunkManager.restoreVerified cm).chunkHashes = none ∧ (L.foldl ChunkManager.restoreVerified cm).strikes = .empty ∧
        (L.foldl ChunkManager.restoreVerified cm).Fresh ∧
        ∀ p, ((L.foldl ChunkManager.restoreVerified cm).part p).status ≠ .missing →
          ((L.foldl ChunkManager.restoreVerified cm).part p).status = .downloaded := by
    intro L
    induction L with
    | nil => exact fun _ _ hfresh hnone hempty hdone => ⟨hnone, hempty, hfresh, hdone⟩
    | cons q L ih =>
      intro cm hsound hfresh hnone hempty hdone
      obtain ⟨hsound', hfresh'⟩ := hsound.restoreVerified hfresh q
      refine ih _ hsound' hfresh' ?_ ?_ ?_
      · rcases cm.restoreVerified_cases q with hsame | ⟨-, -, t, -, -, -, heq⟩
        · rw [hsame, hnone]
        · rw [heq]
          exact hnone
      · rcases cm.restoreVerified_cases q with hsame | ⟨-, -, t, -, -, -, heq⟩
        · rw [hsame, hempty]
        · rw [heq]
          exact hempty
      · rcases cm.restoreVerified_cases q with hsame | ⟨hq, -, t, hstatus, -, -, heq⟩
        · rw [hsame]
          exact hdone
        · rw [heq]
          intro p
          change ((cm.setPart q t).part p).status ≠ .missing → ((cm.setPart q t).part p).status = .downloaded
          rcases eq_or_ne p q with rfl | hne
          · rw [ChunkManager.part_setPart_self (hsound.parts ▸ hq)]
            exact fun _ => hstatus
          · rw [ChunkManager.part_setPart_of_ne hne]
            exact hdone p
  have hnew : ∀ p, ((ChunkManager.new fileSize fileHash).part p).status ≠ .missing →
      ((ChunkManager.new fileSize fileHash).part p).status = .downloaded := by
    intro p hne
    rw [ChunkManager.part_new] at hne
    exact absurd rfl hne
  obtain ⟨hnone, hempty, hfresh, hdone⟩ :=
    hfold restored _ (ChunkManager.sound_new fileSize fileHash) (fun _ _ => ChunkManager.part_new) rfl rfl hnew
  have hpart : ∀ p, s.chunks.part p = (List.foldl ChunkManager.restoreVerified (.new fileSize fileHash) restored).part p := by
    intro p
    rw [hchunks]
    rfl
  refine { length := hlength, content := hcontent, expected := ?_, sent := ?_, explained := ?_, strikes := ?_ }
  · intro p hp e he
    have hhashes : s.chunks.chunkHashes = none := by rw [hchunks, hnone]
    rw [ChunkManager.expectedPartHash, hhashes] at he
    split at he
    · rename_i hsmall
      cases he
      rw [hcontent.small (hlength ▸ hsmall)]
      -- The file is its only part.
      rw [← hlength] at hp hsmall
      have hzero : p = 0 := by
        unfold chunkCount at hp
        unfold ed2kChunkSize at hp hsmall
        split at hp <;> omega
      subst hzero
      rw [partOf, chunkRange]
      simp [Nat.min_eq_right hsmall.le]
    · cases he
  · rw [hinit.writes]
    rintro _ ⟨⟩
  · intro p hp k hk
    refine .inr (.inl ?_)
    rw [hpart] at hk ⊢
    refine hdone p fun hmissing => ?_
    rw [hfresh p hmissing] at hk
    exact absurd hk (Finset.notMem_empty k)
  · intro peer _
    rw [hchunks]
    exact (congrArg (fun m => OrdMap.get? m peer) hempty).trans rfl

/-- In every run whose steps are clean, a peer that sent nothing but true ranges has no strike and is not banned. -/
theorem honest_not_struck (md4 : List UInt8 → Digest) (truth : List UInt8) (s : Transfer)
    (h : Reach (Begins md4 truth) (fun s s' => ∃ a, Clean truth s a ∧ s.step md4 a = some s') s) :
    ∀ peer, s.Honest truth peer → s.chunks.strikes.get? peer = none ∧ s.chunks.isBanned peer = false := by
  have hinit : ∀ s, Begins md4 truth s → s.Sound ∧ Traced md4 truth s := fun _ hbegins => ⟨hbegins.1.sound, hbegins.traced⟩
  have hstep : ∀ s s', (s.Sound ∧ Traced md4 truth s) → (∃ a, Clean truth s a ∧ s.step md4 a = some s') → s'.Sound ∧ Traced md4 truth s' := by
    rintro s s' ⟨hsound, htraced⟩ ⟨a, hclean, hs⟩
    exact ⟨hsound.step hs, htraced.step hsound hclean hs⟩
  obtain ⟨-, htraced⟩ := Reach.invariant hinit hstep h
  intro peer hhonest
  have hnone := htraced.strikes peer hhonest
  refine ⟨hnone, ?_⟩
  rw [ChunkManager.isBanned, hnone]
  rfl

/-! ### A run -/

def trueBytes : List UInt8 := [1, 2, 3, 4, 5, 6, 7, 8]

/-- The digest of the example is the part itself. -/
theorem begins_small : Begins id trueBytes (small trueBytes) := by
  refine ⟨initial_small _, rfl, fun _ => rfl, fun hlarge => ?_⟩
  exact absurd hlarge (by decide +kernel)

/-- What the peers send in turn: the first two bytes by peer 1, a wrong range over the second of them by peer 2, and the rest by peer 1. -/
def overlapped (ending : List Action) : List Action :=
  List.flatten [[.assign 1 [] 3, .assign 2 [] 3, .begin 1 0 [1, 2], .write 0 2, .commit 0, .drop 0, .begin 2 1 [9, 9], .write 0 2], ending,
    [.drop 0, .begin 1 2 [3, 4, 5, 6, 7, 8], .write 0 6, .commit 0, .drop 0, .takeJobs, .read 0 8, .finish 0]]

/-- The peers of a run that sent true ranges only. -/
def honestIn (s : Transfer) (peer : ℕ) : Bool :=
  s.sent.all fun e => e.peer != peer || (trueBytes.drop e.offset).take e.data.length == e.data

/-- The decidable test for an honest peer is the definition, over the ranges the transfer holds. -/
theorem honest_of_honestIn {s : Transfer} {peer : ℕ} (h : honestIn s peer = true) : s.Honest trueBytes peer := by
  intro e he hpeer k x hk
  have he := List.all_eq_true.mp h e he
  simp only [hpeer, bne_self_eq_false, Bool.false_or, beq_iff_eq] at he
  rw [← he, List.getElem?_take] at hk
  split at hk
  · rwa [List.getElem?_drop] at hk
  · cases hk

/-- The commits of a run succeed, and its writes end with them. -/
def cleanIn (s : Transfer) : Action → Bool
  | .commit i => (s.writes[i]?).all fun w => s.chunks.writablePart w.peer w.ticket.offset w.ticket.stop == some w.ticket.part
  | .drop i => (s.writes[i]?).all fun w => w.committed
  | .readFailed _ => false
  | _ => true

/-- The same for a clean step. -/
theorem clean_of_cleanIn {s : Transfer} {a : Action} (h : s.cleanIn a = true) : Clean trueBytes s a := by
  cases a with
  | commit i =>
    intro w hw _
    rw [cleanIn, hw] at h
    simpa using h
  | drop i =>
    intro w hw hpending
    rw [cleanIn, hw, Option.all_some, hpending] at h
    cases h
  | readFailed j => cases h
  | assign | release | hashes | begin | write | takeJobs | read | finish => trivial

/-- The wrong byte is committed, so both peers are sources of the part that is not what it should be. -/
theorem honest_not_struck_committed :
    ∃ s, runActions (step id) (small trueBytes) (overlapped [.commit 0]) = some s ∧ (s.chunks.part 0).covered = [] ∧
      s.Honest trueBytes 1 ∧ s.chunks.strikes.get? 1 = none := by
  have hrun : ∃ s, runActions (fun s a => if s.cleanIn a = true then s.step id a else none) (small trueBytes) (overlapped [.commit 0]) = some s ∧
      runActions (step id) (small trueBytes) (overlapped [.commit 0]) = some s ∧ (s.chunks.part 0).covered = [] ∧ honestIn s 1 = true := by
    exact ⟨_, rfl, rfl, by decide +kernel, by decide +kernel⟩
  obtain ⟨s, hs, hsame, hcovered, hhonest⟩ := hrun
  have hclean : Reach (Begins id trueBytes) (fun s s' => ∃ a, Clean trueBytes s a ∧ s.step id a = some s') s :=
    .mono (fun _ _ ⟨a, ha, hstep⟩ => ⟨a, clean_of_cleanIn ha, hstep⟩) (.runGuarded hs (.init begins_small))
  have hhonest := honest_of_honestIn hhonest
  exact ⟨s, hsame, hcovered, hhonest, (honest_not_struck id trueBytes s hclean 1 hhonest).1⟩

/-- Peer 2 leaves before its commit, and peer 1 is struck for the byte that it wrote. -/
theorem struck_after_release :
    ¬ ∀ s, Reach (Begins id trueBytes) (fun s s' => ∃ a, s.step id a = some s') s →
      ∀ peer, s.Honest trueBytes peer → s.chunks.strikes.get? peer = none := by
  intro h
  have hrun : ∃ s, runActions (step id) (small trueBytes) (overlapped [.release 2, .commit 0]) = some s := ⟨_, rfl⟩
  obtain ⟨s, hs⟩ := hrun
  have hr := h s (.runActions hs (.init begins_small)) 1
  cases hs
  have hnone := hr (honest_of_honestIn (by decide +kernel))
  revert hnone
  decide +kernel

end Transfer

end Ed2k

/-!
## The digest does not depend on how the bytes are cut

A turn of one of the loops of `block` is four operations of the RFC (`turn1_eq`), and a hasher holds the whole blocks of what it was
given folded into its state (`Holds`), also while the padding goes through `update`.
-/

namespace Ed2k

namespace Md4

/-- An operation of the first round, whose constant is zero. -/
theorem operation_zero (auxiliary : Word → Word → Word → Word) (x : ℕ → Word) (r : Md4State) (ks : ℕ × ℕ) :
    Rfc1320.operation auxiliary 0 x r ks = ⟨r.d, (r.a + auxiliary r.b r.c r.d + x ks.1).rotateLeft ks.2, r.b, r.c⟩ := by
  simp only [Rfc1320.operation, BitVec.ofNat_eq_ofNat, BitVec.add_zero]

/-- A turn of the first loop of `block` is four operations of the first round. -/
theorem turn1_eq (x : ℕ → Word) (s : Md4State) (i : ℕ) :
    turn1 x s i = [(i * 4, 3), (i * 4 + 1, 7), (i * 4 + 2, 11), (i * 4 + 3, 19)].foldl (Rfc1320.operation Rfc1320.F 0 x) s := by
  simp only [List.foldl_cons, List.foldl_nil, operation_zero]
  rfl

/-- A turn of the second loop. -/
theorem turn2_eq (x : ℕ → Word) (s : Md4State) (i : ℕ) :
    turn2 x s i = [(i, 3), (i + 4, 5), (i + 8, 9), (i + 12, 13)].foldl (Rfc1320.operation Rfc1320.G 0x5a827999 x) s := rfl

/-- A turn of the third loop. -/
theorem turn3_eq (x : ℕ → Word) (s : Md4State) (i : ℕ) :
    turn3 x s i = [(i, 3), (i + 8, 9), (i + 4, 11), (i + 12, 15)].foldl (Rfc1320.operation Rfc1320.H 0x6ed9eba1 x) s := rfl

/-- `block` is the compression of the RFC. -/
theorem block_eq_compress : block = Rfc1320.compress := by
  funext s chunk
  have hround1 : [0, 1, 2, 3].foldl (turn1 (wordAt chunk)) s = Rfc1320.round1.foldl (Rfc1320.operation Rfc1320.F 0 (wordAt chunk)) s := by
    simp only [List.foldl_cons, List.foldl_nil, turn1_eq, Rfc1320.round1, Nat.reduceMul, Nat.reduceAdd]
  have hround2 (s : Md4State) :
      [0, 1, 2, 3].foldl (turn2 (wordAt chunk)) s = Rfc1320.round2.foldl (Rfc1320.operation Rfc1320.G 0x5a827999 (wordAt chunk)) s := by
    simp only [List.foldl_cons, List.foldl_nil, turn2_eq, Rfc1320.round2, Nat.reduceAdd]
  have hround3 (s : Md4State) :
      [0, 2, 1, 3].foldl (turn3 (wordAt chunk)) s = Rfc1320.round3.foldl (Rfc1320.operation Rfc1320.H 0x6ed9eba1 (wordAt chunk)) s := by
    simp only [List.foldl_cons, List.foldl_nil, turn3_eq, Rfc1320.round3, Nat.reduceAdd]
  unfold block Rfc1320.compress
  dsimp only
  rw [hround1, hround2, hround3]

/-- The hasher was given this message. -/
structure Holds (s : Md4) (message : List UInt8) : Prop where
  whole : Blockwise.whole 64 block .init message = (s.state, s.buf)
  total : s.total = UInt64.ofNat message.length

/-- A new hasher holds the empty message. -/
theorem holds_new : Holds new [] := ⟨rfl, rfl⟩

/-- Whole blocks go into the state, and the rest is left in the buffer. -/
theorem holds_refill {message : List UInt8} {state : Md4State} {data : List UInt8} {total : UInt64}
    (hwhole : Blockwise.whole 64 block .init message = Blockwise.whole 64 block state data) (htotal : total = UInt64.ofNat message.length) :
    Holds (refill total state data) message := ⟨hwhole, htotal⟩

/-- `update` gives the hasher some more. -/
theorem Holds.update {s : Md4} {message : List UInt8} (h : Holds s message) (data : List UInt8) : Holds (s.update data) (message ++ data) := by
  have htotal : s.total + UInt64.ofNat data.length = UInt64.ofNat (message ++ data).length := by
    rw [h.total, List.length_append, UInt64.ofNat_add]
  have hwhole : Blockwise.whole 64 block .init (message ++ data) = Blockwise.whole 64 block s.state (s.buf ++ data) := by
    rw [Blockwise.whole_append (by decide), h.whole]
  have hbuf := s.short
  unfold Md4.update
  dsimp only
  split
  · split
    · -- All of it goes into the buffer.
      rename_i hshort
      have hall : data.take (min (64 - s.buf.length) data.length) = data := by
        refine List.take_of_length_le (le_min ?_ le_rfl)
        rw [List.length_append, List.length_take] at hshort
        omega
      refine ⟨?_, htotal⟩
      show _ = (s.state, s.buf ++ data.take (min (64 - s.buf.length) data.length))
      rw [hall] at hshort ⊢
      rw [hwhole, Blockwise.whole_short hshort]
    · -- The buffer becomes a block.
      rename_i hfull
      have htake : min (64 - s.buf.length) data.length = 64 - s.buf.length := by
        rw [List.length_append, List.length_take] at hfull
        omega
      have hlong : 64 ≤ (s.buf ++ data).length := by
        rw [List.length_append]
        omega
      refine holds_refill ?_ htotal
      rw [hwhole, htake, Blockwise.whole_block (by decide) hlong, List.take_append, List.drop_append, List.take_of_length_le hbuf.le,
        List.drop_of_length_le hbuf.le, List.nil_append]
  · rename_i hempty
    have hnil : s.buf = [] := List.eq_nil_of_length_eq_zero (by omega)
    refine holds_refill ?_ htotal
    rw [hwhole, hnil, List.nil_append]

/-- However the message is cut, the hasher holds it. -/
theorem Holds.updates {s : Md4} {message : List UInt8} (h : Holds s message) (pieces : List (List UInt8)) :
    Holds (pieces.foldl Md4.update s) (message ++ pieces.flatten) := by
  induction pieces generalizing s message with
  | nil =>
    rw [List.flatten_nil, List.append_nil]
    exact h
  | cons piece rest ih =>
    rw [List.foldl_cons, List.flatten_cons, ← List.append_assoc]
    exact ih (h.update piece)

/-- The padding that `finalize` puts behind a message is the one of the RFC. -/
theorem Holds.pad_eq {s : Md4} {message : List UInt8} (h : Holds s message) (hlength : message.length < 2 ^ 61) :
    message ++ s.padding ++ toLe 8 (s.total * 8).toNat = Rfc1320.pad message := by
  have hbuf : s.buf.length = message.length % 64 := by
    rw [← Blockwise.length_whole (f := block) (by decide) .init, h.whole]
  have hbits : (s.total * 8).toNat = 8 * message.length := by
    rw [h.total, UInt64.toNat_mul, UInt64.toNat_ofNat', Nat.mod_eq_of_lt (show message.length < 2 ^ 64 by omega)]
    show message.length * 8 % 2 ^ 64 = 8 * message.length
    omega
  have hzeros : ∀ n, 0 < n → n ≤ 72 → (0x80 :: List.replicate 71 (0 : UInt8)).take n = 0x80 :: List.replicate (n - 1) 0 := by
    intro n hpos hle
    obtain ⟨k, rfl⟩ := Nat.exists_eq_succ_of_ne_zero hpos.ne'
    rw [List.take_succ_cons, List.take_replicate, Nat.min_eq_left (by omega), Nat.succ_sub_one]
  unfold Rfc1320.pad padding
  dsimp only
  rw [hbits, hbuf]
  have hlt : message.length % 64 < 64 := Nat.mod_lt _ (by decide)
  split
  · rw [hzeros _ (by omega) (by omega), show (119 - message.length % 64) % 64 = 56 - message.length % 64 - 1 by omega]
  · rw [hzeros _ (by omega) (by omega), show (119 - message.length % 64) % 64 = 120 - message.length % 64 - 1 by omega]

/-- Padding what is in the buffer gives the blocks that the RFC pads the message to. -/
theorem Holds.finalize_eq {s : Md4} {message : List UInt8} (h : Holds s message) (hlength : message.length < 2 ^ 61) :
    s.finalize = Rfc1320.digest message := by
  have hpadded := (h.update s.padding).update (toLe 8 (s.total * 8).toNat)
  rw [h.pad_eq hlength] at hpadded
  unfold finalize Rfc1320.digest
  dsimp only
  rw [← block_eq_compress, ← Blockwise.whole_fst (by decide), hpadded.whole]

/-- However a message is cut into calls of `update`, the digest is the one of the RFC. -/
theorem streaming_md4_eq_rfc1320 (pieces : List (List UInt8)) (hlength : pieces.flatten.length < 2 ^ 61) :
    (pieces.foldl Md4.update Md4.new).finalize = Rfc1320.digest pieces.flatten :=
  (holds_new.updates pieces).finalize_eq hlength

theorem streaming_md4_eq_rfc1320_abc : ([[97], [], [98, 99]].foldl Md4.update Md4.new).finalize = Rfc1320.digest [97, 98, 99] :=
  streaming_md4_eq_rfc1320 [[97], [], [98, 99]] (by decide)

end Md4

end Ed2k

end Risuko
