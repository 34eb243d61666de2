import Risuko.Ftp.Sftp
import Risuko.Lib.Lists

/-!
# SFTP downloads over whole runs

In whatever order the reads come back, and however short, the part file is the first bytes of the file on the server, and the loop ends when it is all of
them. Each byte behind what is in order and before `next_read_offset` belongs to one read that is under way or one chunk that waits (`Ok.claimed`).
-/

namespace Risuko

namespace Sftp

/-! ## Ranges -/

/-- One, if a byte is in a range. -/
def inRange (offset n x : ℕ) : ℕ := if offset ≤ x ∧ x < offset + n then 1 else 0

@[simp] theorem inRange_zero (offset x : ℕ) : inRange offset 0 x = 0 := if_neg (by omega)

/-- A range counts like its two parts. -/
theorem inRange_add (offset m n x : ℕ) : inRange offset (m + n) x = inRange offset m x + inRange (offset + m) n x := by
  unfold inRange
  grind

/-- A range counts the offsets that lie in it. -/
theorem inRange_pos {offset n x : ℕ} : 0 < inRange offset n x ↔ offset ≤ x ∧ x < offset + n := by
  unfold inRange
  split <;> simp_all

theorem inRange_le_one (offset n x : ℕ) : inRange offset n x ≤ 1 := by
  unfold inRange
  split <;> omega

/-- What a range has before a bound is all that counts there. -/
theorem inRange_min {offset n L x : ℕ} (hx : x < L) : inRange offset (min n (L - offset)) x = inRange offset n x := by
  unfold inRange
  grind

/-! ## Requests -/

/-- A read asks for at least one byte and for no more than the buffer holds. -/
theorem maxLen_bounds (job : Job) : 0 < job.maxLen ∧ job.maxLen ≤ bufSize := by
  unfold Job.maxLen maxReadLen bufSize
  split
  · split
    · omega
    · omega
  · omega

/-- The size is unknown or that of the remote file. -/
theorem fileSize_eq (job : Job) : job.fileSize = 0 ∨ job.fileSize = job.remote.length := by
  unfold Job.fileSize
  split
  · exact .inr rfl
  · exact .inl rfl

/-- A new read is not empty, and it is short enough to be asked for with 32 bits. -/
theorem nextSftpReadLen_bounds {job : Job} {offset len : ℕ} (h : nextSftpReadLen job.fileSize offset job.maxLen = some len) :
    0 < len ∧ len ≤ bufSize := by
  have hmax := maxLen_bounds job
  unfold nextSftpReadLen at h
  split at h
  · split at h
    · cases h
    · cases h
      omega
  · cases h
    exact hmax

/-- No read is begun only where the file ends. -/
theorem le_of_nextSftpReadLen_none {job : Job} {offset : ℕ} (h : nextSftpReadLen job.fileSize offset job.maxLen = none) :
    job.remote.length ≤ offset := by
  unfold nextSftpReadLen at h
  split at h
  · rename_i hsize
    split at h
    · obtain hzero | hlength := fileSize_eq job
      · omega
      · omega
    · cases h
  · cases h

/-- The gap of a chunk that is short: what is missing, as far as the file is known to go. -/
theorem shortReadGap_eq (chunk : SftpReadChunk) (fileSize : ℕ) :
    shortReadGap chunk fileSize =
      if chunk.data.length = 0 ∨ chunk.requestedLen ≤ chunk.data.length ∨ 0 < fileSize ∧ fileSize ≤ chunk.offset + chunk.data.length then none
      else
        some (chunk.offset + chunk.data.length,
          if 0 < fileSize then min (chunk.requestedLen - chunk.data.length) (fileSize - (chunk.offset + chunk.data.length))
          else chunk.requestedLen - chunk.data.length) := by
  unfold shortReadGap
  dsimp only
  split
  · rename_i hfull
    rw [if_pos (by omega)]
  · rename_i hshort
    split
    · rename_i hend
      rw [if_pos (by omega)]
    · rename_i hbefore
      have hpos : 0 < if 0 < fileSize then min (chunk.requestedLen - chunk.data.length) (fileSize - (chunk.offset + chunk.data.length))
          else chunk.requestedLen - chunk.data.length := by split <;> omega
      have hgap : ¬ (chunk.data.length = 0 ∨ chunk.requestedLen ≤ chunk.data.length ∨ 0 < fileSize ∧ fileSize ≤ chunk.offset + chunk.data.length) := by
        omega
      rw [if_pos hpos, if_neg hgap]

/-- The gap is a part of what was asked for. -/
theorem shortReadGap_bounds {chunk : SftpReadChunk} {fileSize : ℕ} {gap : ℕ × ℕ} (h : gap ∈ shortReadGap chunk fileSize) :
    0 < gap.2 ∧ gap.2 ≤ chunk.requestedLen ∧ gap.1 + gap.2 ≤ chunk.offset + chunk.requestedLen := by
  rw [Option.mem_def, shortReadGap_eq] at h
  split at h
  · cases h
  · cases h
    dsimp only
    split <;> omega

/-- Together with what came, the gap is what was asked for, as far as the file goes. -/
theorem inRange_gap {job : Job} {r : Read} {k x : ℕ} (hx : x < job.remote.length) (hdata : (job.answer r k).data ≠ []) (hk : k ≤ r.len) :
    inRange r.offset r.len x = inRange r.offset (job.answer r k).data.length x +
      (shortReadGap (job.answer r k) job.fileSize).elim 0 fun gap => inRange gap.1 gap.2 x := by
  have hlength : (job.answer r k).data.length = min k (job.remote.length - r.offset) := by
    dsimp only [Job.answer]
    rw [List.length_take, List.length_drop]
  have hpos := List.length_pos_of_ne_nil hdata
  have hgap : ((shortReadGap (job.answer r k) job.fileSize).elim 0 fun gap => inRange gap.1 gap.2 x) =
      inRange (r.offset + (job.answer r k).data.length) (r.len - (job.answer r k).data.length) x := by
    rw [shortReadGap_eq]
    split
    · rename_i hnone
      obtain hempty | hfull | hend := hnone
      · omega
      · rw [show r.len - (job.answer r k).data.length = 0 from Nat.sub_eq_zero_of_le hfull, inRange_zero]
        rfl
      · -- The file ends here.
        obtain hzero | hsize := fileSize_eq job
        · omega
        · rw [hsize] at hend
          exact (if_neg fun hin => absurd (hend.2.trans hin.1) (by omega)).symm
    · rw [Option.elim_some]
      split
      · rename_i hknown
        obtain hzero | hsize := fileSize_eq job
        · omega
        · rw [hsize]
          exact inRange_min hx
      · rfl
  rw [hgap, ← inRange_add, show (job.answer r k).data.length + (r.len - (job.answer r k).data.length) = r.len by omega]

/-! ## The invariant -/

/-- How many chunks that wait have a byte. -/
def OrderedChunkBuffer.waiting (b : OrderedChunkBuffer) (x : ℕ) : ℕ := b.pending.sumOf fun offset data => inRange offset data.length x

/-- How many of these reads have a byte. -/
def underWay (reads : List Read) (x : ℕ) : ℕ := (reads.map fun r => inRange r.offset r.len x).sum

namespace Attempt

variable {job : Job} {s s' : Attempt}

/-- What is between the chunks in order and the next read belongs to one read or one chunk each. -/
structure Tiled (job : Job) (s : Attempt) : Prop where
  claimed : ∀ x < job.remote.length,
    underWay s.reads x + s.ordered.waiting x = inRange s.ordered.nextOffset (s.nextReadOffset - s.ordered.nextOffset) x
  behind : s.ordered.nextOffset ≤ s.nextReadOffset
  inside : s.ordered.nextOffset ≤ job.remote.length
  reads : ∀ r ∈ s.reads, 0 < r.len ∧ r.len ≤ bufSize ∧ r.offset + r.len ≤ s.nextReadOffset
  room : s.reads.length ≤ sftpReadAhead
  pending : ∀ offset data, s.ordered.pending.get? offset = some data → data ≠ [] ∧ data = (job.remote.drop offset).take data.length
  eof : s.sawEof = true → job.remote.length ≤ s.nextReadOffset

/-- How far the part file is. -/
def PhaseOk (job : Job) (s : Attempt) : Prop :=
  match s.phase with
  | .reading =>
    s.part = job.remote.take s.ordered.nextOffset ∧ s.bytesDownloaded = s.ordered.nextOffset ∧ s.ordered.pending.get? s.ordered.nextOffset = none ∧
      (s.reads = [] → job.remote.length ≤ s.nextReadOffset)
  | .writing data written =>
    ∃ offset, s.ordered.nextOffset = offset + data.length ∧ data = (job.remote.drop offset).take data.length ∧ written < data.length ∧
      s.part = job.remote.take (offset + written) ∧ s.bytesDownloaded = offset
  | .returned ok => s.part <+: job.remote ∧ (ok = true → s.part = job.remote)

structure Ok (job : Job) (s : Attempt) : Prop extends Tiled job s where
  phase : PhaseOk job s

/-! ## New reads -/

/-- New reads leave all else as it is. -/
theorem fill_eq (slots : ℕ) (s : Attempt) :
    fill job slots s = { s with reads := (fill job slots s).reads, nextReadOffset := (fill job slots s).nextReadOffset } := by
  induction slots generalizing s with
  | zero => rfl
  | succ slots ih =>
    unfold fill
    split
    · rfl
    · rw [ih]

/-- Asking for more changes the reads under way and where the next one begins. -/
theorem refill_eq (s : Attempt) :
    refill job s = { s with reads := (refill job s).reads, nextReadOffset := (refill job s).nextReadOffset } := by
  unfold refill
  split
  · rfl
  · exact fill_eq _ s

/-- A read that is asked for begins where the last one ends. -/
theorem Tiled.fill (h : s.Tiled job) {slots : ℕ} (hslots : s.reads.length + slots ≤ sftpReadAhead) : (fill job slots s).Tiled job := by
  induction slots generalizing s with
  | zero => exact h
  | succ slots ih =>
    unfold Attempt.fill
    split
    · exact h
    · rename_i len hlen
      obtain ⟨hpos, hmax⟩ := nextSftpReadLen_bounds hlen
      have hbehind := h.behind
      refine @ih { s with reads := s.reads ++ [⟨s.nextReadOffset, len⟩], nextReadOffset := s.nextReadOffset + len } ?_ ?_
      · exact
          { claimed := fun x hx => by
              have hclaimed := h.claimed x hx
              have hsplit := inRange_add s.ordered.nextOffset (s.nextReadOffset - s.ordered.nextOffset) len x
              rw [show s.ordered.nextOffset + (s.nextReadOffset - s.ordered.nextOffset) = s.nextReadOffset by omega] at hsplit
              dsimp only
              rw [show s.nextReadOffset + len - s.ordered.nextOffset = s.nextReadOffset - s.ordered.nextOffset + len by omega, hsplit, ← hclaimed]
              unfold underWay
              rw [List.map_append, List.sum_append, List.map_singleton, List.sum_singleton]
              dsimp only
              omega
            behind := hbehind.trans (Nat.le_add_right _ _)
            inside := h.inside
            reads := fun r hr => by
              obtain hr | hr := List.mem_append.mp hr
              · have hold := h.reads r hr
                exact ⟨hold.1, hold.2.1, hold.2.2.trans (Nat.le_add_right _ _)⟩
              · rw [List.mem_singleton.mp hr]
                exact ⟨hpos, hmax, le_rfl⟩
            room := by
              rw [List.length_append, List.length_singleton]
              omega
            pending := h.pending
            eof := fun heof => (h.eof heof).trans (Nat.le_add_right _ _) }
      · rw [List.length_append, List.length_singleton]
        omega

/-- When there are still slots, no read can be begun. -/
theorem fill_full {slots : ℕ} (hslots : s.reads.length + slots = sftpReadAhead) (hfree : (Attempt.fill job slots s).reads.length < sftpReadAhead) :
    job.remote.length ≤ (Attempt.fill job slots s).nextReadOffset := by
  induction slots generalizing s with
  | zero => exact absurd hfree (by rw [Attempt.fill]; omega)
  | succ slots ih =>
    unfold Attempt.fill at hfree ⊢
    split at hfree
    · rename_i hnone
      exact le_of_nextSftpReadLen_none hnone
    · refine ih ?_ hfree
      rw [List.length_append, List.length_singleton]
      omega

/-- After a refill with nothing under way, all of the file has been asked for. -/
theorem Tiled.refill (h : s.Tiled job) :
    (refill job s).Tiled job ∧ ((refill job s).reads = [] → job.remote.length ≤ (refill job s).nextReadOffset) := by
  have hroom := h.room
  unfold Attempt.refill
  split
  · rename_i heof
    exact ⟨h, fun _ => h.eof heof⟩
  · refine ⟨h.fill (by omega), fun hempty => fill_full (by omega) ?_⟩
    rw [hempty]
    exact Nat.zero_lt_succ _

/-! ## Chunks in order -/

/-- A chunk that is next in order is taken out of those that wait. -/
theorem waiting_of_popReady {b b' : OrderedChunkBuffer} {data : List UInt8} (h : b.popReady = some (data, b')) (x : ℕ) :
    b.waiting x = inRange b.nextOffset data.length x + b'.waiting x ∧ b'.nextOffset = b.nextOffset + data.length := by
  unfold OrderedChunkBuffer.popReady at h
  obtain ⟨found, hfound, hpair⟩ := Option.map_eq_some_iff.mp h
  cases hpair
  exact ⟨OrdMap.sumOf_erase _ _ hfound, rfl⟩

/-- Taking the next bytes out of the buffer keeps every byte covered once. -/
theorem Tiled.pop (h : s.Tiled job) {data : List UInt8} {ordered : OrderedChunkBuffer} (hpop : s.ordered.popReady = some (data, ordered))
    (phase : Phase) : Tiled job { s with ordered := ordered, phase := phase } := by
  have hwaiting := waiting_of_popReady hpop
  have hnext := (hwaiting 0).2
  have hfound : s.ordered.pending.get? s.ordered.nextOffset = some data ∧ ordered.pending = s.ordered.pending.erase s.ordered.nextOffset := by
    unfold OrderedChunkBuffer.popReady at hpop
    obtain ⟨found, hfound, hpair⟩ := Option.map_eq_some_iff.mp hpop
    cases hpair
    exact ⟨hfound, rfl⟩
  obtain ⟨hne, hdata⟩ := h.pending _ _ hfound.1
  have hpos := List.length_pos_of_ne_nil hne
  have hlength := congrArg List.length hdata
  rw [List.length_take, List.length_drop] at hlength
  -- The last byte of the chunk has been asked for.
  have hasked : s.ordered.nextOffset + data.length ≤ s.nextReadOffset := by
    have hlast := h.claimed (s.ordered.nextOffset + data.length - 1) (by omega)
    have hin : 0 < inRange s.ordered.nextOffset data.length (s.ordered.nextOffset + data.length - 1) := inRange_pos.mpr (by omega)
    rw [(hwaiting _).1] at hlast
    have hclaimed : 0 < inRange s.ordered.nextOffset (s.nextReadOffset - s.ordered.nextOffset) (s.ordered.nextOffset + data.length - 1) := by omega
    have hwithin := inRange_pos.mp hclaimed
    omega
  exact
    { claimed := fun x hx => by
        have hclaimed := h.claimed x hx
        have hsplit := inRange_add s.ordered.nextOffset data.length (s.nextReadOffset - (s.ordered.nextOffset + data.length)) x
        rw [show data.length + (s.nextReadOffset - (s.ordered.nextOffset + data.length)) = s.nextReadOffset - s.ordered.nextOffset by omega] at hsplit
        rw [(hwaiting x).1] at hclaimed
        dsimp only
        rw [hnext]
        omega
      behind := by
        dsimp only
        omega
      inside := by
        dsimp only
        omega
      reads := h.reads
      room := h.room
      pending := fun offset found hget => by
        dsimp only at hget
        rw [hfound.2, OrdMap.get?_erase] at hget
        split at hget
        · cases hget
        · exact h.pending offset found hget
      eof := h.eof }

/-- The phase does not matter. -/
theorem Tiled.enter (h : s.Tiled job) (phase : Phase) : Tiled job { s with phase := phase } :=
  ⟨h.claimed, h.behind, h.inside, h.reads, h.room, h.pending, h.eof⟩

/-- When all that is in order is written, the next chunk is written, or new reads are begun. -/
theorem Tiled.goOn (h : s.Tiled job) (hpart : s.part = job.remote.take s.ordered.nextOffset) (hbytes : s.bytesDownloaded = s.ordered.nextOffset) :
    (goOn job s).Ok job := by
  unfold Attempt.goOn
  split
  · rename_i data ordered hpop
    refine ⟨h.pop hpop _, s.ordered.nextOffset, (waiting_of_popReady hpop 0).2, ?_⟩
    have hfound : s.ordered.pending.get? s.ordered.nextOffset = some data := by
      unfold OrderedChunkBuffer.popReady at hpop
      obtain ⟨found, hfound, hpair⟩ := Option.map_eq_some_iff.mp hpop
      cases hpair
      exact hfound
    obtain ⟨hne, hdata⟩ := h.pending _ _ hfound
    exact ⟨hdata, List.length_pos_of_ne_nil hne, hpart, hbytes⟩
  · rename_i hnone
    obtain ⟨htiled, hend⟩ := h.refill
    refine ⟨htiled.enter _, ?_⟩
    have hwaits : s.ordered.pending.get? s.ordered.nextOffset = none := Option.map_eq_none_iff.mp hnone
    unfold PhaseOk
    dsimp only
    refine ⟨?_, ?_, ?_, hend⟩
    · rw [refill_eq]
      exact hpart
    · rw [refill_eq]
      exact hbytes
    · rw [refill_eq]
      exact hwaits

/-! ## Reads that complete -/

/-- An answer takes its read out of those under way. -/
theorem underWay_eraseIdx {reads : List Read} {i : ℕ} {r : Read} (h : reads[i]? = some r) (x : ℕ) :
    underWay reads x = inRange r.offset r.len x + underWay (reads.eraseIdx i) x := by
  unfold underWay
  rw [← ((cons_eraseIdx_perm h).map _).sum_eq, List.map_cons, List.sum_cons]

/-- A chunk is the bytes of the file that it is long. -/
theorem answer_data (job : Job) (r : Read) (k : ℕ) :
    (job.answer r k).data = (job.remote.drop r.offset).take (job.answer r k).data.length := by
  dsimp only [Job.answer]
  rw [List.length_take]
  exact List.take_eq_take_min

/-- A read that brings nothing was behind the end of the file. -/
theorem length_le_of_answer_nil {r : Read} {k : ℕ} (hk : 1 ≤ k) (h : (job.answer r k).data = []) : job.remote.length ≤ r.offset := by
  dsimp only [Job.answer] at h
  rw [List.take_eq_nil_iff] at h
  obtain h | h := h
  · omega
  · exact List.drop_eq_nil_iff.mp h

/-- A read that brings something begins in the file. -/
theorem lt_length_of_answer {r : Read} {k : ℕ} (h : (job.answer r k).data ≠ []) : r.offset < job.remote.length := by
  by_contra hend
  refine h ?_
  dsimp only [Job.answer]
  rw [List.drop_eq_nil_iff.mpr (not_lt.mp hend), List.take_nil]

/-- The first byte of a read is in no chunk that waits. -/
theorem Tiled.fresh (h : s.Tiled job) {i : ℕ} {r : Read} (hr : s.reads[i]? = some r) (hstart : r.offset < job.remote.length) :
    s.ordered.nextOffset ≤ r.offset ∧ s.ordered.waiting r.offset = 0 ∧ s.ordered.pending.get? r.offset = none := by
  have hpos := (h.reads r (List.mem_of_getElem? hr)).1
  have hclaimed := h.claimed r.offset hstart
  have hone : 0 < inRange r.offset r.len r.offset := inRange_pos.mpr (by omega)
  have hle := inRange_le_one s.ordered.nextOffset (s.nextReadOffset - s.ordered.nextOffset) r.offset
  rw [underWay_eraseIdx hr] at hclaimed
  have hin := inRange_pos.mp (show 0 < inRange s.ordered.nextOffset (s.nextReadOffset - s.ordered.nextOffset) r.offset by omega)
  have hzero : s.ordered.waiting r.offset = 0 := by omega
  refine ⟨hin.1, hzero, Option.eq_none_iff_forall_ne_some.mpr fun data hget => ?_⟩
  have hlength := List.length_pos_of_ne_nil (h.pending _ _ hget).1
  have hwaiting : s.ordered.waiting r.offset = _ :=
    OrdMap.sumOf_erase (fun offset (data : List UInt8) => inRange offset data.length r.offset) _ hget
  have htwo : 0 < inRange r.offset data.length r.offset := inRange_pos.mpr (by omega)
  omega

/-- A chunk with bytes goes into the buffer under its offset. -/
theorem push_eq {b : OrderedChunkBuffer} {chunk : SftpReadChunk} (h : chunk.data ≠ []) :
    b.push chunk = { b with pending := b.pending.insert chunk.offset chunk.data } := by
  unfold OrderedChunkBuffer.push
  rw [if_neg (by rw [List.isEmpty_iff]; exact h)]

/-- A chunk at a new offset is waiting beside the others. -/
theorem waiting_push {b : OrderedChunkBuffer} {chunk : SftpReadChunk} (h : chunk.data ≠ []) (hfresh : b.pending.get? chunk.offset = none) (x : ℕ) :
    (b.push chunk).waiting x = inRange chunk.offset chunk.data.length x + b.waiting x := by
  rw [push_eq h]
  unfold OrderedChunkBuffer.waiting
  dsimp only
  rw [OrdMap.sumOf_insert, OrdMap.erase_of_get?_none _ hfresh]

/-- The range of a read passes on to its chunk and to the read of the gap. -/
theorem Tiled.chunk (h : s.Tiled job) {i k : ℕ} {r : Read} (hr : s.reads[i]? = some r) (hk : k ≤ r.len) (hdata : (job.answer r k).data ≠ []) :
    Tiled job
      { s with
        reads := s.reads.eraseIdx i ++ (shortReadGap (job.answer r k) job.fileSize).toList.map fun gap => ⟨gap.1, gap.2⟩
        ordered := s.ordered.push (job.answer r k) } := by
  obtain ⟨hpos, hmax, hasked⟩ := h.reads r (List.mem_of_getElem? hr)
  obtain ⟨-, -, hfresh⟩ := h.fresh hr (lt_length_of_answer hdata)
  have hgap : ∀ gap ∈ shortReadGap (job.answer r k) job.fileSize, 0 < gap.2 ∧ gap.2 ≤ r.len ∧ gap.1 + gap.2 ≤ r.offset + r.len :=
    fun gap hgap => shortReadGap_bounds hgap
  exact
    { claimed := fun x hx => by
        have hclaimed := h.claimed x hx
        rw [underWay_eraseIdx hr, inRange_gap hx hdata hk] at hclaimed
        have hwaiting := waiting_push hdata hfresh x
        have hunder : underWay (s.reads.eraseIdx i ++ (shortReadGap (job.answer r k) job.fileSize).toList.map fun gap => ⟨gap.1, gap.2⟩) x =
            underWay (s.reads.eraseIdx i) x + (shortReadGap (job.answer r k) job.fileSize).elim 0 fun gap => inRange gap.1 gap.2 x := by
          unfold underWay
          rw [List.map_append, List.sum_append]
          cases shortReadGap (job.answer r k) job.fileSize with
          | none => rfl
          | some gap => rfl
        have hnext : (s.ordered.push (job.answer r k)).nextOffset = s.ordered.nextOffset := by rw [push_eq hdata]
        have hoffset : (job.answer r k).offset = r.offset := rfl
        dsimp only
        rw [hwaiting, hunder, hnext, hoffset]
        omega
      behind := by
        rw [push_eq hdata]
        exact h.behind
      inside := by
        rw [push_eq hdata]
        exact h.inside
      reads := fun r' hr' => by
        obtain hr' | hr' := List.mem_append.mp hr'
        · exact h.reads r' (List.mem_of_mem_eraseIdx hr')
        · obtain ⟨gap, hmem, rfl⟩ := List.mem_map.mp hr'
          obtain ⟨hgappos, hgaplen, hgapend⟩ := hgap gap (Option.mem_toList.mp hmem)
          exact ⟨hgappos, hgaplen.trans hmax, hgapend.trans hasked⟩
      room := by
        have hi := (List.getElem?_eq_some_iff.mp hr).1
        have hroom := h.room
        have hone : (shortReadGap (job.answer r k) job.fileSize).toList.length ≤ 1 := Option.length_toList_le
        dsimp only
        rw [List.length_append, List.length_map, List.length_eraseIdx_of_lt hi]
        omega
      pending := fun offset data hget => by
        rw [push_eq hdata] at hget
        dsimp only at hget
        rw [OrdMap.get?_insert] at hget
        split at hget
        · rename_i hoffset
          cases hget
          rw [hoffset]
          exact ⟨hdata, answer_data job r k⟩
        · exact h.pending offset data hget
      eof := h.eof }

/-- A read that brings nothing: the file has ended. -/
theorem Tiled.ended (h : s.Tiled job) {i : ℕ} {r : Read} (hr : s.reads[i]? = some r) (hend : job.remote.length ≤ r.offset) :
    Tiled job { s with reads := s.reads.eraseIdx i, sawEof := true } := by
  obtain ⟨hpos, hmax, hasked⟩ := h.reads r (List.mem_of_getElem? hr)
  exact
    { claimed := fun x hx => by
        have hclaimed := h.claimed x hx
        have hout : inRange r.offset r.len x = 0 := if_neg (by omega)
        rw [underWay_eraseIdx hr, hout, Nat.zero_add] at hclaimed
        exact hclaimed
      behind := h.behind
      inside := h.inside
      reads := fun r' hr' => h.reads r' (List.mem_of_mem_eraseIdx hr')
      room := (List.length_eraseIdx_le _ _).trans h.room
      pending := h.pending
      eof := fun _ => by
        dsimp only
        omega }

/-! ## Steps -/

/-- The part file is a prefix of the remote file. -/
theorem Ok.part_isPrefix (h : s.Ok job) : s.part <+: job.remote := by
  have hphase := h.phase
  unfold PhaseOk at hphase
  split at hphase
  · rw [hphase.1]
    exact List.take_prefix _ _
  · obtain ⟨offset, -, -, -, hpart, -⟩ := hphase
    rw [hpart]
    exact List.take_prefix _ _
  · exact hphase.1

/-- Behind the bytes of the file that are written come those of the chunk. -/
theorem take_append_chunk {remote data : List UInt8} {offset written n : ℕ} (hdata : data = (remote.drop offset).take data.length)
    (hn : written + n ≤ data.length) : remote.take (offset + written) ++ (data.drop written).take n = remote.take (offset + (written + n)) := by
  rw [hdata, List.drop_take, List.take_take, min_eq_left (by omega), List.drop_drop, ← List.take_add, Nat.add_assoc]

/-- An offset that is waiting lies in a chunk of the buffer. -/
theorem waiting_pos {b : OrderedChunkBuffer} {x : ℕ} (h : 0 < b.waiting x) :
    ∃ offset data, b.pending.get? offset = some data ∧ offset ≤ x ∧ x < offset + data.length := by
  by_contra hnone
  refine h.ne' (List.sum_eq_zero_iff.mpr fun n hn => ?_)
  obtain ⟨⟨offset, data⟩, hmem, rfl⟩ := List.mem_map.mp hn
  by_contra hpos
  exact hnone ⟨offset, data, OrdMap.get?_eq_some_iff.mpr hmem, inRange_pos.mp (Nat.pos_of_ne_zero hpos)⟩

/-- When no read is under way, nothing is missing. -/
theorem Ok.whole (h : s.Ok job) (hphase : s.phase = .reading) (hreads : s.reads = []) : s.part = job.remote ∧ s.bytesDownloaded = job.remote.length := by
  have hreading := h.phase
  unfold PhaseOk at hreading
  rw [hphase] at hreading
  obtain ⟨hpart, hbytes, hnone, hend⟩ := hreading
  have hinside := h.inside
  have hnext : s.ordered.nextOffset = job.remote.length := by
    by_contra hne
    -- The next byte waits in a chunk that begins before it, and such a chunk is there no more.
    have hclaimed := h.claimed s.ordered.nextOffset (by omega)
    have hone : 0 < inRange s.ordered.nextOffset (s.nextReadOffset - s.ordered.nextOffset) s.ordered.nextOffset := by
      have hasked := hend hreads
      exact inRange_pos.mpr (by omega)
    rw [hreads] at hclaimed
    have hzero : underWay [] s.ordered.nextOffset = 0 := rfl
    obtain ⟨offset, data, hget, hle, hlt⟩ := @waiting_pos s.ordered s.ordered.nextOffset (by omega)
    have hbefore : offset ≠ s.ordered.nextOffset := by
      rintro rfl
      rw [hnone] at hget
      cases hget
    have hgone := h.claimed offset (by omega)
    have hwaiting : s.ordered.waiting offset = _ :=
      OrdMap.sumOf_erase (fun offset' (data : List UInt8) => inRange offset' data.length offset) _ hget
    have hhas : 0 < inRange offset data.length offset := inRange_pos.mpr (by omega)
    have hout : inRange s.ordered.nextOffset (s.nextReadOffset - s.ordered.nextOffset) offset = 0 := if_neg (by omega)
    omega
  exact ⟨by rw [hpart, hnext, List.take_length], by rw [hbytes, hnext]⟩

/-- A download begins where its part file ends. -/
theorem Ok.start {part : List UInt8} (hpart : part <+: job.remote) : (start job part).Ok job := by
  have hnone : ∀ offset, (OrderedChunkBuffer.new part.length).pending.get? offset = none := fun offset => rfl
  have hbegin : Tiled job ⟨part, part.length, part.length, false, [], .new part.length, .reading⟩ :=
    { claimed := fun x _ => by
        dsimp only [OrderedChunkBuffer.new]
        rw [Nat.sub_self, inRange_zero]
        rfl
      behind := le_rfl
      inside := hpart.length_le
      reads := fun r hr => absurd hr List.not_mem_nil
      room := Nat.zero_le _
      pending := fun offset data hget => by
        rw [hnone] at hget
        cases hget
      eof := fun heof => by cases heof }
  obtain ⟨htiled, hend⟩ := hbegin.refill
  refine ⟨htiled, ?_⟩
  unfold PhaseOk Attempt.start
  rw [refill_eq]
  exact ⟨List.prefix_iff_eq_take.mp hpart, rfl, rfl, hend⟩

/-- An answer of at least one byte keeps everything in order. -/
theorem Ok.completes (h : s.Ok job) (hphase : s.phase = .reading) {i k : ℕ} {r : Read} (hr : s.reads[i]? = some r) (hk : 1 ≤ k) (hlen : k ≤ r.len) :
    (received job { s with reads := s.reads.eraseIdx i } (job.answer r k)).Ok job := by
  have hreading := h.phase
  unfold PhaseOk at hreading
  rw [hphase] at hreading
  obtain ⟨hpart, hbytes, hnone, -⟩ := hreading
  unfold received
  split
  · rename_i hempty
    have hended := h.toTiled.ended hr (length_le_of_answer_nil hk (List.isEmpty_iff.mp hempty))
    unfold Attempt.refill
    rw [if_pos rfl]
    refine ⟨hended, ?_⟩
    unfold PhaseOk
    dsimp only
    rw [hphase]
    exact ⟨hpart, hbytes, hnone, fun _ => hended.eof rfl⟩
  · rename_i hdata
    rw [List.isEmpty_iff] at hdata
    have hnext : (s.ordered.push (job.answer r k)).nextOffset = s.ordered.nextOffset := by rw [push_eq hdata]
    refine (h.toTiled.chunk hr hlen hdata).goOn ?_ ?_
    · rw [hnext]
      exact hpart
    · rw [hnext]
      exact hbytes

/-- Each step keeps everything in order. -/
theorem Ok.step (h : s.Ok job) {a : Action} (hstep : s.step job a = some s') : s'.Ok job := by
  cases a with
  | completes i k =>
    unfold Attempt.step at hstep
    dsimp only at hstep
    split at hstep
    · rename_i r hphase hr
      split at hstep
      · rename_i hk
        cases hstep
        exact h.completes hphase hr hk.1 (hk.2.trans (Nat.mod_le _ _))
      · cases hstep
    · cases hstep
  | writes n =>
    unfold Attempt.step at hstep
    dsimp only at hstep
    split at hstep
    · rename_i data written hphase
      have hwriting := h.phase
      unfold PhaseOk at hwriting
      rw [hphase] at hwriting
      obtain ⟨offset, hnext, hdata, hlt, hpart, hbytes⟩ := hwriting
      split at hstep
      · rename_i hn
        have happend := take_append_chunk hdata hn.2
        split at hstep
        · rename_i hall
          cases hstep
          refine Tiled.goOn ⟨h.claimed, h.behind, h.inside, h.reads, h.room, h.pending, h.eof⟩ ?_ ?_
          · dsimp only
            rw [hpart, happend, hall, hnext]
          · dsimp only
            rw [hbytes, hnext]
        · rename_i hmore
          cases hstep
          refine ⟨⟨h.claimed, h.behind, h.inside, h.reads, h.room, h.pending, h.eof⟩, offset, hnext, hdata, by omega, ?_, hbytes⟩
          dsimp only
          rw [hpart, happend]
      · cases hstep
    · cases hstep
  | closes =>
    unfold Attempt.step at hstep
    dsimp only at hstep
    split at hstep
    · rename_i hphase hreads
      cases hstep
      exact ⟨h.toTiled.enter _, h.part_isPrefix, fun _ => (h.whole hphase hreads).1⟩
    · cases hstep
  | fails =>
    unfold Attempt.step at hstep
    dsimp only at hstep
    split at hstep
    · cases hstep
    · cases hstep
      exact ⟨h.toTiled.enter _, h.part_isPrefix, fun hok => by cases hok⟩

/-! ## The end of the loop -/

/-- Whether a byte has come. -/
def Fetched (s : Attempt) (x : ℕ) : Prop := x < s.ordered.nextOffset ∨ 0 < s.ordered.waiting x

instance (s : Attempt) (x : ℕ) : Decidable (s.Fetched x) := inferInstanceAs (Decidable (_ ∨ _))

/-- How many bytes have not come. -/
def missing (job : Job) (s : Attempt) : ℕ := ((Finset.range job.remote.length).filter fun x => ¬ s.Fetched x).card

/-- How many reads may still bring nothing. -/
def vain (s : Attempt) : ℕ := if s.sawEof then s.reads.length + 1 else sftpReadAhead + 2

theorem vain_pos (s : Attempt) : 0 < s.vain := by
  unfold vain
  split <;> omega

/-- What is left to do: bytes to come, bytes to write, reads that bring nothing. -/
def left (job : Job) (s : Attempt) : ℕ :=
  job.remote.length - s.part.length + s.missing job +
    match s.phase with
    | .returned _ => 0
    | _ => s.vain

/-- What is missing depends only on what was fetched. -/
theorem missing_congr (h : ∀ x, s'.Fetched x ↔ s.Fetched x) : s'.missing job = s.missing job := by
  unfold missing
  congr 1
  exact Finset.filter_congr fun x _ => not_congr (h x)

theorem vain_refill (s : Attempt) : (refill job s).vain = s.vain := by
  unfold vain
  rw [refill_eq]
  dsimp only
  cases heof : s.sawEof with
  | true =>
    unfold refill
    rw [if_pos heof]
  | false => rfl

/-- Going on leaves what has come and what is written. -/
theorem left_goOn (s : Attempt) : (goOn job s).left job = job.remote.length - s.part.length + s.missing job + s.vain := by
  unfold goOn
  split
  · rename_i data ordered hpop
    have hfetched : ∀ x, Fetched { s with ordered := ordered, phase := .writing data 0 } x ↔ s.Fetched x := by
      intro x
      obtain ⟨hwaiting, hnext⟩ := waiting_of_popReady hpop x
      have hone := @inRange_pos s.ordered.nextOffset data.length x
      unfold Fetched
      dsimp only
      omega
    unfold left
    dsimp only
    rw [missing_congr hfetched]
    rfl
  · unfold left
    dsimp only
    have hfetched : ∀ x, Fetched { refill job s with phase := .reading } x ↔ s.Fetched x := by
      intro x
      unfold Fetched
      rw [refill_eq]
    rw [missing_congr hfetched]
    have hvain : vain { refill job s with phase := .reading } = s.vain := vain_refill s
    rw [hvain, refill_eq]

/-- A chunk brings the byte that it begins with. -/
theorem Tiled.missing_chunk (h : s.Tiled job) {i k : ℕ} {r : Read} (hr : s.reads[i]? = some r) (hdata : (job.answer r k).data ≠ []) (reads : List Read) :
    missing job { s with reads := reads, ordered := s.ordered.push (job.answer r k) } < s.missing job := by
  have hstart := lt_length_of_answer hdata
  obtain ⟨hbehind, hzero, hfresh⟩ := h.fresh hr hstart
  have hwaiting := @waiting_push s.ordered (job.answer r k) hdata hfresh
  have hnext : (s.ordered.push (job.answer r k)).nextOffset = s.ordered.nextOffset := by rw [push_eq hdata]
  refine Finset.card_lt_card (Finset.ssubset_iff_of_subset ?_ |>.mpr ⟨r.offset, ?_, ?_⟩)
  · intro x hx
    rw [Finset.mem_filter] at hx ⊢
    refine ⟨hx.1, fun hfetched => hx.2 ?_⟩
    unfold Fetched at hfetched ⊢
    dsimp only
    rw [hnext, hwaiting]
    omega
  · rw [Finset.mem_filter, Finset.mem_range]
    refine ⟨hstart, ?_⟩
    unfold Fetched
    omega
  · rw [Finset.mem_filter]
    refine fun hmem => hmem.2 (.inr ?_)
    have hlength := List.length_pos_of_ne_nil hdata
    have hhas : 0 < inRange (job.answer r k).offset (job.answer r k).data.length r.offset := inRange_pos.mpr ⟨le_rfl, by
      dsimp only [Job.answer] at hlength ⊢
      omega⟩
    dsimp only
    rw [hwaiting]
    omega

/-- An answer leaves less to do. -/
theorem Ok.left_completes (h : s.Ok job) (hphase : s.phase = .reading) {i k : ℕ} {r : Read} (hr : s.reads[i]? = some r) :
    (received job { s with reads := s.reads.eraseIdx i } (job.answer r k)).left job < s.left job := by
  have hi := (List.getElem?_eq_some_iff.mp hr).1
  have hroom := h.room
  have hleft : s.left job = job.remote.length - s.part.length + s.missing job + s.vain := by
    unfold left
    rw [hphase]
  rw [hleft]
  unfold received
  split
  · have hnow : left job (refill job { s with reads := s.reads.eraseIdx i, sawEof := true }) =
        job.remote.length - s.part.length + s.missing job + ((s.reads.eraseIdx i).length + 1) := by
      unfold refill
      rw [if_pos rfl]
      unfold left
      dsimp only
      rw [hphase]
      rfl
    rw [hnow, List.length_eraseIdx_of_lt hi]
    unfold vain
    split <;> omega
  · rename_i hdata
    rw [List.isEmpty_iff] at hdata
    have hmissing := @Tiled.missing_chunk job s h.toTiled i k r hr hdata
      (s.reads.eraseIdx i ++ (shortReadGap (job.answer r k) job.fileSize).toList.map fun gap => ⟨gap.1, gap.2⟩)
    have hone : (shortReadGap (job.answer r k) job.fileSize).toList.length ≤ 1 := Option.length_toList_le
    have hvain : vain { s with
        reads := s.reads.eraseIdx i ++ (shortReadGap (job.answer r k) job.fileSize).toList.map fun gap => ⟨gap.1, gap.2⟩
        ordered := s.ordered.push (job.answer r k) } ≤ s.vain := by
      unfold vain
      dsimp only
      rw [List.length_append, List.length_map, List.length_eraseIdx_of_lt hi]
      split <;> omega
    rw [left_goOn]
    dsimp only at hmissing hvain ⊢
    omega

/-- Each step leaves less to do. -/
theorem Ok.left_step (h : s.Ok job) {a : Action} (hstep : s.step job a = some s') : s'.left job < s.left job := by
  cases a with
  | completes i k =>
    unfold Attempt.step at hstep
    dsimp only at hstep
    split at hstep
    · rename_i r hphase hr
      split at hstep
      · cases hstep
        exact h.left_completes hphase hr
      · cases hstep
    · cases hstep
  | writes n =>
    have hinside := (h.step hstep).part_isPrefix.length_le
    unfold Attempt.step at hstep
    dsimp only at hstep
    split at hstep
    · rename_i data written hphase
      have hleft : s.left job = job.remote.length - s.part.length + s.missing job + s.vain := by
        unfold left
        rw [hphase]
      rw [hleft]
      split at hstep
      · rename_i hn
        have hlength : (s.part ++ (data.drop written).take n).length = s.part.length + n := by
          rw [List.length_append, List.length_take, List.length_drop]
          omega
        split at hstep
        · cases hstep
          have hpart : (goOn job { s with part := s.part ++ (data.drop written).take n, bytesDownloaded := s.bytesDownloaded + data.length }).part =
              s.part ++ (data.drop written).take n := by
            unfold goOn
            split
            · rfl
            · rw [refill_eq]
          rw [hpart, hlength] at hinside
          rw [left_goOn]
          dsimp only
          rw [hlength]
          have hmissing : missing job { s with part := s.part ++ (data.drop written).take n, bytesDownloaded := s.bytesDownloaded + data.length } =
              s.missing job := rfl
          have hvain : vain { s with part := s.part ++ (data.drop written).take n, bytesDownloaded := s.bytesDownloaded + data.length } = s.vain := rfl
          rw [hmissing, hvain]
          omega
        · cases hstep
          dsimp only at hinside
          rw [hlength] at hinside
          unfold left
          dsimp only
          rw [hlength]
          have hmissing : missing job { s with part := s.part ++ (data.drop written).take n, phase := .writing data (written + n) } =
              s.missing job := rfl
          have hvain : vain { s with part := s.part ++ (data.drop written).take n, phase := .writing data (written + n) } = s.vain := rfl
          rw [hmissing, hvain]
          omega
      · cases hstep
    · cases hstep
  | closes =>
    unfold Attempt.step at hstep
    dsimp only at hstep
    split at hstep
    · rename_i hphase hreads
      cases hstep
      unfold left
      rw [hphase]
      exact Nat.add_lt_add_left s.vain_pos _
    · cases hstep
  | fails =>
    unfold Attempt.step at hstep
    dsimp only at hstep
    split at hstep
    · cases hstep
    rename_i hphase
    cases hstep
    unfold left
    refine Nat.add_lt_add_left ?_ _
    dsimp only
    split
    · rename_i ok hreturned
      exact absurd hreturned (hphase ok)
    · exact s.vain_pos

/-- A run is no longer than what there was to do at its start. -/
theorem Ok.left_run (h : s.Ok job) {L : List Action} (hrun : runActions (Attempt.step job) s L = some s') : L.length + s'.left job ≤ s.left job := by
  induction L generalizing s with
  | nil =>
    cases hrun
    exact (Nat.zero_add _).le
  | cons a rest ih =>
    obtain ⟨next, hnext, hrest⟩ := Option.bind_eq_some_iff.mp hrun
    have hless := h.left_step hnext
    have hmore := ih (h.step hnext) hrest
    rw [List.length_cons]
    omega

/-- At the start two steps are left for each missing byte, and 66 more. -/
theorem left_start_le {part : List UInt8} (job : Job) : (start job part).left job ≤ 2 * (job.remote.length - part.length) + 66 := by
  have hpart : (start job part).part = part := by
    unfold start
    rw [refill_eq]
  have hphase : (start job part).phase = .reading := by
    unfold start
    rw [refill_eq]
  have hmissing : (start job part).missing job ≤ job.remote.length - part.length := by
    refine (Finset.card_le_card (t := Finset.Ico part.length job.remote.length) fun x hx => ?_).trans_eq (Nat.card_Ico _ _)
    rw [Finset.mem_filter, Finset.mem_range] at hx
    refine Finset.mem_Ico.mpr ⟨not_lt.mp fun hbefore => hx.2 (.inl ?_), hx.1⟩
    unfold start
    rw [refill_eq]
    exact hbefore
  have hvain : (start job part).vain = 66 := vain_refill _
  unfold left
  rw [hpart, hphase, hvain]
  dsimp only
  omega

/-! ## Whole runs -/

/-- A read that is under way may come back with any number of the bytes that it asks for. -/
theorem Ok.answerable (h : s.Ok job) (hphase : s.phase = .reading) {i : ℕ} {r : Read} (hr : s.reads[i]? = some r) {k : ℕ} (hk : 1 ≤ k)
    (hlen : k ≤ r.len) :
    (s.step job (.completes i k)).isSome = true := by
  have hmax := (h.reads r (List.mem_of_getElem? hr)).2.1
  have hasked : r.len % 2 ^ 32 = r.len := Nat.mod_eq_of_lt (by
    unfold bufSize at hmax
    omega)
  unfold Attempt.step
  dsimp only
  rw [hphase, hr]
  dsimp only
  rw [if_pos ⟨hk, hlen.trans_eq hasked.symm⟩]
  rfl

/-- The loop comes to no halt. -/
theorem Ok.exists_step (h : s.Ok job) (hlive : ∀ ok, s.phase ≠ .returned ok) : ∃ a, a ≠ .fails ∧ (s.step job a).isSome = true := by
  have hphase := h.phase
  unfold PhaseOk at hphase
  split at hphase
  · rename_i hreading
    cases hreads : s.reads with
    | nil =>
      refine ⟨.closes, nofun, ?_⟩
      unfold Attempt.step
      dsimp only
      rw [hreading, hreads]
      rfl
    | cons r rest =>
      have hr : s.reads[0]? = some r := by
        rw [hreads]
        rfl
      exact ⟨.completes 0 1, nofun, h.answerable hreading hr le_rfl (h.reads r (List.mem_of_getElem? hr)).1⟩
  · rename_i data written hwriting
    obtain ⟨-, -, -, hlt, -⟩ := hphase
    refine ⟨.writes 1, nofun, ?_⟩
    unfold Attempt.step
    dsimp only
    rw [hwriting]
    dsimp only
    rw [if_pos ⟨Nat.one_pos, hlt⟩]
    split <;> rfl
  · rename_i ok hreturned
    exact absurd hreturned (hlive ok)

/-- A step leaves the part file, or writes the bytes that come next. -/
theorem Ok.writes_next (h : s.Ok job) {a : Action} (hstep : s.step job a = some s') :
    ∃ n, s'.part = s.part ++ (job.remote.drop s.part.length).take n := by
  have hnext := (h.step hstep).part_isPrefix
  have hgrows : s.part <+: s'.part := by
    cases a with
    | completes i k =>
      unfold Attempt.step at hstep
      dsimp only at hstep
      split at hstep
      · split at hstep
        · cases hstep
          unfold received goOn
          split
          · rw [refill_eq]
          · split
            · exact List.prefix_rfl
            · rw [refill_eq]
        · cases hstep
      · cases hstep
    | writes n =>
      unfold Attempt.step at hstep
      dsimp only at hstep
      split at hstep
      · split at hstep
        · split at hstep
          · cases hstep
            unfold goOn
            split
            · exact List.prefix_append _ _
            · rw [refill_eq]
              exact List.prefix_append _ _
          · cases hstep
            exact List.prefix_append _ _
        · cases hstep
      · cases hstep
    | closes =>
      unfold Attempt.step at hstep
      dsimp only at hstep
      split at hstep
      · cases hstep
        exact List.prefix_rfl
      · cases hstep
    | fails =>
      unfold Attempt.step at hstep
      dsimp only at hstep
      split at hstep
      · cases hstep
      · cases hstep
        exact List.prefix_rfl
  obtain ⟨more, hmore⟩ := hgrows
  obtain ⟨rest, hrest⟩ := hnext
  refine ⟨more.length, ?_⟩
  rw [← hmore, ← hrest, ← hmore, List.append_assoc, List.drop_left, List.take_left]

end Attempt

/-- Opening the part file leaves the bytes that the loop goes on behind. -/
theorem isPrefix_openPart {job : Job} {existing : Option (List UInt8)}
    (h : 0 < resumeOffset (existing.getD []).length job.fileSize → existing.getD [] <+: job.remote) :
    openPart existing job.fileSize <+: job.remote ∧ (openPart existing job.fileSize).length = resumeOffset (existing.getD []).length job.fileSize := by
  unfold openPart
  dsimp only
  split
  · rename_i hpos
    refine ⟨h hpos, ?_⟩
    unfold resumeOffset at hpos ⊢
    split at hpos
    · rename_i hresumes
      rw [if_pos hresumes]
    · omega
  · rename_i hzero
    exact ⟨List.nil_prefix, by rw [List.length_nil]; omega⟩

open Attempt in
/-- From any part file that is the first bytes of the file on the server, with whatever size and limit the server tells, in whatever order the reads come
back: the part file is always the first bytes of the file, and each step leaves it or writes the bytes that come next; a read that is under way may come
back at any time with any number of its bytes; when none is under way the whole file is there and the loop returns `Ok`, and it returns `Ok` only then;
there is always a step to take, and no run has more than so many. -/
theorem sftp_reassembles (job : Job) {existing : Option (List UInt8)} {part : List UInt8}
    (hexisting : 0 < resumeOffset (existing.getD []).length job.fileSize → existing.getD [] <+: job.remote) (hpart : part <+: job.remote) :
    (openPart existing job.fileSize <+: job.remote ∧ (openPart existing job.fileSize).length = resumeOffset (existing.getD []).length job.fileSize) ∧
      (∀ s, Reach (· = start job part) (fun s s' => ∃ a, s.step job a = some s') s →
        s.part <+: job.remote ∧
        (∀ a s', s.step job a = some s' → ∃ n, s'.part = s.part ++ (job.remote.drop s.part.length).take n) ∧
        (s.phase = .reading → ∀ i r, s.reads[i]? = some r → ∀ k, 1 ≤ k → k ≤ r.len → (s.step job (.completes i k)).isSome = true) ∧
        (s.phase = .reading → s.reads = [] → s.part = job.remote ∧ s.step job .closes = some { s with phase := .returned true }) ∧
        (s.phase = .returned true → s.part = job.remote) ∧
        ((∀ ok, s.phase ≠ .returned ok) → ∃ a, a ≠ .fails ∧ (s.step job a).isSome = true)) ∧
      ∀ L s', runActions (Attempt.step job) (start job part) L = some s' → L.length ≤ 2 * (job.remote.length - part.length) + 66 := by
  refine ⟨isPrefix_openPart hexisting, fun s hs => ?_, fun L s' hrun => ?_⟩
  · have hok : s.Ok job := by
      refine hs.invariant (fun s hstart => ?_) fun s s' hok ⟨a, hstep⟩ => hok.step hstep
      rw [hstart]
      exact Ok.start hpart
    refine ⟨hok.part_isPrefix, fun a s' hstep => hok.writes_next hstep, fun hphase i r hr k hk hlen => hok.answerable hphase hr hk hlen,
      fun hphase hreads => ?_, fun hphase => ?_, hok.exists_step⟩
    · obtain ⟨hwhole, hbytes⟩ := hok.whole hphase hreads
      refine ⟨hwhole, ?_⟩
      have hends : (job.fileSize == 0 || s.bytesDownloaded == job.fileSize) = true := by
        rw [Bool.or_eq_true, beq_iff_eq, beq_iff_eq, hbytes]
        exact (fileSize_eq job).imp_right Eq.symm
      unfold Attempt.step
      rw [hphase, hreads]
      dsimp only
      rw [hends]
    · have hreturned := hok.phase
      unfold PhaseOk at hreturned
      rw [hphase] at hreturned
      exact hreturned.2 rfl
  · have hbound := (Ok.start hpart).left_run hrun
    have hstart := @left_start_le part job
    omega

/-- Three bytes, of which no read brings more than two, and the last of them comes first. -/
def lastFirst : List Action := [.completes 1 1, .completes 0 1, .writes 1, .completes 0 1, .writes 1, .writes 1, .closes]

/-- Three bytes of which the last come first. -/
theorem sftp_reassembles_three : ∃ s, runActions (Attempt.step ⟨[1, 2, 3], true, some 2⟩)
    (Attempt.start ⟨[1, 2, 3], true, some 2⟩ []) lastFirst = some s ∧
    s.part = [1, 2, 3] ∧ lastFirst.length ≤ 2 * 3 + 66 := by
  obtain ⟨-, hstates, hbound⟩ := @sftp_reassembles ⟨[1, 2, 3], true, some 2⟩ none [] (by decide) (by decide)
  have hrun : runActions (Attempt.step ⟨[1, 2, 3], true, some 2⟩) (Attempt.start ⟨[1, 2, 3], true, some 2⟩ []) lastFirst = some _ := rfl
  exact ⟨_, hrun, (hstates _ (Reach.runActions hrun (.init rfl))).2.2.2.2.1 rfl, hbound _ _ hrun⟩

end Sftp

end Risuko
